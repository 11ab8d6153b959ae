-- SUMMARY: Circular doubly linked lists around an anchor node: the ways to splice a node in and out.
import SC7.Base.Links

/-!
# Rings

A ring is a chain that starts and ends at its anchor `h`. `Circular L h l` says that following
`next` from `h` meets the nodes of `l`, in this order, and comes back to `h`, and that `prev`
leads the same way back. A place in the ring is a split `l₁ ++ l₂` of its nodes; the two nodes
around it are `l₁.getLastD h` and `l₂.headD h`, where the anchor stands in for a missing one.
-/

namespace Links

variable {α : Type*}

/-- The nodes `l` form a ring with the anchor `h`. -/
structure Circular (L : Links α) (h : α) (l : List α) : Prop where
  linked : L.Linked (h :: (l ++ [h]))
  nodup : (h :: l).Nodup

namespace Circular

variable {L L' : Links α} {h v a e x : α} {l l₁ l₂ : List α}

/-- An anchor linked to itself is an empty ring. -/
theorem nil (hnext : L.next h = h) (hprev : L.prev h = h) : Circular L h [] where
  linked := Links.linked_cons_cons.mpr ⟨⟨hnext, hprev⟩, Links.linked_singleton L h⟩
  nodup := List.nodup_singleton h

/-- Frame: a ring only reads the links of its own nodes. -/
theorem congr (hr : Circular L h l) (hnext : ∀ x ∈ h :: l, L'.next x = L.next x)
    (hprev : ∀ x ∈ h :: l, L'.prev x = L.prev x) : Circular L' h l where
  linked := by
    apply hr.linked.congr
    · intro x hx
      rw [← List.cons_append, List.dropLast_concat] at hx
      exact hnext x hx
    · intro y hy
      rw [List.tail_cons, List.mem_append, List.mem_singleton] at hy
      exact hprev y (List.mem_cons.mpr hy.symm)
  nodup := hr.nodup

theorem getLastD_append (h : α) (l₁ : List α) : ∃ as, h :: l₁ = as ++ [l₁.getLastD h] := by
  refine ⟨(h :: l₁).dropLast, ?_⟩
  rw [← List.getLast_eq_getLastD (by simp), List.dropLast_append_getLast]

theorem headD_cons (h : α) (l₂ : List α) : ∃ bs, l₂ ++ [h] = l₂.headD h :: bs := by
  cases l₂ with
  | nil => exact ⟨[], rfl⟩
  | cons b bs => exact ⟨bs ++ [h], rfl⟩

/-- The chain of a ring, split at one of its places. -/
theorem gap (hr : Circular L h (l₁ ++ l₂)) :
    ∃ as bs, h :: (l₁ ++ l₂ ++ [h]) = as ++ l₁.getLastD h :: l₂.headD h :: bs ∧
      h :: l₁ = as ++ [l₁.getLastD h] ∧ l₂ ++ [h] = l₂.headD h :: bs ∧
      (as ++ l₁.getLastD h :: l₂.headD h :: bs).dropLast.Nodup ∧
      (as ++ l₁.getLastD h :: l₂.headD h :: bs).tail.Nodup := by
  obtain ⟨as, has⟩ := getLastD_append h l₁
  obtain ⟨bs, hbs⟩ := headD_cons h l₂
  have heq : h :: (l₁ ++ l₂ ++ [h]) = as ++ l₁.getLastD h :: l₂.headD h :: bs := by
    calc h :: (l₁ ++ l₂ ++ [h]) = (h :: l₁) ++ (l₂ ++ [h]) := by simp
      _ = as ++ l₁.getLastD h :: l₂.headD h :: bs := by rw [has, hbs]; simp
  refine ⟨as, bs, heq, has, hbs, ?_, ?_⟩
  · rw [← heq, ← List.cons_append, List.dropLast_concat]
    exact hr.nodup
  · rw [← heq, List.tail_cons]
    exact (List.perm_append_singleton h (l₁ ++ l₂)).nodup_iff.mpr hr.nodup

/-- The two nodes around a place are linked to each other. -/
theorem adjacent (hr : Circular L h (l₁ ++ l₂)) :
    L.next (l₁.getLastD h) = l₂.headD h ∧ L.prev (l₂.headD h) = l₁.getLastD h := by
  obtain ⟨as, bs, heq, -⟩ := hr.gap
  have hl := hr.linked
  rw [heq] at hl
  exact (Links.linked_append_cons_cons.mp hl).2.1

theorem adjacent_head (hr : Circular L h l) : L.next h = l.headD h ∧ L.prev (l.headD h) = h := by
  have hr' : Circular L h ([] ++ l) := hr
  exact hr'.adjacent

theorem next_head (hr : Circular L h l) : L.next h = l.headD h := hr.adjacent_head.1

theorem next_mem (hr : Circular L h (l₁ ++ v :: l₂)) : L.next v = l₂.headD h := by
  have hr' : Circular L h ((l₁ ++ [v]) ++ l₂) := by simpa using hr
  simpa using hr'.adjacent.1

theorem prev_mem (hr : Circular L h (l₁ ++ v :: l₂)) : L.prev v = l₁.getLastD h := hr.adjacent.2

theorem headD_mem (h : α) (l₂ : List α) : l₂.headD h ∈ h :: l₂ := by
  cases l₂ <;> simp

theorem getLastD_mem (h : α) (l₁ : List α) : l₁.getLastD h ∈ h :: l₁ := by
  rw [← List.getLast_eq_getLastD (by simp)]
  exact List.getLast_mem _

theorem next_mem_ring (hr : Circular L h l) (hx : x ∈ h :: l) : L.next x ∈ h :: l := by
  rcases List.mem_cons.mp hx with rfl | hx
  · rw [hr.next_head]
    exact headD_mem _ _
  · obtain ⟨l₁, l₂, rfl⟩ := List.append_of_mem hx
    rw [hr.next_mem]
    have := headD_mem h l₂
    simp only [List.mem_cons, List.mem_append] at this ⊢
    tauto

/-- `x.next.prev = x` and `x.prev.next = x`, for the anchor too. -/
theorem prev_next (hr : Circular L h l) (hx : x ∈ h :: l) :
    L.prev (L.next x) = x ∧ L.next (L.prev x) = x := by
  rcases List.mem_cons.mp hx with rfl | hx
  · have hfront := hr.adjacent_head
    have hr' : Circular L x (l ++ []) := by simpa using hr
    have hback := hr'.adjacent
    simp only [List.headD_nil] at hback
    exact ⟨by rw [hfront.1, hfront.2], by rw [hback.2, hback.1]⟩
  · obtain ⟨l₁, l₂, rfl⟩ := List.append_of_mem hx
    have hr' : Circular L h ((l₁ ++ [x]) ++ l₂) := by simpa using hr
    constructor
    · rw [hr.next_mem, hr'.adjacent.2]
      simp
    · rw [hr.prev_mem]
      exact hr.adjacent.1

/-- The only node whose `next` is a given node of the ring is the one before it. -/
theorem eq_prev_of_next_eq (hr : Circular L h (l₁ ++ v :: l₂)) (hx : x ∈ h :: (l₁ ++ v :: l₂))
    (hnext : L.next x = v) : x = l₁.getLastD h := by
  rw [← hr.prev_mem, ← hnext, (hr.prev_next hx).1]

theorem anchor_not_mem (hr : Circular L h l) : h ∉ l := (List.nodup_cons.mp hr.nodup).1

variable [DecidableEq α]

/-- Walking from the anchor computes the nodes. -/
theorem walk_eq (hr : Circular L h l) {fuel : Nat} (hfuel : l.length ≤ fuel) :
    L.walk h fuel (L.next h) = some l :=
  hr.linked.walk_eq hr.anchor_not_mem hfuel

/-- Searching from the anchor finds the first node. -/
theorem seek_next (hr : Circular L h l) (p : α → Bool) {fuel : Nat} (hfuel : l.length < fuel) :
    seek L.next h p fuel (L.next h) = some (l.find? p) := by
  suffices hgo : ∀ (l₂ l₁ : List α) (fuel : Nat), Circular L h (l₁ ++ l₂) → l₂.length < fuel →
      seek L.next h p fuel (l₂.headD h) = some (l₂.find? p) by
    rw [hr.next_head]
    exact hgo l [] fuel hr hfuel
  intro l₂
  induction l₂ with
  | nil =>
    intro l₁ fuel _ hfuel
    cases fuel with
    | zero => simp at hfuel
    | succ fuel => simp [seek]
  | cons x l₂ ih =>
    intro l₁ fuel hr hfuel
    cases fuel with
    | zero => simp at hfuel
    | succ fuel =>
      have hx : x ≠ h := fun heq => hr.anchor_not_mem (by simp [heq])
      rw [List.headD_cons, seek, if_neg hx]
      by_cases hp : p x = true
      · rw [if_pos hp, List.find?_cons_of_pos hp]
      · have hr' : Circular L h ((l₁ ++ [x]) ++ l₂) := by simpa using hr
        rw [if_neg hp, hr.next_mem, ih (l₁ ++ [x]) fuel hr' (by simpa using hfuel), List.find?_cons_of_neg hp]

omit [DecidableEq α] in
/-- A ring read backwards. -/
theorem flip (hr : Circular L h l) : Circular L.flip h l.reverse where
  linked := by
    have hrev : h :: (l.reverse ++ [h]) = (h :: (l ++ [h])).reverse := by simp
    rw [hrev, Linked, List.isChain_reverse]
    exact hr.linked.imp fun x y hxy => ⟨hxy.2, hxy.1⟩
  nodup := by
    have hperm : (h :: l.reverse).Perm (h :: l) := (List.reverse_perm l).cons h
    exact hperm.nodup_iff.mpr hr.nodup

/-- Searching backwards from the anchor finds the last node. -/
theorem seek_prev (hr : Circular L h l) (p : α → Bool) {fuel : Nat} (hfuel : l.length < fuel) :
    seek L.prev h p fuel (L.prev h) = some (l.reverse.find? p) :=
  hr.flip.seek_next p (by simpa using hfuel)

omit [DecidableEq α] in
private theorem nodup_insert (hr : Circular L h (l₁ ++ l₂)) (he : e ∉ h :: (l₁ ++ l₂)) :
    (h :: (l₁ ++ e :: l₂)).Nodup := by
  have hperm : (h :: (l₁ ++ e :: l₂)).Perm (e :: h :: (l₁ ++ l₂)) :=
    (List.perm_middle.cons h).trans (List.Perm.swap _ _ _)
  exact hperm.nodup_iff.mpr (List.nodup_cons.mpr ⟨he, hr.nodup⟩)

/-- A node whose links are set like this stands at the place between `l₁` and `l₂`. -/
theorem splice (hr : Circular L h (l₁ ++ l₂)) (he : e ∉ h :: (l₁ ++ l₂))
    (hnext : ∀ z, L'.next z =
      if z = l₁.getLastD h then e else if z = e then l₂.headD h else L.next z)
    (hprev : ∀ z, L'.prev z =
      if z = l₂.headD h then e else if z = e then l₁.getLastD h else L.prev z) :
    Circular L' h (l₁ ++ e :: l₂) where
  linked := by
    obtain ⟨as, bs, heq, has, hbs, hnd₁, hnd₂⟩ := hr.gap
    have hl := hr.linked
    rw [heq] at hl
    have he' : e ∉ as ++ l₁.getLastD h :: l₂.headD h :: bs := by
      rw [← heq]
      simp only [List.mem_cons, List.mem_append, not_or, List.not_mem_nil] at he ⊢
      tauto
    have hsplice := hl.splice hnd₁ hnd₂ he' hnext hprev
    have heq' : h :: (l₁ ++ e :: l₂ ++ [h]) = as ++ l₁.getLastD h :: e :: l₂.headD h :: bs := by
      calc h :: (l₁ ++ e :: l₂ ++ [h]) = (h :: l₁) ++ e :: (l₂ ++ [h]) := by simp
        _ = as ++ l₁.getLastD h :: e :: l₂.headD h :: bs := by rw [has, hbs]; simp
    rw [heq']
    exact hsplice
  nodup := hr.nodup_insert he

omit [DecidableEq α] in
private theorem ne_of_not_mem (he : e ∉ h :: (l₁ ++ l₂)) : e ≠ l₁.getLastD h ∧ e ≠ l₂.headD h := by
  have hfirst := headD_mem h l₂
  have hlast := getLastD_mem h l₁
  constructor
  · intro heq
    rw [← heq] at hlast
    exact he (by simp only [List.mem_cons, List.mem_append] at hlast ⊢; tauto)
  · intro heq
    rw [← heq] at hfirst
    exact he (by simp only [List.mem_cons, List.mem_append] at hfirst ⊢; tauto)

theorem insertBefore (hr : Circular L h (l₁ ++ l₂)) (he : e ∉ h :: (l₁ ++ l₂)) :
    Circular (L.insertBefore (l₂.headD h) e) h (l₁ ++ e :: l₂) := by
  have hadj := hr.adjacent
  obtain ⟨-, hne⟩ := ne_of_not_mem he
  refine hr.splice he ?_ ?_
  · intro z
    simp only [Links.insertBefore, Links.setPrev_next, Links.setNext_next, Links.setNext_prev,
      Links.setPrev_prev, if_neg (Ne.symm hne), hadj.2]
  · intro z
    simp only [Links.insertBefore, Links.setPrev_prev, Links.setNext_prev, hadj.2]

theorem insertAfter (hr : Circular L h (l₁ ++ a :: l₂)) (he : e ∉ h :: (l₁ ++ a :: l₂)) :
    Circular (L.insertAfter a e) h (l₁ ++ a :: e :: l₂) := by
  have hr' : Circular L h ((l₁ ++ [a]) ++ l₂) := by simpa using hr
  have hea : a ≠ e := by
    rintro rfl
    exact he (by simp)
  have hnext := hr.next_mem
  have hring : Circular (L.insertAfter a e) h ((l₁ ++ [a]) ++ e :: l₂) := by
    refine hr'.splice (by simpa using he) ?_ ?_
    · intro z
      simp only [Links.insertAfter, Links.setPrev_next, Links.setNext_next, if_neg hea, hnext,
        List.getLastD_concat]
    · intro z
      simp only [Links.insertAfter, Links.setPrev_prev, Links.setNext_prev, Links.setPrev_next,
        Links.setNext_next, if_neg hea, hnext, List.getLastD_concat]
  simpa using hring

/-- A new node after the anchor is the first one. -/
theorem pushFront (hr : Circular L h l) (he : e ∉ h :: l) : Circular (L.insertAfter h e) h (e :: l) := by
  have hr' : Circular L h ([] ++ l) := hr
  have heh : h ≠ e := by
    rintro rfl
    exact he (by simp)
  refine hr'.splice he ?_ ?_
  · intro z
    simp only [Links.insertAfter, Links.setPrev_next, Links.setNext_next, if_neg heh, hr.next_head]
    rfl
  · intro z
    simp only [Links.insertAfter, Links.setPrev_prev, Links.setNext_prev, Links.setPrev_next, Links.setNext_next,
      if_neg heh, hr.next_head]
    rfl

/-- Unlinking a node leaves the ring of the others. -/
theorem unlink (hr : Circular L h (l₁ ++ v :: l₂)) : Circular (L.unlink v) h (l₁ ++ l₂) where
  linked := by
    obtain ⟨as, has⟩ := getLastD_append h l₁
    obtain ⟨bs, hbs⟩ := headD_cons h l₂
    have heq : h :: (l₁ ++ v :: l₂ ++ [h]) = as ++ l₁.getLastD h :: v :: l₂.headD h :: bs := by
      calc h :: (l₁ ++ v :: l₂ ++ [h]) = (h :: l₁) ++ v :: (l₂ ++ [h]) := by simp
        _ = as ++ l₁.getLastD h :: v :: l₂.headD h :: bs := by rw [has, hbs]; simp
    have heq' : h :: (l₁ ++ l₂ ++ [h]) = as ++ l₁.getLastD h :: l₂.headD h :: bs := by
      calc h :: (l₁ ++ l₂ ++ [h]) = (h :: l₁) ++ (l₂ ++ [h]) := by simp
        _ = as ++ l₁.getLastD h :: l₂.headD h :: bs := by rw [has, hbs]; simp
    have hl := hr.linked
    rw [heq] at hl
    rw [heq']
    apply hl.unlink
    · rw [← heq, ← List.cons_append, List.dropLast_concat]
      exact hr.nodup
    · rw [← heq, List.tail_cons]
      exact (List.perm_append_singleton h (l₁ ++ v :: l₂)).nodup_iff.mpr hr.nodup
  nodup := hr.nodup.sublist
    (List.Sublist.cons_cons _ ((List.Sublist.refl _).append (List.sublist_cons_self _ _)))

/-- An unlinked node still names the two nodes it stood between. -/
theorem unlink_self (hr : Circular L h (l₁ ++ v :: l₂)) :
    (L.unlink v).prev v = l₁.getLastD h ∧ (L.unlink v).next v = l₂.headD h := by
  have hv : v ∉ h :: (l₁ ++ l₂) := by
    have hperm : (h :: (l₁ ++ v :: l₂)).Perm (v :: h :: (l₁ ++ l₂)) :=
      (List.perm_middle.cons h).trans (List.Perm.swap _ _ _)
    exact (List.nodup_cons.mp (hperm.nodup_iff.mp hr.nodup)).1
  obtain ⟨hlast, hfirst⟩ := ne_of_not_mem hv
  have hp := hr.prev_mem
  have hn := hr.next_mem
  simp only [Links.unlink, Links.setPrev_prev, Links.setPrev_next, Links.setNext_next,
    Links.setNext_prev, hp, hn, if_neg hlast, if_neg hfirst, and_self]

/-- A new node takes the place that an unlinked node left. -/
theorem takePlace (hr : Circular L h (l₁ ++ l₂)) (he : e ∉ h :: (l₁ ++ l₂)) (hev : e ≠ v)
    (hprev : L.prev v = l₁.getLastD h) (hnext : L.next v = l₂.headD h)
    (hv : v ∉ h :: (l₁ ++ l₂)) :
    Circular (L.takePlace v e) h (l₁ ++ e :: l₂) := by
  obtain ⟨hlast, -⟩ := ne_of_not_mem hv
  refine hr.splice he ?_ ?_
  · intro z
    simp only [Links.takePlace, Links.setPrev_next, Links.setNext_next, Links.setNext_prev,
      Links.setPrev_prev, if_neg (Ne.symm hev), hprev, hnext]
  · intro z
    simp only [Links.takePlace, Links.setPrev_prev, Links.setNext_prev, Links.setPrev_next,
      Links.setNext_next, if_neg (Ne.symm hev), hprev, hnext, if_neg hlast]

end Circular

end Links
