-- SUMMARY: What each VMA routine does to the sequence of areas that a list holds.
import SC7.Mem.VmaSplice

/-!
# The areas of a list

Read from front to back, a VMA list is a sequence of areas. Each routine acts on that sequence area
by area: `munmap` and `free_vma` replace an area by what is left of it, `alloc_vma` inserts one,
`vma_copy` repeats the sequence. The sequence stays sorted because what is left of an area lies
inside it.
-/

namespace SC7

open Function (update update_of_ne update_self)
open Links (AgreeOff)

/-! ## Sequences of areas -/

namespace Vma

/-- What lies on the two sides of a range. -/
def pieces (start end_ : Nat) (v : Vma) : List Vma :=
  (if v.addr < start then [v.front start] else []) ++ (if v.end_ > end_ then [v.back end_] else [])

/-- What `munmap` leaves of an area. -/
def unmap (start end_ : Nat) (v : Vma) : List Vma :=
  if v.end_ > start ∧ v.addr ≤ end_ then
    if v.addr ≥ start ∧ v.end_ ≤ end_ then
      if v.refCount > 1 then [{ v with refCount := v.refCount - 1 }] else []
    else v.pieces start end_
  else [v]

/-- The overlap test of `munmap`. -/
def Touched (start end_ : Nat) (v : Vma) : Prop := v.end_ > start ∧ v.addr ≤ end_

/-- An area in the range that `munmap` keeps because a thread holds on to it. -/
def Held (start end_ : Nat) (v : Vma) : Prop :=
  v.Touched start end_ ∧ (v.addr ≥ start ∧ v.end_ ≤ end_) ∧ v.refCount > 1

instance (start end_ : Nat) (v : Vma) : Decidable (v.Touched start end_) :=
  inferInstanceAs (Decidable (_ ∧ _))

instance (start end_ : Nat) (v : Vma) : Decidable (v.Held start end_) :=
  inferInstanceAs (Decidable (_ ∧ _))

/-- What `free_vma` leaves of an area. -/
def release (start end_ : Nat) (v : Vma) : List Vma :=
  if v.end_ > start ∧ v.addr < end_ then
    if v.addr ≥ start ∧ v.end_ ≤ end_ then [] else v.pieces start end_
  else [v]

/-- The bounds of an area are in order, below `2 ^ 64`, and no further apart than an `int64`
length allows. -/
structure Ok (v : Vma) : Prop where
  le : v.addr ≤ v.end_
  lt : v.end_ < 2 ^ 64
  len : v.end_ ≤ v.addr + 2 ^ 63

/-- `w` lies inside `v`. -/
def Within (w v : Vma) : Prop := v.addr ≤ w.addr ∧ w.end_ ≤ v.end_

/-- Each area is well formed and ends before the next ones start. -/
def Sorted (vs : List Vma) : Prop := vs.Pairwise (fun v w => v.end_ ≤ w.addr) ∧ ∀ v ∈ vs, v.Ok

/-- A range whose end did not wrap, or wrapped so far that no area can overlap it. -/
def Apart (start end_ : Nat) : Prop := start ≤ end_ ∨ end_ + 2 ^ 63 < start

variable {v w : Vma} {vs ws : List Vma} {start end_ : Nat}

theorem sorted_singleton (h : v.Ok) : Sorted [v] := ⟨List.pairwise_singleton _ _, by simpa using h⟩

/-- Replacing every area by areas inside it keeps the sequence sorted. -/
theorem Sorted.flatMap {f : Vma → List Vma} (h : Sorted vs)
    (hf : ∀ v ∈ vs, Sorted (f v) ∧ ∀ w ∈ f v, w.Within v) : Sorted (vs.flatMap f) := by
  refine ⟨?_, ?_⟩
  · rw [List.pairwise_flatMap]
    refine ⟨fun v hv => (hf v hv).1.1, ?_⟩
    refine h.1.imp_of_mem ?_
    intro v w hv hw hvw x hx y hy
    have hxv := (hf v hv).2 x hx
    have hyw := (hf w hw).2 y hy
    exact (hxv.2.trans hvw).trans hyw.1
  · intro w hw
    obtain ⟨v, hv, hw⟩ := List.mem_flatMap.mp hw
    exact (hf v hv).1.2 w hw

/-- The two sides of a range that overlaps the area are in order and inside it. -/
theorem Ok.pieces (h : v.Ok) (hle : start ≤ end_) (hend : v.end_ > start) (haddr : v.addr ≤ end_) :
    Sorted (v.pieces start end_) ∧ ∀ w ∈ v.pieces start end_, w.Within v := by
  obtain ⟨h₁, h₂, h₃⟩ := h
  have hfront : v.addr < start → (v.front start).Ok ∧ (v.front start).Within v := by
    intro hs
    exact ⟨⟨hs.le, by simp only [front]; omega, by simp only [front]; omega⟩, le_refl _, hend.le⟩
  have hback : v.end_ > end_ → (v.back end_).Ok ∧ (v.back end_).Within v := by
    intro he
    exact ⟨⟨he.le, h₂, by simp only [back]; omega⟩, haddr, le_refl _⟩
  unfold Vma.pieces
  split
  · rename_i hs
    obtain ⟨hfo, hfw⟩ := hfront hs
    split
    · rename_i he
      obtain ⟨hbo, hbw⟩ := hback he
      refine ⟨⟨?_, ?_⟩, ?_⟩
      · simpa [front, back] using hle
      · simp [hfo, hbo]
      · simp [hfw, hbw]
    · exact ⟨sorted_singleton hfo, by simp [hfw]⟩
  · split
    · rename_i he
      obtain ⟨hbo, hbw⟩ := hback he
      exact ⟨sorted_singleton hbo, by simp [hbw]⟩
    · exact ⟨⟨List.Pairwise.nil, by simp⟩, by simp⟩

theorem mem_pieces : w ∈ v.pieces start end_ ↔
    (v.addr < start ∧ w = v.front start) ∨ (v.end_ > end_ ∧ w = v.back end_) := by
  unfold pieces
  rw [List.mem_append]
  refine or_congr ?_ ?_ <;> split <;> simp_all

theorem unmap_held (h : v.Held start end_) :
    v.unmap start end_ = [{ v with refCount := v.refCount - 1 }] := by
  obtain ⟨⟨hend, haddr⟩, hin, href⟩ := h
  rw [Vma.unmap, if_pos ⟨hend, haddr⟩, if_pos hin, if_pos href]

theorem unmap_touched (h : v.Touched start end_) (hn : ¬v.Held start end_)
    (hw : w ∈ v.unmap start end_) : w ∈ v.pieces start end_ := by
  obtain ⟨hend, haddr⟩ := h
  rw [Vma.unmap, if_pos ⟨hend, haddr⟩] at hw
  split at hw
  · rename_i hin
    rw [if_neg fun href => hn ⟨⟨hend, haddr⟩, hin, href⟩] at hw
    cases hw
  · exact hw

theorem unmap_untouched (h : ¬v.Touched start end_) : v.unmap start end_ = [v] := if_neg h

theorem Ok.unmap (h : v.Ok) (hr : Apart start end_) :
    Sorted (v.unmap start end_) ∧ ∀ w ∈ v.unmap start end_, w.Within v := by
  have hself : v.Within v := ⟨le_refl _, le_refl _⟩
  unfold Vma.unmap
  split
  · rename_i hov
    split
    · split
      · refine ⟨sorted_singleton ⟨h.le, h.lt, h.len⟩, ?_⟩
        simp [Within]
      · exact ⟨⟨List.Pairwise.nil, by simp⟩, by simp⟩
    · have hle : start ≤ end_ := by
        rcases hr with hr | hr
        · exact hr
        · have := h.len
          omega
      exact h.pieces hle hov.1 hov.2
  · exact ⟨sorted_singleton h, by simpa using hself⟩

theorem Ok.release (h : v.Ok) (hle : start ≤ end_) :
    Sorted (v.release start end_) ∧ ∀ w ∈ v.release start end_, w.Within v := by
  have hself : v.Within v := ⟨le_refl _, le_refl _⟩
  unfold Vma.release
  split
  · rename_i hov
    split
    · exact ⟨⟨List.Pairwise.nil, by simp⟩, by simp⟩
    · exact h.pieces hle hov.1 hov.2.le
  · exact ⟨sorted_singleton h, by simpa using hself⟩

/-- An area between two parts of a sorted sequence. -/
theorem Sorted.insert (h : Sorted (vs ++ ws)) (hw : w.Ok) (hbefore : ∀ v ∈ vs, v.end_ ≤ w.addr)
    (hafter : ∀ v ∈ ws, w.end_ ≤ v.addr) : Sorted (vs ++ w :: ws) := by
  obtain ⟨hpw, hok⟩ := h
  obtain ⟨hvs, hws, hcross⟩ := List.pairwise_append.mp hpw
  refine ⟨List.pairwise_append.mpr ⟨hvs, List.pairwise_cons.mpr ⟨hafter, hws⟩, ?_⟩, ?_⟩
  · intro a ha b hb
    rcases List.mem_cons.mp hb with rfl | hb
    · exact hbefore a ha
    · exact hcross a ha b hb
  · intro a ha
    rcases List.mem_append.mp ha with ha | ha
    · exact hok a (List.mem_append_left _ ha)
    · rcases List.mem_cons.mp ha with rfl | ha
      · exact hw
      · exact hok a (List.mem_append_right _ ha)

end Vma

/-! ## `munmap` -/

namespace VmaMem

variable {ops : PageOps} {s s' : VmaMem} {fuel pid start end_ h v n : Nat} {l l' l₁ l₂ : List Nat} {len r : Int}

/-- A routine replaced the node `v` of the list by the nodes `mid`. -/
structure Replaced (s s' : VmaMem) (h : Nat) (l₁ : List Nat) (v : Nat) (l₂ mid : List Nat) :
    Prop where
  owns : s'.Owns h (l₁ ++ mid ++ l₂) []
  moved : Moved s s' (owned h (l₁ ++ v :: l₂) []) (owned h (l₁ ++ mid ++ l₂) [])
  node : ∀ x ∈ l₁ ++ l₂, s'.node x = s.node x

/-- The walk along the attach list writes at most the `next` of a page that points to `vma`. -/
theorem detach_spec (hd : s.detach fuel v = some s') :
    s'.node = s.node ∧ s'.used = s.used ∧ s'.head = s.head ∧
      (s'.links = s.links ∨ ∃ c, s.links.next c = v ∧ s'.links = s.links.setNext c (s.links.next v)) := by
  unfold detach at hd
  simp only at hd
  split at hd
  · cases hd
    exact ⟨rfl, rfl, rfl, .inl rfl⟩
  · split at hd
    · cases hd
      exact ⟨rfl, rfl, rfl, .inl rfl⟩
    · obtain ⟨c, -, hc⟩ := Option.map_eq_some_iff.mp hd
      split at hc
      · rename_i hcv
        subst hc
        exact ⟨rfl, rfl, rfl, .inr ⟨c, hcv.2, rfl⟩⟩
      · subst hc
        exact ⟨rfl, rfl, rfl, .inl rfl⟩

/-- A write to a page that holds no VMA is nobody's business. -/
theorem Owns.stray {c y : Nat} (ho : s.Owns h l []) (hc : s.used c = false)
    (hnode : s'.node = s.node) (hused : s'.used = s.used) (hhead : s'.head = s.head)
    (hlinks : s'.links = s.links.setNext c y) :
    s'.Owns h l [] ∧ Moved s s' (owned h l []) (owned h l []) := by
  have hne : ∀ x, s.used x = true → x ≠ c := by
    rintro x hx rfl
    rw [hx] at hc
    cases hc
  have hused' : ∀ x ∈ owned h l [], s'.used x = true := by
    rw [hused]
    exact ho.used
  refine ⟨⟨?_, ho.nodup, hused'⟩, ⟨?_, ?_, fun _ hx => .inl hx, hused', hhead⟩⟩
  · rw [hlinks]
    apply ho.circular.congr
    · intro x hx
      rw [Links.setNext_next, if_neg (hne x (ho.used x (ho.mem_circular hx)))]
    · intro x _
      rfl
  · intro x hx _
    rw [hused, hnode, hlinks, Links.setNext_next, if_neg (hne x hx)]
    exact ⟨hx, rfl, rfl, rfl⟩
  · rw [hused]
    exact ho.moved_refl.back

/-- Setting the `next` of the node before `v` ahead of time changes nothing. -/
theorem unlink_setNext_prev {L : Links Nat} (hr : L.Circular h (l₁ ++ v :: l₂)) :
    (L.setNext (l₁.getLastD h) (L.next v)).unlink v = L.unlink v := by
  have hp := hr.prev_mem
  have hne : v ≠ l₁.getLastD h := by
    intro heq
    have hmem := Links.Circular.getLastD_mem h l₁
    rw [← heq] at hmem
    have hperm : (h :: (l₁ ++ v :: l₂)).Perm (v :: h :: (l₁ ++ l₂)) :=
      (List.perm_middle.cons h).trans (List.Perm.swap _ _ _)
    refine (List.nodup_cons.mp (hperm.nodup_iff.mp hr.nodup)).1 ?_
    simp only [List.mem_cons, List.mem_append] at hmem ⊢
    tauto
  simp only [Links.unlink, Links.setNext_prev, Links.setNext_next, hp, if_neg hne]
  simp only [Links.setNext, Links.setPrev, Function.update_idem]

section Whole

variable (ho : s.Owns h (l₁ ++ v :: l₂) [])

include ho

/-- Unlinking a node and freeing its page. -/
theorem Owns.remove : Replaced s ((s.setLinks (s.links.unlink v)).freePage v) h l₁ v l₂ [] := by
  obtain ⟨ho₁, hm₁⟩ := ho.unlink
  obtain ⟨ho₂, hm₂⟩ := ho₁.free
  rw [← List.append_nil l₁, List.append_assoc] at ho₂ hm₂
  exact ⟨by simpa using ho₂, by simpa using hm₁.trans hm₂, fun _ _ => rfl⟩

/-- A shared VMA leaves the list even though the attach list is walked first. -/
theorem Owns.detach_remove (hc : s.Closed (owned h (l₁ ++ v :: l₂) [])) (hd : s.detach fuel v = some s') :
    Replaced s ((s'.setLinks (s'.links.unlink v)).freePage v) h l₁ v l₂ [] := by
  obtain ⟨hnode, hused, hhead, hlinks | ⟨c, hcv, hlinks⟩⟩ := detach_spec hd
  · obtain ⟨ho', hm'⟩ := ho.congr hlinks hused hnode hhead
    have hr := ho'.remove
    exact ⟨hr.owns, hm'.trans hr.moved, fun x hx => (hr.node x hx).trans (by rw [hnode])⟩
  · by_cases hmem : c ∈ owned h (l₁ ++ v :: l₂) []
    · -- the page is the node before `v`: the same assignment is made again by the unlinking
      have hcp : c = l₁.getLastD h := ho.circular.eq_prev_of_next_eq (by simpa using hmem) hcv
      have heq : s'.links.unlink v = s.links.unlink v := by
        rw [hlinks, hcp]
        exact unlink_setNext_prev ho.circular
      have hr := ho.remove
      have hcongr : ((s'.setLinks (s'.links.unlink v)).freePage v).Owns h (l₁ ++ [] ++ l₂) [] ∧ _ :=
        hr.owns.congr (by simp only [freePage, setLinks, heq]) (by simp only [freePage, setLinks, hused])
          (by simp only [freePage, setLinks, hnode]) (by simp only [freePage, setLinks, hhead])
      exact ⟨hcongr.1, hr.moved.trans hcongr.2, fun x _ => by simp only [freePage, setLinks, hnode]⟩
    · -- any other page that points to `v` holds no VMA
      have hfree : s.used c = false := by
        cases hs : s.used c with
        | false => rfl
        | true =>
          have := (hc c hs hmem).2
          rw [hcv] at this
          exact absurd (by simp) this
      obtain ⟨ho', hm'⟩ := ho.stray hfree hnode hused hhead hlinks
      have hr := ho'.remove
      exact ⟨hr.owns, hm'.trans hr.moved, fun x hx => (hr.node x hx).trans (by rw [hnode])⟩

theorem Owns.not_mem_rest : v ∉ l₁ ++ l₂ := by
  have hperm : (h :: (l₁ ++ v :: l₂)).Perm (v :: h :: (l₁ ++ l₂)) :=
    (List.perm_middle.cons h).trans (List.Perm.swap _ _ _)
  intro hmem
  exact (List.nodup_cons.mp (hperm.nodup_iff.mp ho.circular.nodup)).1 (List.mem_cons_of_mem _ hmem)

/-- Case 1: the area is dropped, or loses one of its references. -/
theorem munmapWhole_spec (hc : s.Closed (owned h (l₁ ++ v :: l₂) [])) (hr : munmapWhole ops s fuel pid v = some s') :
    ((s.node v).refCount > 1 ∧ Replaced s s' h l₁ v l₂ [v] ∧
        s'.node v = { s.node v with refCount := (s.node v).refCount - 1 }) ∨
      (¬(s.node v).refCount > 1 ∧ Replaced s s' h l₁ v l₂ []) := by
  unfold munmapWhole at hr
  simp only at hr
  split at hr
  · rename_i href
    cases hr
    have hv : v ∈ owned h (l₁ ++ v :: l₂) [] := by simp
    obtain ⟨ho', hm'⟩ := ho.write hv { s.node v with refCount := (s.node v).refCount - 1 }
    refine .inl ⟨href, ⟨by simpa using ho', by simpa using hm', ?_⟩, by simp [setNode]⟩
    intro x hx
    have hne : x ≠ v := by
      rintro rfl
      exact ho.not_mem_rest hx
    simp only [setNode, update_of_ne hne]
  · rename_i href
    obtain ⟨s₁, hs₁, rfl⟩ := Option.map_eq_some_iff.mp hr
    refine .inr ⟨href, ?_⟩
    split at hs₁
    · split at hs₁
      · split at hs₁
        · cases hs₁
          exact ho.remove
        · exact ho.detach_remove hc hs₁
      · cases hs₁
    · split at hs₁
      · cases hs₁
        exact ho.remove
      · cases hs₁

end Whole

/-- A new node takes the place of the unlinked `v`, and `v` still names its old neighbours. -/
theorem Owns.clone_takePlace {e : Nat} {f : Vma → Vma} {s₁ : VmaMem}
    (ho : s.Owns h (l₁ ++ l₂) [v]) (hprev : s.links.prev v = l₁.getLastD h)
    (hnext : s.links.next v = l₂.headD h) (hcl : s.cloneVma v f = some (e, s₁)) :
    (s₁.setLinks (s₁.links.takePlace v e)).Owns h (l₁ ++ e :: l₂) [v] ∧
      Moved s (s₁.setLinks (s₁.links.takePlace v e)) (owned h (l₁ ++ l₂) [v])
        (owned h (l₁ ++ e :: l₂) [v]) ∧
      e ∉ owned h (l₁ ++ l₂) [v] ∧
      (s₁.setLinks (s₁.links.takePlace v e)).node = update s.node e (f (s.node v)) ∧
      (s₁.setLinks (s₁.links.takePlace v e)).links.prev v = l₁.getLastD h := by
  obtain ⟨ho₁, hm₁, hnew, hnode, hagree⟩ := ho.clone hcl
  have hve : v ∉ [e] := by
    intro hmem
    rw [List.mem_singleton] at hmem
    exact hnew (by simp [← hmem])
  obtain ⟨hn, hp⟩ := hagree v hve
  rw [hprev] at hp
  rw [hnext] at hn
  obtain ⟨ho₂, hm₂⟩ := ho₁.takePlace hp hn
  have hframe : AgreeOff (e :: h :: (l₁ ++ l₂)) s₁.links (s₁.links.takePlace v e) := by
    apply AgreeOff.takePlace (List.mem_cons_self ..)
    · rw [hp]
      have := Links.Circular.getLastD_mem h l₁
      simp only [List.mem_cons, List.mem_append] at this ⊢
      tauto
    · rw [hn]
      have := Links.Circular.headD_mem h l₂
      simp only [List.mem_cons, List.mem_append] at this ⊢
      tauto
  have hv : v ∉ e :: h :: (l₁ ++ l₂) := by
    intro hmem
    rcases List.mem_cons.mp hmem with heq | hmem
    · exact hve (by simp [heq])
    · exact ho.loose_not_mem hmem
  exact ⟨ho₂, hm₁.trans hm₂, hnew, hnode, ((hframe v hv).2).trans hp⟩

/-- The front part, if there is one, stands where `v` was. -/
theorem insertFront_spec (ho : s.Owns h (l₁ ++ l₂) [v]) (hprev : s.links.prev v = l₁.getLastD h)
    (hnext : s.links.next v = l₂.headD h) (hi : s.insertFront start v = some s') :
    ∃ mid, s'.Owns h (l₁ ++ mid ++ l₂) [v] ∧
      Moved s s' (owned h (l₁ ++ l₂) [v]) (owned h (l₁ ++ mid ++ l₂) [v]) ∧
      (∀ x ∈ owned h (l₁ ++ l₂) [v], s'.node x = s.node x) ∧ s'.links.prev v = l₁.getLastD h ∧
      ((s.node v).addr < start ∧ (∃ e, mid = [e] ∧ s'.node e = (s.node v).front start) ∨
        ¬(s.node v).addr < start ∧ mid = [] ∧ s'.links.next v = l₂.headD h) := by
  unfold insertFront at hi
  split at hi
  · rename_i hs
    obtain ⟨⟨e, s₁⟩, hcl, rfl⟩ := Option.map_eq_some_iff.mp hi
    obtain ⟨ho', hm', hnew, hnode, hp⟩ := ho.clone_takePlace hprev hnext hcl
    refine ⟨[e], by simpa using ho', by simpa using hm', ?_, hp, .inl ⟨hs, e, rfl, ?_⟩⟩
    · intro x hx
      have hne : x ≠ e := fun heq => hnew (heq ▸ hx)
      rw [hnode, update_of_ne hne]
    · rw [hnode, update_self]
  · rename_i hs
    cases hi
    refine ⟨[], by simpa using ho, by simpa using ho.moved_refl, fun _ _ => rfl, hprev, .inr ⟨hs, rfl, hnext⟩⟩

/-- The back part, if there is one, follows the front part or stands where `v` was. -/
theorem insertBack_spec {mid : List Nat} (ho : s.Owns h (l₁ ++ mid ++ l₂) [v])
    (hprev : s.links.prev v = l₁.getLastD h)
    (hmid : (s.node v).addr < start ∧ (∃ e, mid = [e]) ∨
      ¬(s.node v).addr < start ∧ mid = [] ∧ s.links.next v = l₂.headD h)
    (hi : s.insertBack start end_ v = some s') :
    ∃ mid', s'.Owns h (l₁ ++ (mid ++ mid') ++ l₂) [v] ∧
      Moved s s' (owned h (l₁ ++ mid ++ l₂) [v]) (owned h (l₁ ++ (mid ++ mid') ++ l₂) [v]) ∧
      (∀ x ∈ owned h (l₁ ++ mid ++ l₂) [v], s'.node x = s.node x) ∧
      mid'.map s'.node = if (s.node v).end_ > end_ then [(s.node v).back end_] else [] := by
  unfold insertBack at hi
  split at hi
  · rename_i he
    obtain ⟨⟨e, s₁⟩, hcl, hs'⟩ := Option.map_eq_some_iff.mp hi
    obtain ⟨ho₁, hm₁, hnew, hnode, hagree⟩ := ho.clone hcl
    have hkeep : ∀ x ∈ owned h (l₁ ++ mid ++ l₂) [v], s₁.node x = s.node x := by
      intro x hx
      have hne : x ≠ e := fun heq => hnew (heq ▸ hx)
      rw [hnode, update_of_ne hne]
    have hself : s₁.node e = (s.node v).back end_ := by rw [hnode, update_self]
    have hv : s₁.node v = s.node v := hkeep v (by simp)
    refine ⟨[e], ?_⟩
    rw [if_pos he]
    simp only [hv] at hs'
    rcases hmid with ⟨hs, f, rfl⟩ | ⟨hs, rfl, hnext⟩
    · -- `vma->prev->next` is the front part
      rw [if_pos hs] at hs'
      have hve : v ∉ [e] := by
        intro hmem
        exact hnew (by simp [← List.mem_singleton.mp hmem])
      have ho₁' : s₁.Owns h (l₁ ++ f :: l₂) (e :: [v]) := by simpa using ho₁
      have hf : s₁.links.next (s₁.links.prev v) = f := by
        rw [(hagree v hve).2, hprev]
        exact ho₁'.circular.adjacent.1
      rw [hf] at hs'
      subst hs'
      obtain ⟨ho₂, hm₂⟩ := ho₁'.insertAfter
      refine ⟨by simpa using ho₂, ?_, hkeep, by simp [setLinks, hself]⟩
      exact hm₁.trans (by simpa using hm₂)
    · rw [if_neg hs] at hs'
      subst hs'
      have ho₀ : s.Owns h (l₁ ++ l₂) [v] := by simpa using ho
      obtain ⟨ho₂, hm₂, -, -, -⟩ := ho₀.clone_takePlace hprev hnext hcl
      refine ⟨by simpa using ho₂, by simpa using hm₂, hkeep, by simp [setLinks, hself]⟩
  · rename_i he
    cases hi
    exact ⟨[], by simpa using ho, by simpa using ho.moved_refl, fun _ _ => rfl, by rw [if_neg he, List.map_nil]⟩

/-- Case 2: the area is replaced by its two sides. -/
theorem munmapPart_spec (ho : s.Owns h (l₁ ++ v :: l₂) [])
    (hr : munmapPart ops s pid start end_ v = some s') :
    ∃ mid, Replaced s s' h l₁ v l₂ mid ∧ mid.map s'.node = (s.node v).pieces start end_ ∧ v ∉ mid := by
  unfold munmapPart at hr
  simp only at hr
  obtain ⟨s₂, hfront, hr⟩ := Option.bind_eq_some_iff.mp hr
  obtain ⟨s₃, hback, hr⟩ := Option.bind_eq_some_iff.mp hr
  obtain ⟨-, hs'⟩ := Option.ite_none_left_eq_some.mp hr
  cases hs'
  obtain ⟨hprev, hnext⟩ := ho.circular.unlink_self
  obtain ⟨ho₁, hm₁⟩ := ho.unlink
  obtain ⟨mid, ho₂, hm₂, hnode₂, hprev₂, hmid⟩ := insertFront_spec ho₁ hprev hnext hfront
  have hv₂ : s₂.node v = s.node v := hnode₂ v (by simp)
  have hmid' : (s₂.node v).addr < start ∧ (∃ e, mid = [e]) ∨
      ¬(s₂.node v).addr < start ∧ mid = [] ∧ s₂.links.next v = l₂.headD h := by
    rw [hv₂]
    exact hmid.imp (fun ⟨h₁, e, h₂, _⟩ => ⟨h₁, e, h₂⟩) id
  obtain ⟨mid', ho₃, hm₃, hnode₃, hdata⟩ := insertBack_spec ho₂ hprev₂ hmid' hback
  obtain ⟨ho₄, hm₄⟩ := ho₃.free
  have hv₃ : v ∉ mid ++ mid' := by
    intro hmem
    apply ho₃.loose_not_mem
    simp only [List.mem_cons, List.mem_append] at hmem ⊢
    tauto
  refine ⟨mid ++ mid', ⟨ho₄, ((hm₁.trans hm₂).trans hm₃).trans hm₄, ?_⟩, ?_, hv₃⟩
  · intro x hx
    have hx₂ : x ∈ owned h (l₁ ++ mid ++ l₂) [v] := by
      simp only [owned, List.mem_cons, List.mem_append] at hx ⊢
      tauto
    have hx₁ : x ∈ owned h (l₁ ++ l₂) [v] := by
      simp only [owned, List.mem_cons, List.mem_append] at hx ⊢
      tauto
    exact (hnode₃ x hx₂).trans (hnode₂ x hx₁)
  · have hdata' : mid.map s₃.node = if (s.node v).addr < start then [(s.node v).front start] else [] := by
      rcases hmid with ⟨hs, e, rfl, he⟩ | ⟨hs, rfl, -⟩
      · have hs : (s.node v).addr < start := hs
        rw [if_pos hs, List.map_singleton, hnode₃ e (by simp), he]
        rfl
      · have hs : ¬(s.node v).addr < start := hs
        rw [if_neg hs, List.map_nil]
    rw [hv₂] at hdata
    rw [List.map_append, Vma.pieces]
    exact congrArg₂ (· ++ ·) hdata' hdata

/-- One round of `munmap`. The node of the area stays only if the area is held. -/
theorem munmapNode_spec (ho : s.Owns h (l₁ ++ v :: l₂) []) (hc : s.Closed (owned h (l₁ ++ v :: l₂) []))
    (hov : (s.node v).Touched start end_)
    (hr : munmapNode ops s fuel pid start end_ v = some s') :
    ∃ mid, Replaced s s' h l₁ v l₂ mid ∧ mid.map s'.node = (s.node v).unmap start end_ ∧
      ((s.node v).Held start end_ ∧ mid = [v] ∨ ¬(s.node v).Held start end_ ∧ v ∉ mid) := by
  obtain ⟨hend, haddr⟩ := hov
  unfold munmapNode at hr
  unfold Vma.unmap
  rw [if_pos ⟨hend, haddr⟩]
  split at hr
  · rename_i hin
    rw [if_pos hin]
    rcases munmapWhole_spec ho hc hr with ⟨href, hrep, hself⟩ | ⟨href, hrep⟩
    · refine ⟨[v], hrep, ?_, .inl ⟨⟨⟨hend, haddr⟩, hin, href⟩, rfl⟩⟩
      rw [if_pos href, List.map_singleton, hself]
    · refine ⟨[], hrep, ?_, .inr ⟨fun hh => href hh.2.2, List.not_mem_nil⟩⟩
      rw [if_neg href, List.map_nil]
  · rename_i hin
    rw [if_neg hin]
    obtain ⟨mid, hrep, hmid, hv⟩ := munmapPart_spec ho hr
    exact ⟨mid, hrep, hmid, .inr ⟨fun hh => hin hh.2.1, hv⟩⟩

/-! ## Loops over a list -/

/-- A loop that stands after the nodes `l₁` replaced the areas of the rest `l₂` by what `f` leaves
of them. -/
structure Cut (f : Vma → List Vma) (s s' : VmaMem) (h : Nat) (l₁ l₂ l₂' : List Nat) : Prop where
  owns : s'.Owns h (l₁ ++ l₂') []
  moved : Moved s s' (owned h (l₁ ++ l₂) []) (owned h (l₁ ++ l₂') [])
  done : ∀ x ∈ l₁, s'.node x = s.node x
  rest : l₂'.map s'.node = (l₂.map s.node).flatMap f

namespace Cut

variable {f : Vma → List Vma} {s₁ : VmaMem} {l₂' mid : List Nat}

theorem nil (ho : s.Owns h (l₁ ++ []) []) : Cut f s s h l₁ [] [] := ⟨ho, ho.moved_refl, fun _ _ => rfl, rfl⟩

theorem cons (hr : Replaced s s₁ h l₁ v l₂ mid) (hmid : mid.map s₁.node = f (s.node v))
    (hrest : Cut f s₁ s' h (l₁ ++ mid) l₂ l₂') : Cut f s s' h l₁ (v :: l₂) (mid ++ l₂') where
  owns := by simpa using hrest.owns
  moved := hr.moved.trans (by simpa using hrest.moved)
  done := fun x hx => (hrest.done x (List.mem_append_left _ hx)).trans (hr.node x (List.mem_append_left _ hx))
  rest := by
    have hmid' : mid.map s'.node = f (s.node v) := by
      rw [← hmid]
      exact List.map_congr_left fun x hx => hrest.done x (List.mem_append_right _ hx)
    have hl₂ : l₂.map s₁.node = l₂.map s.node :=
      List.map_congr_left fun x hx => hr.node x (List.mem_append_right _ hx)
    rw [List.map_append, hmid', hrest.rest, hl₂, List.map_cons, List.flatMap_cons]

end Cut

theorem Replaced.refl (ho : s.Owns h (l₁ ++ v :: l₂) []) : Replaced s s h l₁ v l₂ [v] :=
  ⟨by simpa using ho, by simpa using ho.moved_refl, fun _ _ => rfl⟩

theorem Owns.ne_anchor (ho : s.Owns h (l₁ ++ v :: l₂) []) : v ≠ h := by
  rintro rfl
  exact ho.circular.anchor_not_mem (by simp)

/-- What the loop of `munmap` did to the nodes `l`, which became `l'`. A node keeps its identity if
its area does not pass the overlap test; a page that is no old node holds a piece of an area, and so
does the node of an area that passed the test, if its page came back and was not just kept. -/
structure Kept (start end_ : Nat) (s s' : VmaMem) (l l' : List Nat) : Prop where
  same : ∀ n ∈ l, ¬(s.node n).Touched start end_ → n ∈ l' ∧ s'.node n = s.node n
  new : ∀ n ∈ l', n ∈ l ∨ ∃ w ∈ l, (s.node w).Touched start end_ ∧ s'.node n ∈ (s.node w).pieces start end_
  touched : ∀ m₁ n m₂, l = m₁ ++ n :: m₂ → (s.node n).Touched start end_ → n ∈ l' →
    s'.node n = { s.node n with refCount := (s.node n).refCount - 1 } ∨
      ∃ w ∈ m₂, (s.node w).Touched start end_ ∧ s'.node n ∈ (s.node w).pieces start end_

namespace Kept

theorem nil : Kept start end_ s s [] [] where
  same n hn := by cases hn
  new n hn := by cases hn
  touched m₁ n m₂ heq := by simp at heq

variable {s₁ : VmaMem} {l₂' mid : List Nat}

/-- An area that is not touched. -/
theorem skip (hs : s'.node v = s.node v) (hnot : ¬(s.node v).Touched start end_)
    (hk : Kept start end_ s s' l₂ l₂') : Kept start end_ s s' (v :: l₂) (v :: l₂') where
  same n hn hno := by
    rcases List.mem_cons.mp hn with rfl | hn
    · exact ⟨List.mem_cons_self, hs⟩
    · obtain ⟨hmem, heq⟩ := hk.same n hn hno
      exact ⟨List.mem_cons_of_mem _ hmem, heq⟩
  new n hn := by
    rcases List.mem_cons.mp hn with rfl | hn
    · exact .inl List.mem_cons_self
    · refine (hk.new n hn).imp (List.mem_cons_of_mem _) ?_
      rintro ⟨w, hw, hp⟩
      exact ⟨w, List.mem_cons_of_mem _ hw, hp⟩
  touched m₁ n m₂ heq ht hn := by
    rcases List.cons_eq_append_iff.mp heq with ⟨rfl, heq⟩ | ⟨m, rfl, rfl⟩
    · obtain ⟨rfl, rfl⟩ := List.cons.inj heq
      exact absurd ht hnot
    · rcases List.mem_cons.mp hn with rfl | hn
      · exact absurd ht hnot
      · exact hk.touched m n m₂ rfl ht hn

/-- An area that is replaced by the nodes `mid`. -/
theorem cons (hrep : Replaced s s₁ h l₁ v l₂ mid) (hmid : mid.map s₁.node = (s.node v).unmap start end_)
    (hself : (s.node v).Held start end_ ∧ mid = [v] ∨ ¬(s.node v).Held start end_ ∧ v ∉ mid)
    (ho : s.Owns h (l₁ ++ v :: l₂) []) (ht : (s.node v).Touched start end_)
    (hdone : ∀ x ∈ mid, s'.node x = s₁.node x) (hk : Kept start end_ s₁ s' l₂ l₂') :
    Kept start end_ s s' (v :: l₂) (mid ++ l₂') := by
  have hnode : ∀ x ∈ l₂, s₁.node x = s.node x := fun x hx => hrep.node x (List.mem_append_right _ hx)
  have hpieces : ¬(s.node v).Held start end_ → ∀ x ∈ mid, s'.node x ∈ (s.node v).pieces start end_ := by
    intro hno x hx
    apply Vma.unmap_touched ht hno
    rw [← hmid, hdone x hx]
    exact List.mem_map_of_mem hx
  have htail : ∀ (x : Nat) (m : List Nat), (∀ w ∈ m, w ∈ l₂) →
      (∃ w ∈ m, (s₁.node w).Touched start end_ ∧ s'.node x ∈ (s₁.node w).pieces start end_) →
      ∃ w ∈ m, (s.node w).Touched start end_ ∧ s'.node x ∈ (s.node w).pieces start end_ := by
    rintro x m hm ⟨w, hw, hp⟩
    exact ⟨w, hw, hnode w (hm w hw) ▸ hp⟩
  have hvnot : v ∉ l₂ := fun hmem => ho.not_mem_rest (List.mem_append_right _ hmem)
  constructor
  · intro n hn hno
    rcases List.mem_cons.mp hn with rfl | hn
    · exact absurd ht hno
    · obtain ⟨hmem, heq⟩ := hk.same n hn (hnode n hn ▸ hno)
      exact ⟨List.mem_append_right _ hmem, heq.trans (hnode n hn)⟩
  · intro n hn
    rcases List.mem_append.mp hn with hn | hn
    · rcases hself with ⟨-, rfl⟩ | ⟨hno, -⟩
      · exact .inl (List.mem_singleton.mp hn ▸ List.mem_cons_self)
      · exact .inr ⟨v, List.mem_cons_self, ht, hpieces hno n hn⟩
    · refine (hk.new n hn).imp (List.mem_cons_of_mem _) fun hp => ?_
      obtain ⟨w, hw, hp⟩ := htail n l₂ (fun _ hw => hw) hp
      exact ⟨w, List.mem_cons_of_mem _ hw, hp⟩
  · intro m₁ n m₂ heq htn hn
    rcases List.cons_eq_append_iff.mp heq with ⟨rfl, heq⟩ | ⟨m, rfl, rfl⟩
    · -- the area of this round
      obtain ⟨hnv, rfl⟩ := List.cons.inj heq
      subst hnv
      rcases hself with ⟨hheld, rfl⟩ | ⟨-, hnot⟩
      · left
        rw [hdone v List.mem_cons_self]
        rw [List.map_singleton, Vma.unmap_held hheld] at hmid
        exact (List.cons.inj hmid).1
      · have hrest : v ∈ l₂' := (List.mem_append.mp hn).resolve_left hnot
        exact .inr (htail v l₂ (fun _ hw => hw) ((hk.new v hrest).resolve_left hvnot))
    · have hmem : n ∈ m ++ n :: m₂ := by simp
      rcases List.mem_append.mp hn with hn | hn
      · -- the new nodes are none of the nodes that follow
        have hnd := hrep.owns.nodup
        have hdis : n ∉ m ++ n :: m₂ := by
          have hnd' : (l₁ ++ mid ++ (m ++ n :: m₂)).Nodup := by
            simpa [owned] using (List.nodup_cons.mp hnd).2
          exact fun hmem => (List.nodup_append.mp hnd').2.2 n (List.mem_append_right _ hn) n hmem rfl
        exact absurd hmem hdis
      · have hkt := hk.touched m n m₂ rfl (by rw [hnode n hmem]; exact htn) hn
        rw [hnode n hmem] at hkt
        exact hkt.imp_right (htail n m₂ fun w hw => by simp [hw])

end Kept

theorem munmapLoop_kept {found b : Bool} (ho : s.Owns h (l₁ ++ l₂) []) (hc : s.Closed (owned h (l₁ ++ l₂) []))
    (hr : munmapLoop ops fuel pid start end_ h n (l₂.headD h) found s = some (b, s')) :
    ∃ l₂', Cut (Vma.unmap start end_) s s' h l₁ l₂ l₂' ∧ Kept start end_ s s' l₂ l₂' ∧
      (b = true ↔ found = true ∨ ∃ x ∈ l₂, (s.node x).Touched start end_) := by
  induction n generalizing s l₁ l₂ found with
  | zero =>
    unfold munmapLoop at hr
    split at hr
    · rename_i hv
      cases hr
      cases l₂ with
      | nil => exact ⟨[], Cut.nil ho, .nil, by simp⟩
      | cons v l₂ => exact absurd hv ho.ne_anchor
    · cases hr
  | succ n ih =>
    unfold munmapLoop at hr
    cases l₂ with
    | nil =>
      rw [List.headD_nil, if_pos rfl] at hr
      cases hr
      exact ⟨[], Cut.nil ho, .nil, by simp⟩
    | cons v l₂ =>
      rw [List.headD_cons, if_neg ho.ne_anchor] at hr
      simp only [ho.circular.next_mem] at hr
      split at hr
      · rename_i hov
        have hov : (s.node v).Touched start end_ := hov
        obtain ⟨s₁, hnode, hr⟩ := Option.bind_eq_some_iff.mp hr
        obtain ⟨mid, hrep, hmid, hself⟩ := munmapNode_spec ho hc hov hnode
        obtain ⟨l₂', hcut, hkept, hb⟩ := ih hrep.owns (hrep.moved.closed hc) hr
        have hdone : ∀ x ∈ mid, s'.node x = s₁.node x := fun x hx => hcut.done x (List.mem_append_right _ hx)
        refine ⟨mid ++ l₂', Cut.cons hrep hmid hcut, .cons hrep hmid hself ho hov hdone hkept, ?_⟩
        simp [hb, hov]
      · rename_i hov
        have hov : ¬(s.node v).Touched start end_ := hov
        have hrep := Replaced.refl ho
        obtain ⟨l₂', hcut, hkept, hb⟩ := ih hrep.owns (hrep.moved.closed hc) hr
        have hself : [v].map s.node = (s.node v).unmap start end_ := by
          rw [Vma.unmap_untouched hov, List.map_singleton]
        have hdone : s'.node v = s.node v := hcut.done v (by simp)
        refine ⟨[v] ++ l₂', Cut.cons hrep hself hcut, .skip hdone hov hkept, ?_⟩
        simp [hb, hov]

/-- `munmap` replaces every area of the list by what is left of it, and finds an area if one passes
the overlap test. -/
theorem munmap_kept (ho : s.Owns (s.head pid) l []) (hc : s.Closed (owned (s.head pid) l [])) (hlen : 0 < len)
    (hr : munmap ops s fuel pid start len = some (r, s')) :
    ∃ l' found, Cut (Vma.unmap (pgRoundDown start) (pgRoundDown (toU64 (start + len)))) s s'
        (s.head pid) [] l l' ∧
      Kept (pgRoundDown start) (pgRoundDown (toU64 (start + len))) s s' l l' ∧
      r = (if found then 0 else -1) ∧
      (found = true ↔ ∃ x ∈ l,
        (s.node x).Touched (pgRoundDown start) (pgRoundDown (toU64 (start + len)))) := by
  unfold munmap at hr
  split at hr
  · cases hr
  · have haligned : pgRoundDown start = pgRoundDown (pgRoundDown start) := by
      simp only [pgRoundDown, PGSIZE]
      omega
    have hargs : ¬(pgRoundDown start ≠ pgRoundDown (pgRoundDown start) ∨ len ≤ 0) := by
      rintro (hne | hle)
      · exact hne haligned
      · omega
    simp only [if_neg hargs] at hr
    obtain ⟨⟨b, s₁⟩, hloop, heq⟩ := Option.map_eq_some_iff.mp hr
    obtain ⟨rfl, rfl⟩ := Prod.mk.inj heq
    rw [ho.circular.next_head] at hloop
    have ho' : s.Owns (s.head pid) ([] ++ l) [] := ho
    obtain ⟨l', hcut, hkept, hb⟩ := munmapLoop_kept ho' hc hloop
    exact ⟨l', b, hcut, hkept, rfl, by simpa using hb⟩

theorem munmap_spec (ho : s.Owns (s.head pid) l []) (hc : s.Closed (owned (s.head pid) l [])) (hlen : 0 < len)
    (hr : munmap ops s fuel pid start len = some (r, s')) :
    ∃ l', Cut (Vma.unmap (pgRoundDown start) (pgRoundDown (toU64 (start + len)))) s s'
      (s.head pid) [] l l' := by
  obtain ⟨l', -, hcut, -⟩ := munmap_kept ho hc hlen hr
  exact ⟨l', hcut⟩

/-! ## `free_vma` -/

theorem freeVmaNode_spec (ho : s.Owns h (l₁ ++ v :: l₂) [])
    (hov : (s.node v).end_ > start ∧ (s.node v).addr < end_)
    (hr : s.freeVmaNode start end_ v = some s') :
    ∃ mid, Replaced s s' h l₁ v l₂ mid ∧ mid.map s'.node = (s.node v).release start end_ := by
  unfold freeVmaNode at hr
  unfold Vma.release
  rw [if_pos hov]
  simp only at hr
  split at hr
  · rename_i hin
    cases hr
    rw [if_pos hin]
    exact ⟨[], ho.remove, rfl⟩
  · rename_i hin
    rw [if_neg hin]
    obtain ⟨s₂, hright, rfl⟩ := Option.map_eq_some_iff.mp hr
    obtain ⟨s₁, hleft, hright⟩ := Option.bind_eq_some_iff.mp hright
    -- the left part goes in before `v`
    obtain ⟨mid, ho₁, hm₁, hnode₁, hdata₁⟩ : ∃ mid, s₁.Owns h (l₁ ++ mid ++ v :: l₂) [] ∧
        Moved s s₁ (owned h (l₁ ++ v :: l₂) []) (owned h (l₁ ++ mid ++ v :: l₂) []) ∧
        (∀ x ∈ owned h (l₁ ++ v :: l₂) [], s₁.node x = s.node x) ∧
        mid.map s₁.node = if (s.node v).addr < start then [(s.node v).front start] else [] := by
      split at hleft
      · rename_i hs
        obtain ⟨⟨e, s₀⟩, hcl, rfl⟩ := Option.map_eq_some_iff.mp hleft
        obtain ⟨ho₀, hm₀, hnew, hnode, -⟩ := ho.clone hcl
        obtain ⟨ho₁, hm₁⟩ := ho₀.insertBefore
        refine ⟨[e], by simpa using ho₁, by simpa using hm₀.trans hm₁, ?_, ?_⟩
        · intro x hx
          have hne : x ≠ e := fun heq => hnew (heq ▸ hx)
          simp only [setLinks, hnode, update_of_ne hne]
        · rw [if_pos hs]
          simp [setLinks, hnode]
      · rename_i hs
        cases hleft
        exact ⟨[], by simpa using ho, by simpa using ho.moved_refl, fun _ _ => rfl,
          by rw [if_neg hs, List.map_nil]⟩
    -- the right part goes in after it
    obtain ⟨mid', ho₂, hm₂, hnode₂, hdata₂⟩ : ∃ mid', s₂.Owns h (l₁ ++ mid ++ v :: (mid' ++ l₂)) [] ∧
        Moved s₁ s₂ (owned h (l₁ ++ mid ++ v :: l₂) []) (owned h (l₁ ++ mid ++ v :: (mid' ++ l₂)) []) ∧
        (∀ x ∈ owned h (l₁ ++ mid ++ v :: l₂) [], s₂.node x = s₁.node x) ∧
        mid'.map s₂.node = if (s.node v).end_ > end_ then [(s.node v).back end_] else [] := by
      split at hright
      · rename_i he
        obtain ⟨⟨e, s₀⟩, hcl, rfl⟩ := Option.map_eq_some_iff.mp hright
        obtain ⟨ho₀, hm₀, hnew, hnode, -⟩ := ho₁.clone hcl
        obtain ⟨ho₂, hm₂⟩ := ho₀.insertAfter
        refine ⟨[e], by simpa using ho₂, by simpa using hm₀.trans hm₂, ?_, ?_⟩
        · intro x hx
          have hne : x ≠ e := fun heq => hnew (heq ▸ hx)
          simp only [setLinks, hnode, update_of_ne hne]
        · rw [if_pos he]
          simp [setLinks, hnode, hnode₁ v (by simp)]
      · rename_i he
        cases hright
        exact ⟨[], by simpa using ho₁, by simpa using ho₁.moved_refl, fun _ _ => rfl,
          by rw [if_neg he, List.map_nil]⟩
    have hrem := ho₂.remove
    refine ⟨mid ++ mid', ⟨by simpa using hrem.owns, ?_, ?_⟩, ?_⟩
    · simpa using (hm₁.trans hm₂).trans hrem.moved
    · intro x hx
      have hx₁ : x ∈ owned h (l₁ ++ v :: l₂) [] := by
        simp only [owned, List.mem_cons, List.mem_append] at hx ⊢
        tauto
      have hx₂ : x ∈ owned h (l₁ ++ mid ++ v :: l₂) [] := by
        simp only [owned, List.mem_cons, List.mem_append] at hx ⊢
        tauto
      exact (hnode₂ x hx₂).trans (hnode₁ x hx₁)
    · have hmid : mid.map s₂.node = mid.map s₁.node := List.map_congr_left fun x hx => hnode₂ x (by simp [hx])
      have hfree : ((s₂.setLinks (s₂.links.unlink v)).freePage v).node = s₂.node := rfl
      rw [hfree, List.map_append, hmid, hdata₁, hdata₂, Vma.pieces]

theorem freeVmaLoop_spec (ho : s.Owns h (l₁ ++ l₂) []) (hr : freeVmaLoop start end_ h n (l₂.headD h) s = some s') :
    ∃ l₂', Cut (Vma.release start end_) s s' h l₁ l₂ l₂' := by
  induction n generalizing s l₁ l₂ with
  | zero =>
    unfold freeVmaLoop at hr
    split at hr
    · rename_i hv
      cases hr
      cases l₂ with
      | nil => exact ⟨[], Cut.nil ho⟩
      | cons v l₂ => exact absurd hv ho.ne_anchor
    · cases hr
  | succ n ih =>
    unfold freeVmaLoop at hr
    cases l₂ with
    | nil =>
      rw [List.headD_nil, if_pos rfl] at hr
      cases hr
      exact ⟨[], Cut.nil ho⟩
    | cons v l₂ =>
      rw [List.headD_cons, if_neg ho.ne_anchor] at hr
      simp only [ho.circular.next_mem] at hr
      split at hr
      · rename_i hov
        obtain ⟨s₁, hnode, hr⟩ := Option.bind_eq_some_iff.mp hr
        obtain ⟨mid, hrep, hmid⟩ := freeVmaNode_spec ho hov hnode
        obtain ⟨l₂', hcut⟩ := ih hrep.owns hr
        exact ⟨mid ++ l₂', Cut.cons hrep hmid hcut⟩
      · rename_i hov
        have hrep := Replaced.refl ho
        obtain ⟨l₂', hcut⟩ := ih hrep.owns hr
        have hself : [v].map s.node = (s.node v).release start end_ := by
          rw [Vma.release, if_neg hov, List.map_singleton]
        exact ⟨[v] ++ l₂', Cut.cons hrep hself hcut⟩

/-- `free_vma` replaces every area of the list by what is left of it. -/
theorem freeVma_spec (ho : s.Owns (s.head pid) l []) (hr : s.freeVma fuel pid start end_ = some (r, s')) :
    s' = s ∨ ∃ l', Cut (Vma.release start end_) s s' (s.head pid) [] l l' := by
  unfold freeVma at hr
  split at hr
  · cases hr
    exact .inl rfl
  · obtain ⟨s₁, hloop, heq⟩ := Option.map_eq_some_iff.mp hr
    obtain ⟨-, rfl⟩ := Prod.mk.inj heq
    rw [ho.circular.next_head] at hloop
    have ho' : s.Owns (s.head pid) ([] ++ l) [] := ho
    exact .inr (freeVmaLoop_spec ho' hloop)

/-! ## `alloc_vma` -/

/-- The search stops at the first area that does not end at or before `start`; a new area goes in
there only if that area starts at or after `end_`. -/
theorem findSlot_spec {b : Nat} (ho : s.Owns h (l₁ ++ l₂) [])
    (hr : s.findSlot h start end_ fuel (l₂.headD h) = some (.inl b)) :
    ∃ m₁ m₂, l₂ = m₁ ++ m₂ ∧ b = m₂.headD h ∧ (∀ x ∈ m₁, (s.node x).end_ ≤ start) ∧
      ∀ x m, m₂ = x :: m → end_ ≤ (s.node x).addr := by
  induction fuel generalizing l₁ l₂ with
  | zero =>
    unfold findSlot at hr
    split at hr
    · rename_i hv
      cases hr
      cases l₂ with
      | nil => exact ⟨[], [], rfl, rfl, by simp, by simp⟩
      | cons v l₂ => exact absurd hv ho.ne_anchor
    · cases hr
  | succ n ih =>
    unfold findSlot at hr
    cases l₂ with
    | nil =>
      rw [List.headD_nil, if_pos rfl] at hr
      cases hr
      exact ⟨[], [], rfl, rfl, by simp, by simp⟩
    | cons v l₂ =>
      rw [List.headD_cons, if_neg ho.ne_anchor] at hr
      split at hr
      · rename_i hle
        obtain rfl := Sum.inl.inj (Option.some.inj hr)
        refine ⟨[], v :: l₂, rfl, rfl, by simp, ?_⟩
        rintro x m heq
        obtain ⟨rfl, -⟩ := List.cons.inj heq
        exact hle
      · split at hr
        · rename_i hge
          rw [ho.circular.next_mem] at hr
          have ho' : s.Owns h ((l₁ ++ [v]) ++ l₂) [] := by simpa using ho
          obtain ⟨m₁, m₂, rfl, hb, hbefore, hafter⟩ := ih ho' hr
          refine ⟨v :: m₁, m₂, rfl, hb, ?_, hafter⟩
          intro x hx
          rcases List.mem_cons.mp hx with rfl | hx
          · exact hge
          · exact hbefore x hx
        · split at hr <;> cases hr

theorem findSlot_mem {x : Nat} (ho : s.Owns h (l₁ ++ l₂) [])
    (hr : s.findSlot h start end_ fuel (l₂.headD h) = some (.inr x)) : x ∈ l₂ := by
  induction fuel generalizing l₁ l₂ with
  | zero =>
    unfold findSlot at hr
    split at hr <;> cases hr
  | succ n ih =>
    unfold findSlot at hr
    cases l₂ with
    | nil =>
      rw [List.headD_nil, if_pos rfl] at hr
      cases hr
    | cons v l₂ =>
      rw [List.headD_cons, if_neg ho.ne_anchor] at hr
      split at hr
      · cases hr
      · split at hr
        · rw [ho.circular.next_mem] at hr
          have ho' : s.Owns h ((l₁ ++ [v]) ++ l₂) [] := by simpa using ho
          exact List.mem_cons_of_mem _ (ih ho' hr)
        · split at hr
          · cases hr
            exact List.mem_cons_self ..
          · cases hr

/-- `alloc_vma` returns an area of the list, or inserts one between those that end before it and
those that start after it. -/
theorem allocVma_spec {type : SegType} {addr perm pa vma : Nat} {sz : Int} {alloc : Bool}
    (ho : s.Owns (s.head pid) l [])
    (hr : allocVma ops s fuel pid type addr sz perm alloc pa = some (vma, s')) :
    s' = s ∧ vma ∈ l ∨
    ∃ l₁ l₂ old, l = l₁ ++ l₂ ∧ s'.Owns (s.head pid) (l₁ ++ vma :: l₂) [] ∧
      Moved s s' (owned (s.head pid) l []) (owned (s.head pid) (l₁ ++ vma :: l₂) []) ∧
      (l₁ ++ vma :: l₂).map s'.node = l₁.map s.node ++
        initVma old type (pgRoundUp addr) (pgRoundUp (toU64 (addr + sz))) sz perm :: l₂.map s.node ∧
      (∀ x ∈ l₁, (s.node x).end_ ≤ pgRoundUp addr) ∧
      ∀ x m, l₂ = x :: m → pgRoundUp (toU64 (addr + sz)) ≤ (s.node x).addr := by
  unfold allocVma at hr
  split at hr
  · cases hr
  · simp only at hr
    split at hr
    · cases hr
    · rename_i v hslot
      cases hr
      rw [ho.circular.next_head] at hslot
      have ho' : s.Owns (s.head pid) ([] ++ l) [] := ho
      exact .inl ⟨rfl, findSlot_mem ho' hslot⟩
    · rename_i b hslot
      rw [ho.circular.next_head] at hslot
      have ho' : s.Owns (s.head pid) ([] ++ l) [] := ho
      obtain ⟨l₁, l₂, rfl, rfl, hbefore, hafter⟩ := findSlot_spec ho' hslot
      obtain ⟨⟨e, s₁⟩, ha, hr⟩ := Option.bind_eq_some_iff.mp hr
      simp only at hr
      split at hr
      · cases hr
        obtain ⟨ho₁, hm₁, hnew, hnode, hlinks, -⟩ := ho.alloc ha
        obtain ⟨ho₂, hm₂⟩ := ho₁.write (e := vma) (by simp)
          (initVma (s₁.node vma) type (pgRoundUp addr) (pgRoundUp (toU64 (addr + sz))) sz perm)
        obtain ⟨ho₃, hm₃⟩ := ho₂.insertBefore
        refine .inr ⟨l₁, l₂, s₁.node vma, rfl, ho₃, (hm₁.trans hm₂).trans hm₃, ?_, hbefore, hafter⟩
        have hkeep : ∀ x ∈ l₁ ++ l₂, (update s₁.node vma (initVma (s₁.node vma) type (pgRoundUp addr)
            (pgRoundUp (toU64 (addr + sz))) sz perm)) x = s.node x := by
          intro x hx
          have hne : x ≠ vma := fun heq => hnew (by rw [← heq]; simp [List.mem_append.mp hx])
          rw [update_of_ne hne, hnode]
        simp only [setLinks, setNode, List.map_append, List.map_cons, update_self]
        rw [List.map_congr_left fun x hx => hkeep x (List.mem_append_left _ hx),
          List.map_congr_left fun x hx => hkeep x (List.mem_append_right _ hx)]
      · cases hr

end VmaMem

end SC7
