-- SUMMARY: The elementary moves of the VMA lists: what a routine owns while it splices nodes, and what it leaves alone.
import SC7.Mem.Vma

/-!
# Splicing VMAs

While a routine works on a list it owns the nodes of the list and the loose pages it has unlinked
or just allocated. Every assignment of the routines is one of a few moves: a page is taken from the
allocator or given back, an owned page is written, the links inside the owned pages change. A move
leaves every other page alone, so moves compose and never reach into another list.
-/

namespace SC7

open Function (update update_of_ne update_self)
open Links (AgreeOff)

namespace VmaMem

/-- The pages of a list with the anchor `h` and the nodes `l`, and the loose pages. -/
abbrev owned (h : Nat) (l loose : List Nat) : List Nat := h :: (l ++ loose)

/-- A routine owns the list `h`, `l` and the pages `loose`. -/
structure Owns (s : VmaMem) (h : Nat) (l loose : List Nat) : Prop where
  circular : s.links.Circular h l
  nodup : (owned h l loose).Nodup
  used : ∀ x ∈ owned h l loose, s.used x = true

/-- No VMA outside `O` points into `O`, or to a page that holds no VMA. -/
def Closed (s : VmaMem) (O : List Nat) : Prop :=
  ∀ x, s.used x = true → x ∉ O → s.used (s.links.next x) = true ∧ s.links.next x ∉ O

/-- From `s` to `s'` the owner of `O` came to own `O'`, and touched no page of anybody else. -/
structure Moved (s s' : VmaMem) (O O' : List Nat) : Prop where
  frame : ∀ x, s.used x = true → x ∉ O → s'.used x = true ∧ s'.node x = s.node x ∧
    s'.links.next x = s.links.next x ∧ s'.links.prev x = s.links.prev x
  back : ∀ x, s'.used x = true → x ∈ O' ∨ (s.used x = true ∧ x ∉ O)
  fresh : ∀ x ∈ O', x ∈ O ∨ s.used x = false
  own : ∀ x ∈ O', s'.used x = true
  head : s'.head = s.head

namespace Moved

variable {s s' s'' : VmaMem} {O O' O'' : List Nat}

theorem trans (h₁ : Moved s s' O O') (h₂ : Moved s' s'' O' O'') : Moved s s'' O O'' where
  frame := by
    intro x hx hO
    obtain ⟨hx', hnode, hnext, hprev⟩ := h₁.frame x hx hO
    have hO' : x ∉ O' := by
      intro hmem
      rcases h₁.fresh x hmem with h | h
      · exact hO h
      · rw [hx] at h
        cases h
    obtain ⟨hx'', hnode', hnext', hprev'⟩ := h₂.frame x hx' hO'
    exact ⟨hx'', hnode'.trans hnode, hnext'.trans hnext, hprev'.trans hprev⟩
  back := by
    intro x hx
    rcases h₂.back x hx with h | ⟨h, hO'⟩
    · exact .inl h
    · rcases h₁.back x h with h' | h'
      · exact absurd h' hO'
      · exact .inr h'
  fresh := by
    intro x hx
    rcases h₂.fresh x hx with h | h
    · exact h₁.fresh x h
    · by_cases hO : x ∈ O
      · exact .inl hO
      · right
        cases hs : s.used x with
        | false => rfl
        | true =>
          rw [(h₁.frame x hs hO).1] at h
          cases h
  own := h₂.own
  head := h₂.head.trans h₁.head

/-- The pages outside stay closed, whatever the owner of `O` does. -/
theorem closed (hm : Moved s s' O O') (hc : s.Closed O) : s'.Closed O' := by
  intro x hx hO'
  rcases hm.back x hx with h | ⟨hs, hO⟩
  · exact absurd h hO'
  · obtain ⟨hnext, hnotin⟩ := hc x hs hO
    obtain ⟨-, -, hnx, -⟩ := hm.frame x hs hO
    rw [hnx]
    refine ⟨(hm.frame _ hnext hnotin).1, ?_⟩
    intro hmem
    rcases hm.fresh _ hmem with h | h
    · exact hnotin h
    · rw [hnext] at h
      cases h

end Moved

variable {s s' : VmaMem} {h e v : Nat} {l l' l₁ l₂ loose loose' : List Nat}

theorem allocPage_eq_some (ha : s.allocPage = some (e, s')) :
    e ≠ NULL ∧ s.used e = false ∧
      ∃ ps, s' = { s with supply := ps, used := update s.used e true } := by
  unfold allocPage at ha
  split at ha
  · cases ha
  · split at ha
    · cases ha
    · rename_i hp
      cases ha
      simp only [not_or, Bool.not_eq_true] at hp
      exact ⟨hp.1, hp.2, _, rfl⟩

namespace Owns

theorem moved_refl (ho : s.Owns h l loose) : Moved s s (owned h l loose) (owned h l loose) where
  frame := fun _ hx _ => ⟨hx, rfl, rfl, rfl⟩
  back := fun x hx => by
    by_cases hO : x ∈ owned h l loose
    · exact .inl hO
    · exact .inr ⟨hx, hO⟩
  fresh := fun _ hx => .inl hx
  own := ho.used
  head := rfl

/-- A page from the allocator is loose, and new. -/
theorem alloc (ho : s.Owns h l loose) (ha : s.allocPage = some (e, s')) :
    s'.Owns h l (e :: loose) ∧ Moved s s' (owned h l loose) (owned h l (e :: loose)) ∧
      e ∉ owned h l loose ∧ s'.node = s.node ∧ s'.links = s.links ∧ s'.shm = s.shm := by
  obtain ⟨-, hfree, ps, rfl⟩ := allocPage_eq_some ha
  have hnew : e ∉ owned h l loose := fun hmem => by
    rw [ho.used e hmem] at hfree
    cases hfree
  have hperm : (owned h l (e :: loose)).Perm (e :: owned h l loose) :=
    (List.perm_middle.cons h).trans (List.Perm.swap _ _ _)
  have hused : ∀ x ∈ owned h l (e :: loose), update s.used e true x = true := by
    intro x hx
    rcases List.mem_cons.mp (hperm.mem_iff.mp hx) with rfl | hx
    · exact update_self ..
    · have hne : x ≠ e := fun heq => hnew (heq ▸ hx)
      rw [update_of_ne hne]
      exact ho.used x hx
  refine ⟨⟨ho.circular, ?_, hused⟩, ⟨?_, ?_, ?_, hused, rfl⟩, hnew, rfl, rfl, rfl⟩
  · exact hperm.nodup_iff.mpr (List.nodup_cons.mpr ⟨hnew, ho.nodup⟩)
  · intro x hx _
    have hne : x ≠ e := by
      rintro rfl
      rw [hx] at hfree
      cases hfree
    exact ⟨(update_of_ne hne true s.used).trans hx, rfl, rfl, rfl⟩
  · intro x hx
    by_cases hxe : x = e
    · exact .inl (hperm.mem_iff.mpr (by simp [hxe]))
    · have hx : s.used x = true := (update_of_ne hxe true s.used).symm.trans hx
      by_cases hO : x ∈ owned h l loose
      · exact .inl (hperm.mem_iff.mpr (List.mem_cons_of_mem _ hO))
      · exact .inr ⟨hx, hO⟩
  · intro x hx
    rcases List.mem_cons.mp (hperm.mem_iff.mp hx) with rfl | hx
    · exact .inr hfree
    · exact .inl hx

/-- A loose page is given back. -/
theorem free (ho : s.Owns h l (e :: loose)) :
    (s.freePage e).Owns h l loose ∧ Moved s (s.freePage e) (owned h l (e :: loose)) (owned h l loose) := by
  have hperm : (owned h l (e :: loose)).Perm (e :: owned h l loose) :=
    (List.perm_middle.cons h).trans (List.Perm.swap _ _ _)
  obtain ⟨hnot, hnd⟩ := List.nodup_cons.mp (hperm.nodup_iff.mp ho.nodup)
  have hused : ∀ x ∈ owned h l loose, (s.freePage e).used x = true := by
    intro x hx
    have hne : x ≠ e := fun heq => hnot (heq ▸ hx)
    simp only [freePage, update_of_ne hne]
    exact ho.used x (hperm.mem_iff.mpr (List.mem_cons_of_mem _ hx))
  refine ⟨⟨ho.circular, hnd, hused⟩, ⟨?_, ?_, ?_, hused, rfl⟩⟩
  · intro x hx hO
    have hne : x ≠ e := fun heq => hO (hperm.mem_iff.mpr (by simp [heq]))
    exact ⟨by simp only [freePage, update_of_ne hne, hx], rfl, rfl, rfl⟩
  · intro x hx
    have hne : x ≠ e := by
      rintro rfl
      simp [freePage] at hx
    simp only [freePage, update_of_ne hne] at hx
    by_cases hO : x ∈ owned h l (e :: loose)
    · exact .inl ((List.mem_cons.mp (hperm.mem_iff.mp hO)).resolve_left hne)
    · exact .inr ⟨hx, hO⟩
  · exact fun x hx => .inl (hperm.mem_iff.mpr (List.mem_cons_of_mem _ hx))

/-- An owned page is written. -/
theorem write (ho : s.Owns h l loose) (he : e ∈ owned h l loose) (d : Vma) :
    (s.setNode e d).Owns h l loose ∧ Moved s (s.setNode e d) (owned h l loose) (owned h l loose) := by
  refine ⟨⟨ho.circular, ho.nodup, ho.used⟩, ⟨?_, ho.moved_refl.back, fun _ hx => .inl hx, ho.used, rfl⟩⟩
  intro x hx hO
  have hne : x ≠ e := fun heq => hO (heq ▸ he)
  exact ⟨hx, by simp only [setNode, update_of_ne hne], rfl, rfl⟩

/-- The links inside the owned pages change; a page may become loose, or a loose one a node. -/
theorem relink (ho : s.Owns h l loose) {L : Links Nat} (hc : L.Circular h l')
    (hagree : AgreeOff (owned h l loose) s.links L)
    (hperm : (owned h l' loose').Perm (owned h l loose)) :
    (s.setLinks L).Owns h l' loose' ∧ Moved s (s.setLinks L) (owned h l loose) (owned h l' loose') := by
  have hused : ∀ x ∈ owned h l' loose', s.used x = true := fun x hx => ho.used x (hperm.mem_iff.mp hx)
  refine ⟨⟨hc, hperm.nodup_iff.mpr ho.nodup, hused⟩, ⟨?_, ?_, ?_, hused, rfl⟩⟩
  · intro x hx hO
    obtain ⟨hnext, hprev⟩ := hagree x hO
    exact ⟨hx, rfl, hnext, hprev⟩
  · intro x hx
    rcases ho.moved_refl.back x hx with h | h
    · exact .inl (hperm.mem_iff.mpr h)
    · exact .inr h
  · exact fun x hx => .inl (hperm.mem_iff.mp hx)

/-- The page-free parts of the state do not matter. -/
theorem congr (ho : s.Owns h l loose) (hlinks : s'.links = s.links) (hused : s'.used = s.used)
    (hnode : s'.node = s.node) (hhead : s'.head = s.head) :
    s'.Owns h l loose ∧ Moved s s' (owned h l loose) (owned h l loose) := by
  have hused' : ∀ x ∈ owned h l loose, s'.used x = true := by
    rw [hused]
    exact ho.used
  refine ⟨⟨by rw [hlinks]; exact ho.circular, ho.nodup, hused'⟩, ⟨?_, ?_, fun _ hx => .inl hx, hused', hhead⟩⟩
  · intro x hx _
    rw [hused, hnode, hlinks]
    exact ⟨hx, rfl, rfl, rfl⟩
  · rw [hused]
    exact ho.moved_refl.back

theorem mem_circular (_ : s.Owns h l loose) {x : Nat} (hx : x ∈ h :: l) : x ∈ owned h l loose := by
  simp only [owned, List.mem_cons, List.mem_append] at hx ⊢
  tauto

theorem loose_not_mem (ho : s.Owns h l (e :: loose)) : e ∉ h :: l := by
  have hperm : (owned h l (e :: loose)).Perm (e :: owned h l loose) :=
    (List.perm_middle.cons h).trans (List.Perm.swap _ _ _)
  obtain ⟨hnot, -⟩ := List.nodup_cons.mp (hperm.nodup_iff.mp ho.nodup)
  simp only [owned, List.mem_cons, List.mem_append, not_or] at hnot ⊢
  exact ⟨hnot.1, hnot.2.1⟩

/-- Copying a VMA to a loose page. -/
theorem copy (ho : s.Owns h l (e :: loose)) (src : Nat) :
    (s.copyVma e src).Owns h l (e :: loose) ∧
      Moved s (s.copyVma e src) (owned h l (e :: loose)) (owned h l (e :: loose)) := by
  have he : e ∈ owned h l (e :: loose) := by simp
  have hnot := ho.loose_not_mem
  obtain ⟨ho₁, hm₁⟩ := ho.write he (s.node src)
  have hagree : AgreeOff (owned h l (e :: loose)) (s.setNode e (s.node src)).links
      ((s.links.setPrev e (s.links.prev src)).setNext e (s.links.next src)) :=
    ((AgreeOff.refl _ _).setPrev he _).setNext he _
  have hcirc : ((s.links.setPrev e (s.links.prev src)).setNext e (s.links.next src)).Circular h l := by
    apply ho.circular.congr
    · intro x hx
      have hne : x ≠ e := fun heq => hnot (heq ▸ hx)
      rw [Links.setNext_next, if_neg hne, Links.setPrev_next]
    · intro x hx
      have hne : x ≠ e := fun heq => hnot (heq ▸ hx)
      rw [Links.setNext_prev, Links.setPrev_prev, if_neg hne]
  obtain ⟨ho₂, hm₂⟩ := ho₁.relink hcirc hagree (List.Perm.refl _)
  exact ⟨ho₂, hm₁.trans hm₂⟩

/-- A changed copy of a VMA is a loose page; nothing else changes. -/
theorem clone {f : Vma → Vma} (ho : s.Owns h l loose) (hcl : s.cloneVma v f = some (e, s')) :
    s'.Owns h l (e :: loose) ∧ Moved s s' (owned h l loose) (owned h l (e :: loose)) ∧
      e ∉ owned h l loose ∧ s'.node = update s.node e (f (s.node v)) ∧
      AgreeOff [e] s.links s'.links := by
  unfold cloneVma at hcl
  obtain ⟨⟨e', s₁⟩, ha, heq⟩ := Option.map_eq_some_iff.mp hcl
  obtain ⟨rfl, rfl⟩ := Prod.mk.inj heq
  obtain ⟨ho₁, hm₁, hnew, hnode, hlinks, -⟩ := ho.alloc ha
  obtain ⟨ho₂, hm₂⟩ := ho₁.copy v
  obtain ⟨ho₃, hm₃⟩ := ho₂.write (e := e') (by simp) (f ((s₁.copyVma e' v).node e'))
  refine ⟨ho₃, (hm₁.trans hm₂).trans hm₃, hnew, ?_, ?_⟩
  · simp only [setNode, copyVma, setLinks, update_self, Function.update_idem, hnode]
  · rw [← hlinks]
    exact ((AgreeOff.refl _ _).setPrev (by simp) _).setNext (by simp) _

/-- Unlinking a node makes it loose. -/
theorem unlink (ho : s.Owns h (l₁ ++ v :: l₂) loose) :
    (s.setLinks (s.links.unlink v)).Owns h (l₁ ++ l₂) (v :: loose) ∧
      Moved s (s.setLinks (s.links.unlink v)) (owned h (l₁ ++ v :: l₂) loose)
        (owned h (l₁ ++ l₂) (v :: loose)) := by
  have hmem : ∀ x ∈ h :: (l₁ ++ v :: l₂), x ∈ owned h (l₁ ++ v :: l₂) loose := fun x hx => ho.mem_circular hx
  apply ho.relink ho.circular.unlink
  · apply AgreeOff.unlink
    · rw [ho.circular.prev_mem]
      apply hmem
      have := Links.Circular.getLastD_mem h l₁
      simp only [List.mem_cons, List.mem_append] at this ⊢
      tauto
    · exact hmem _ (ho.circular.next_mem_ring (by simp))
  · apply List.Perm.cons
    rw [List.append_assoc, List.append_assoc, List.cons_append]
    exact List.Perm.append_left _ List.perm_middle

/-- A loose page is linked in before the node (or the anchor) that follows `l₁`. -/
theorem insertBefore (ho : s.Owns h (l₁ ++ l₂) (e :: loose)) :
    (s.setLinks (s.links.insertBefore (l₂.headD h) e)).Owns h (l₁ ++ e :: l₂) loose ∧
      Moved s (s.setLinks (s.links.insertBefore (l₂.headD h) e))
        (owned h (l₁ ++ l₂) (e :: loose)) (owned h (l₁ ++ e :: l₂) loose) := by
  apply ho.relink (ho.circular.insertBefore ho.loose_not_mem)
  · apply AgreeOff.insertBefore
    · simp
    · apply ho.mem_circular
      have := Links.Circular.headD_mem h l₂
      simp only [List.mem_cons, List.mem_append] at this ⊢
      tauto
    · rw [ho.circular.adjacent.2]
      apply ho.mem_circular
      have := Links.Circular.getLastD_mem h l₁
      simp only [List.mem_cons, List.mem_append] at this ⊢
      tauto
  · apply List.Perm.cons
    rw [List.append_assoc, List.append_assoc, List.cons_append]
    exact List.Perm.append_left _ List.perm_middle.symm

/-- A loose page is linked in after a node. -/
theorem insertAfter (ho : s.Owns h (l₁ ++ v :: l₂) (e :: loose)) :
    (s.setLinks (s.links.insertAfter v e)).Owns h (l₁ ++ v :: e :: l₂) loose ∧
      Moved s (s.setLinks (s.links.insertAfter v e))
        (owned h (l₁ ++ v :: l₂) (e :: loose)) (owned h (l₁ ++ v :: e :: l₂) loose) := by
  apply ho.relink (ho.circular.insertAfter ho.loose_not_mem)
  · apply AgreeOff.insertAfter
    · simp
    · exact ho.mem_circular (by simp)
    · exact ho.mem_circular (ho.circular.next_mem_ring (by simp))
  · apply List.Perm.cons
    rw [List.append_assoc, List.append_assoc, List.cons_append, List.cons_append, List.cons_append]
    exact List.Perm.append_left _ ((List.perm_middle.symm).cons v)

/-- A loose page takes the place of the loose page `v`, which still names its old neighbours. -/
theorem takePlace (ho : s.Owns h (l₁ ++ l₂) (e :: v :: loose))
    (hprev : s.links.prev v = l₁.getLastD h) (hnext : s.links.next v = l₂.headD h) :
    (s.setLinks (s.links.takePlace v e)).Owns h (l₁ ++ e :: l₂) (v :: loose) ∧
      Moved s (s.setLinks (s.links.takePlace v e))
        (owned h (l₁ ++ l₂) (e :: v :: loose)) (owned h (l₁ ++ e :: l₂) (v :: loose)) := by
  have hswap : (owned h (l₁ ++ l₂) (e :: v :: loose)).Perm (owned h (l₁ ++ l₂) (v :: e :: loose)) :=
    (List.Perm.append_left _ (List.Perm.swap _ _ _)).cons h
  have hov : s.Owns h (l₁ ++ l₂) (v :: e :: loose) :=
    ⟨ho.circular, hswap.nodup_iff.mp ho.nodup, fun x hx => ho.used x (hswap.mem_iff.mpr hx)⟩
  have hev : e ≠ v := by
    rintro rfl
    have hnd := (List.nodup_cons.mp ho.nodup).2
    have := (List.nodup_append.mp hnd).2.1
    simp at this
  apply ho.relink (ho.circular.takePlace ho.loose_not_mem hev hprev hnext hov.loose_not_mem)
  · apply AgreeOff.takePlace
    · simp
    · rw [hprev]
      apply ho.mem_circular
      have := Links.Circular.getLastD_mem h l₁
      simp only [List.mem_cons, List.mem_append] at this ⊢
      tauto
    · rw [hnext]
      apply ho.mem_circular
      have := Links.Circular.headD_mem h l₂
      simp only [List.mem_cons, List.mem_append] at this ⊢
      tauto
  · apply List.Perm.cons
    rw [List.append_assoc, List.append_assoc, List.cons_append]
    exact List.Perm.append_left _ List.perm_middle.symm

end Owns

end VmaMem

end SC7
