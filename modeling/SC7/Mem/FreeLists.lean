-- SUMMARY: The array of free lists of the page allocator as a family of lists of pages.
import SC7.Mem.Pmem

/-!
# Free lists

The twelve lists of `free_lists` share one array of embedded elements. `FreeLists E L`
says that each of them is well formed, that `L k` are the pages on list `k`, and that no
page is on two lists; the lemmas give the effect of the list operations on `L`.
-/

namespace SC7

/-- The links `E` hold the lists of pages `L`. -/
structure FreeLists (E : Links ElemPtr) (L : Nat → List Nat) : Prop where
  isList : ∀ k, k ≤ BUDDY_MAX_ORDER → IsList .null E (freeLists k) ((L k).map .node)
  beyond : ∀ k, BUDDY_MAX_ORDER < k → L k = []
  inj : ∀ {j k p}, p ∈ L j → p ∈ L k → j = k

namespace FreeLists

variable {E : Links ElemPtr} {L : Nat → List Nat} {k p : Nat} {x : ElemPtr} {xs l : List Nat}

/-- The pointers that occur in list `k`. -/
theorem mem_chain : x ∈ (freeLists k).head :: (xs.map ElemPtr.node ++ [(freeLists k).tail]) ↔
      x = .head k ∨ (∃ p ∈ xs, x = .node p) ∨ x = .tail k := by
  simp only [freeLists, List.mem_cons, List.mem_append, List.mem_map, List.not_mem_nil, or_false]
  constructor
  · rintro (h | ⟨a, ha, rfl⟩ | h)
    · exact .inl h
    · exact .inr (.inl ⟨a, ha, rfl⟩)
    · exact .inr (.inr h)
  · rintro (h | ⟨a, ha, rfl⟩ | h)
    · exact .inl h
    · exact .inr (.inl ⟨a, ha, rfl⟩)
    · exact .inr (.inr h)

theorem node_mem_chain : ElemPtr.node p ∈ (freeLists k).head :: (xs.map ElemPtr.node ++ [(freeLists k).tail]) ↔
      p ∈ xs := by
  simp [freeLists]

section Moves

variable (h : FreeLists E L)

include h

theorem nodup (hk : k ≤ BUDDY_MAX_ORDER) : (L k).Nodup := by
  have hnd := (List.nodup_cons.mp (h.isList k hk).nodup).2
  exact List.Nodup.of_map _ (List.nodup_append.mp hnd).1

theorem le_of_mem (hp : p ∈ L k) : k ≤ BUDDY_MAX_ORDER := by
  by_contra hk
  rw [h.beyond k (by omega)] at hp
  cases hp

theorem empty_iff (hk : k ≤ BUDDY_MAX_ORDER) : listEmpty E (freeLists k) = true ↔ L k = [] := by
  rw [(h.isList k hk).empty_iff, List.map_eq_nil_iff]

/-- Changing one list only, through links that no other list uses, keeps the family. -/
theorem update {E' : Links ElemPtr} (hk : k ≤ BUDDY_MAX_ORDER) (hnew : IsList .null E' (freeLists k) (l.map .node))
    (hframe : ∀ j, j ≠ k → ∀ x, x = .head j ∨ (∃ p ∈ L j, x = .node p) ∨ x = .tail j →
      E'.next x = E.next x ∧ E'.prev x = E.prev x)
    (hinj : ∀ p ∈ l, ∀ j, j ≠ k → p ∉ L j) : FreeLists E' (Function.update L k l) where
  isList j hj := by
    by_cases hjk : j = k
    · subst hjk
      rwa [Function.update_self]
    · rw [Function.update_of_ne hjk]
      exact (h.isList j hj).congr (fun x hx => (hframe j hjk x (mem_chain.mp hx)).1)
        (fun x hx => (hframe j hjk x (mem_chain.mp hx)).2)
  beyond j hj := by
    rw [Function.update_of_ne (by omega)]
    exact h.beyond j hj
  inj := by
    intro i j p hi hj
    by_cases hik : i = k
    · by_cases hjk : j = k
      · rw [hik, hjk]
      · subst hik
        rw [Function.update_self] at hi
        rw [Function.update_of_ne hjk] at hj
        exact absurd hj (hinj p hi j hjk)
    · rw [Function.update_of_ne hik] at hi
      by_cases hjk : j = k
      · subst hjk
        rw [Function.update_self] at hj
        exact absurd hi (hinj p hj i hik)
      · rw [Function.update_of_ne hjk] at hj
        exact h.inj hi hj

/-- Unlinking a page of list `k` only writes links of list `k`. -/
theorem unlink_frame (hp : p ∈ L k) {j : Nat} (hj : j ≠ k)
    (hx : x = .head j ∨ (∃ q ∈ L j, x = .node q) ∨ x = .tail j) :
    (E.unlink (.node p)).next x = E.next x ∧ (E.unlink (.node p)).prev x = E.prev x := by
  have hlist := h.isList k (h.le_of_mem hp)
  obtain ⟨xs, ys, hsplit⟩ := List.append_of_mem hp
  rw [hsplit, List.map_append, List.map_cons] at hlist
  obtain ⟨as, a, n, bs, -, -, heq, -, hl⟩ := hlist.split
  obtain ⟨-, ⟨-, hprev⟩, hr⟩ := Links.linked_append_cons_cons.mp hl
  obtain ⟨⟨hnext, -⟩, -⟩ := Links.linked_cons_cons.mp hr
  -- the two neighbours are in list `k`, so they are not `x`
  have hmem : ∀ y ∈ as ++ a :: ElemPtr.node p :: n :: bs, x ≠ y := by
    intro y hy hxy
    rw [← heq, ← List.map_cons, ← List.map_append, ← hsplit, mem_chain] at hy
    subst hxy
    rcases hx with rfl | ⟨q, hq, rfl⟩ | rfl
    · rcases hy with h1 | ⟨_, _, h1⟩ | h1 <;> cases h1
      exact hj rfl
    · rcases hy with h1 | ⟨r, hr, h1⟩ | h1 <;> cases h1
      exact hj (h.inj hq hr)
    · rcases hy with h1 | ⟨_, _, h1⟩ | h1 <;> cases h1
      exact hj rfl
  have hnext' : (E.setNext a n).next (.node p) = n := by
    rw [Links.setNext_next, hnext]
    split <;> rfl
  constructor
  · simp only [Links.unlink, Links.setPrev_next, Links.setNext_next, hprev,
      if_neg (hmem a (by simp))]
  · simp only [Links.unlink, Links.setPrev_prev, Links.setNext_prev, hprev, hnext, hnext',
      if_neg (hmem n (by simp))]

theorem pop (hL : L k = p :: l) : ∃ E', listPopFront .null E (freeLists k) = some (.node p, E') ∧
      FreeLists E' (Function.update L k l) := by
  have hp : p ∈ L k := by simp [hL]
  have hk := h.le_of_mem hp
  have hlist := h.isList k hk
  rw [hL, List.map_cons] at hlist
  obtain ⟨E', hpop, rfl, hnew⟩ := hlist.listPopFront
  refine ⟨_, hpop, h.update hk hnew (fun j hj x hx => h.unlink_frame hp hj hx) ?_⟩
  intro q hq j hj hqj
  exact hj (h.inj hqj (by simp [hL, hq]))

theorem remove (hp : p ∈ L k) : ∃ E', listRemove .null E (.node p) = some E' ∧
      FreeLists E' (Function.update L k ((L k).erase p)) := by
  have hk := h.le_of_mem hp
  obtain ⟨xs, ys, hsplit⟩ := List.append_of_mem hp
  have hlist := h.isList k hk
  rw [hsplit, List.map_append, List.map_cons] at hlist
  obtain ⟨E', hrem, rfl, hnew⟩ := hlist.listRemove
  have herase : (L k).erase p = xs ++ ys := by
    have hnd := h.nodup hk
    rw [hsplit] at hnd ⊢
    have hpx : p ∉ xs := fun hx => (List.nodup_append.mp hnd).2.2 p hx p (by simp) rfl
    rw [List.erase_append_right _ hpx, List.erase_cons_head]
  refine ⟨_, hrem, ?_⟩
  rw [herase]
  refine h.update hk (by simpa using hnew) (fun j hj x hx => h.unlink_frame hp hj hx) ?_
  intro q hq j hj hqj
  have hqk : q ∈ L k := by
    rw [hsplit]
    simp only [List.mem_append, List.mem_cons] at hq ⊢
    tauto
  exact hj (h.inj hqj hqk)

theorem push (hk : k ≤ BUDDY_MAX_ORDER) (hp : ∀ j, p ∉ L j) :
    ∃ E', listPushFront .null E (freeLists k) (.node p) = some E' ∧
      FreeLists E' (Function.update L k (p :: L k)) := by
  have hlist := h.isList k hk
  have hne : ElemPtr.node p ∉
      (freeLists k).head :: ((L k).map ElemPtr.node ++ [(freeLists k).tail]) :=
    fun hmem => hp k (node_mem_chain.mp hmem)
  obtain ⟨E', hpush, rfl, hnew⟩ := hlist.listPushFront hne (by simp)
  refine ⟨_, hpush, h.update hk hnew ?_ ?_⟩
  · intro j hj x hx
    -- the links written are those of the head, of the old front and of the new element
    have hxhead : x ≠ .head k := by
      rintro rfl
      rcases hx with h1 | ⟨_, _, h1⟩ | h1 <;> cases h1
      exact hj rfl
    have hxp : x ≠ .node p := by
      rintro rfl
      rcases hx with h1 | ⟨_, hq, h1⟩ | h1 <;> cases h1
      exact hp j hq
    have hnext : E.next (.head k) = ((L k).map ElemPtr.node ++ [ElemPtr.tail k]).head (by simp) :=
      hlist.next_head
    have hprev : E.prev (E.next (.head k)) = .head k := by
      have hl := hlist.linked
      rw [hnext]
      cases hLk : L k with
      | nil =>
        rw [hLk] at hl
        exact (Links.linked_cons_cons.mp hl).1.2
      | cons q l =>
        rw [hLk] at hl
        exact (Links.linked_cons_cons.mp hl).1.2
    have hxfront : x ≠ E.next (.head k) := by
      rw [hnext]
      cases hLk : L k with
      | nil =>
        rintro rfl
        rcases hx with h1 | ⟨_, _, h1⟩ | h1 <;> cases h1
        exact hj rfl
      | cons q l =>
        rintro rfl
        rcases hx with h1 | ⟨_, hq, h1⟩ | h1 <;> cases h1
        exact hj (h.inj hq (by simp [hLk]))
    have hfront : E.next (.head k) ≠ .node p := by
      rw [hnext]
      cases hLk : L k with
      | nil => simp
      | cons q l =>
        rintro h1
        cases h1
        exact hp k (by simp [hLk])
    simp only [freeLists, Links.insertBefore, Links.setPrev_next, Links.setNext_next,
      Links.setNext_prev, Links.setPrev_prev, if_neg hfront, hprev, if_neg hxhead, if_neg hxp,
      if_neg hxfront, and_self]
  · intro q hq j hj hqj
    rcases List.mem_cons.mp hq with rfl | hq
    · exact hp j hqj
    · exact hj (h.inj hqj hq)

/-- Writing the links of an element that is on no list changes no list. -/
theorem clear (hp : ∀ k, p ∉ L k) : FreeLists ((E.setPrev (.node p) .null).setNext (.node p) .null) L where
  isList k hk :=
    have hne : ElemPtr.node p ∉
        (freeLists k).head :: ((L k).map ElemPtr.node ++ [(freeLists k).tail]) :=
      fun hmem => hp k (node_mem_chain.mp hmem)
    ((h.isList k hk).setPrev_of_not_mem _ hne).setNext_of_not_mem _ hne
  beyond := h.beyond
  inj := h.inj

end Moves

/-- After `list_init` of all of them, the lists are empty. -/
theorem init (E : Links ElemPtr) : FreeLists (Pmem.initLists E (BUDDY_MAX_ORDER + 1)) fun _ => [] where
  isList k hk := by
    have hgen : ∀ n, k < n → IsList .null (Pmem.initLists E n) (freeLists k) [] := by
      intro n
      induction n with
      | zero => intro h; omega
      | succ n ih =>
        intro hlt
        by_cases hkn : k = n
        · subst hkn
          exact IsList.listInit (by simp [freeLists]) (by simp [freeLists]) (by simp [freeLists])
        · refine (ih (by omega)).congr ?_ ?_ <;> intro x hx <;>
            simp only [freeLists, List.nil_append, List.mem_cons, List.not_mem_nil,
              or_false] at hx <;>
            rcases hx with rfl | rfl <;>
            simp [Pmem.initLists, SC7.listInit, freeLists, hkn]
    exact hgen _ (by omega)
  beyond _ _ := rfl
  inj h _ := by cases h

/-- The list of pages that following `next` finds. -/
theorem walk_eq (h : FreeLists E L) (hk : k ≤ BUDDY_MAX_ORDER) {fuel : Nat}
    (hfuel : (L k).length ≤ fuel) :
    E.walk (.tail k) fuel (listBegin E (freeLists k)) = some ((L k).map .node) :=
  (h.isList k hk).walk_eq (by simpa using hfuel)

end FreeLists

end SC7
