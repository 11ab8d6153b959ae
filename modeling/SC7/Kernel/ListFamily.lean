-- SUMMARY: Families of intrusive lists (`list.c`): elements that move between lists with headers of their own, and what each operation leaves alone.
import SC7.Kernel.List

/-!
# Families of lists

Several lists over one store of links. As long as no two share a node, an operation on one of them leaves
the others as they are. A list of the family may not be initialised yet.
-/

namespace SC7

variable {ρ ι : Type*} [DecidableEq ρ] [DecidableEq ι]

/-- The nodes that a list with the elements `xs` uses. -/
def KList.nodes (l : KList ρ) (xs : List ρ) : List ρ := l.head :: (xs ++ [l.tail])

omit [DecidableEq ρ] in
theorem KList.mem_nodes {l : KList ρ} {xs : List ρ} {x : ρ} : x ∈ l.nodes xs ↔ x = l.head ∨ x ∈ xs ∨ x = l.tail := by
  rw [nodes, List.mem_cons, List.mem_append, List.mem_singleton]

/-! ## One list -/

namespace IsList

variable {null : ρ} {L L' : Links ρ} {l : KList ρ} {xs ys : List ρ} {e : ρ}

/-- A list has its elements only once. -/
theorem unique (h : IsList null L l xs) (h' : IsList null L l ys) : xs = ys := by
  have hwalk := h.walk_eq (Nat.le_max_left xs.length ys.length)
  have hwalk' := h'.walk_eq (Nat.le_max_right xs.length ys.length)
  exact Option.some.inj (hwalk.symm.trans hwalk')

omit [DecidableEq ρ] in
theorem agree (h : IsList null L l xs) {O : List ρ} (hagree : Links.AgreeOff O L L')
    (hO : ∀ x ∈ l.nodes xs, x ∉ O) : IsList null L' l xs :=
  h.congr (fun x hx => (hagree x (hO x hx)).1) fun x hx => (hagree x (hO x hx)).2

omit [DecidableEq ρ] in
/-- The neighbours of an element are nodes of its list. -/
theorem neighbours (h : IsList null L l (xs ++ e :: ys)) :
    L.prev e ∈ l.nodes (xs ++ e :: ys) ∧ L.next e ∈ l.nodes (xs ++ e :: ys) := by
  obtain ⟨as, p, n, bs, -, -, heq, -, hl⟩ := h.split
  obtain ⟨-, ⟨-, hprev⟩, hr⟩ := Links.linked_append_cons_cons.mp hl
  obtain ⟨⟨hnext, -⟩, -⟩ := Links.linked_cons_cons.mp hr
  rw [KList.nodes, heq, hprev, hnext]
  exact ⟨by simp, by simp⟩

omit [DecidableEq ρ] in
/-- The node after an element is the next element or the tail. -/
theorem next_eq (h : IsList null L l (xs ++ e :: ys)) : L.next e = (ys ++ [l.tail]).head (by simp) := by
  obtain ⟨as, p, n, bs, -, hn, -, -, hl⟩ := h.split
  obtain ⟨-, -, hr⟩ := Links.linked_append_cons_cons.mp hl
  obtain ⟨⟨hnext, -⟩, -⟩ := Links.linked_cons_cons.mp hr
  simp only [hnext, hn, List.head_cons]

omit [DecidableEq ρ] in
/-- The node before the front is the head. -/
theorem prev_next_head (h : IsList null L l xs) : L.next l.head ∈ l.nodes xs ∧ L.prev (L.next l.head) = l.head := by
  have hl := h.linked
  rw [KList.nodes]
  cases xs with
  | nil =>
    obtain ⟨⟨hnext, hprev⟩, -⟩ := Links.linked_cons_cons.mp hl
    rw [hnext, hprev]
    exact ⟨by simp, rfl⟩
  | cons x xs =>
    obtain ⟨⟨hnext, hprev⟩, -⟩ := Links.linked_cons_cons.mp hl
    rw [hnext, hprev]
    exact ⟨by simp, rfl⟩

/-- Pushing a new element to the back puts it there and succeeds. -/
theorem listPushBack (h : IsList null L l xs) (he : e ∉ l.nodes xs) (hnull : e ≠ null) :
    ∃ L', listPushBack null L l e = some L' ∧ L' = L.insertBefore l.tail e ∧ IsList null L' l (xs ++ [e]) ∧
      L.prev l.tail ∈ l.nodes xs := by
  obtain ⟨as, p, hp⟩ : ∃ as p, l.head :: xs = as ++ [p] :=
    ⟨_, _, (List.dropLast_append_getLast (by simp : l.head :: xs ≠ [])).symm⟩
  have hchain : l.head :: (xs ++ [l.tail]) = as ++ p :: l.tail :: [] := by
    rw [← List.cons_append, hp]
    simp
  have hl := h.linked
  rw [hchain] at hl
  obtain ⟨-, ⟨hpt, htp⟩, -⟩ := Links.linked_append_cons_cons.mp hl
  have hnull' := h.nonnull
  rw [hchain] at hnull'
  have htail : l.tail ≠ null := by
    rintro hh
    exact hnull' (by simp [hh])
  have hpn : p ≠ null := by
    rintro rfl
    exact hnull' (by simp)
  have hassert : ((isInterior null L l.tail || isTail null L l.tail) && e != null) = true := by
    simp [isInterior, isTail, htp, h.tail_next, htail, hpn, hnull]
  have hnd := h.nodup
  rw [hchain] at hnd
  have he' : e ∉ as ++ p :: l.tail :: [] := by
    rw [← hchain]
    exact he
  have hlink := hl.insertBefore (hnd.sublist (List.dropLast_sublist _)) (hnd.sublist (List.tail_sublist _)) he'
  have hnew : l.head :: (xs ++ [e] ++ [l.tail]) = as ++ p :: e :: l.tail :: [] := by
    rw [List.append_assoc, ← List.cons_append, hp]
    simp
  have hne : ∀ x ∈ l.nodes xs, x ≠ e := fun x hx hxe => he (hxe ▸ hx)
  have hht : l.head ≠ l.tail := by
    intro h'
    exact (List.nodup_cons.mp h.nodup).1 (by simp [h'])
  have hptail : p ≠ l.tail := by
    intro h'
    have := (List.nodup_append.mp hnd).2.1
    simp [h'] at this
  refine ⟨L.insertBefore l.tail e, ?_, rfl, ⟨?_, ?_, ?_, ?_, ?_⟩, ?_⟩
  · rw [SC7.listPushBack, listInsert, listEnd, if_pos hassert]
  · rw [hnew]
    exact hlink
  · simp [Links.insertBefore, hht, hne l.head (by simp [KList.nodes]), h.head_prev]
  · simp [Links.insertBefore, hne l.tail (by simp [KList.nodes]), htp, Ne.symm hptail, h.tail_next]
  · rw [hnew]
    have hnd' : (e :: (as ++ p :: l.tail :: [])).Nodup := List.nodup_cons.mpr ⟨he', hnd⟩
    have hperm : (as ++ p :: e :: l.tail :: []).Perm (e :: (as ++ p :: l.tail :: [])) := by
      have hmiddle : (as ++ [p] ++ e :: [l.tail]).Perm (e :: (as ++ [p] ++ [l.tail])) := List.perm_middle
      simpa using hmiddle
    exact hperm.nodup_iff.mpr hnd'
  · rw [hnew]
    simp only [List.mem_append, List.mem_cons, not_or] at hnull' ⊢
    exact ⟨hnull'.1, hnull'.2.1, Ne.symm hnull, hnull'.2.2⟩
  · rw [KList.nodes, hchain, htp]
    simp

end IsList

/-! ## Several lists -/

/-- The lists with the given headers have the given elements, if any yet, and no two share a node. -/
structure ListFamily (null : ρ) (L : Links ρ) (header : ι → KList ρ) (elems : ι → Option (List ρ)) : Prop where
  isList : ∀ i xs, elems i = some xs → IsList null L (header i) xs
  apart : ∀ i j xs ys, i ≠ j → elems i = some xs → elems j = some ys →
    ∀ x ∈ (header i).nodes xs, x ∉ (header j).nodes ys

namespace ListFamily

open Function (update)

variable {null : ρ} {L L' : Links ρ} {header : ι → KList ρ} {elems : ι → Option (List ρ)} {i : ι} {xs ys : List ρ}
  {e : ρ}

omit [DecidableEq ρ] [DecidableEq ι] in
/-- Lists may be given up. -/
theorem mono {elems' : ι → Option (List ρ)} (h : ListFamily null L header elems)
    (hle : ∀ i xs, elems' i = some xs → elems i = some xs) : ListFamily null L header elems' where
  isList := fun i xs hi => h.isList i xs (hle i xs hi)
  apart := fun i j xs ys hij hi hj => h.apart i j xs ys hij (hle i xs hi) (hle j ys hj)

omit [DecidableEq ρ] in
/-- Changing one list by writing only nodes that no other list uses. -/
theorem update (h : ListFamily null L header elems) {O : List ρ} (hagree : Links.AgreeOff O L L')
    (hO : ∀ j ys, j ≠ i → elems j = some ys → ∀ x ∈ O, x ∉ (header j).nodes ys)
    (hnew : IsList null L' (header i) xs) (hsub : ∀ x ∈ (header i).nodes xs, x ∈ O) :
    ListFamily null L' header (update elems i (some xs)) where
  isList := by
    intro j ys hj
    by_cases hji : j = i
    · subst hji
      rw [Function.update_self] at hj
      cases hj
      exact hnew
    · rw [Function.update_of_ne hji] at hj
      exact (h.isList j ys hj).agree hagree fun x hx hxO => hO j ys hji hj x hxO hx
  apart := by
    intro j k ys zs hjk hj hk x hx
    by_cases hji : j = i
    · subst hji
      rw [Function.update_self] at hj
      cases hj
      rw [Function.update_of_ne (Ne.symm hjk)] at hk
      exact hO k zs (Ne.symm hjk) hk x (hsub x hx)
    · rw [Function.update_of_ne hji] at hj
      by_cases hki : k = i
      · subst hki
        rw [Function.update_self] at hk
        cases hk
        exact fun hxk => hO j ys hji hj x (hsub x hxk) hx
      · rw [Function.update_of_ne hki] at hk
        exact h.apart j k ys zs hjk hj hk x hx

theorem listRemove (h : ListFamily null L header elems) (hi : elems i = some (xs ++ e :: ys)) :
    ∃ L', listRemove null L e = some L' ∧ ListFamily null L' header (Function.update elems i (some (xs ++ ys))) := by
  have hlist := h.isList i _ hi
  obtain ⟨L', hrem, rfl, hnew⟩ := hlist.listRemove
  obtain ⟨hprev, hnext⟩ := hlist.neighbours
  refine ⟨_, hrem, h.update (Links.AgreeOff.unlink hprev hnext) ?_ hnew ?_⟩
  · exact fun j zs hj hz x hx => h.apart i j _ zs (Ne.symm hj) hi hz x hx
  · intro x hx
    simp only [KList.mem_nodes, List.mem_append, List.mem_cons] at hx ⊢
    tauto

theorem listPopFront (h : ListFamily null L header elems) (hi : elems i = some (e :: xs)) :
    ∃ L', listPopFront null L (header i) = some (e, L') ∧
      ListFamily null L' header (Function.update elems i (some xs)) := by
  have hi' : elems i = some ([] ++ e :: xs) := hi
  obtain ⟨L', hpop, rfl, -⟩ := (h.isList i _ hi).listPopFront
  obtain ⟨L', hrem, hnew⟩ := h.listRemove hi'
  obtain ⟨-, hrem', rfl, -⟩ := (h.isList i _ hi').listRemove
  cases hrem.symm.trans hrem'
  exact ⟨_, hpop, hnew⟩

/-- The node is in no list. -/
def Fresh (header : ι → KList ρ) (elems : ι → Option (List ρ)) (e : ρ) : Prop :=
  ∀ j xs, elems j = some xs → e ∉ (header j).nodes xs

theorem listPushFront (h : ListFamily null L header elems) (hi : elems i = some xs) (he : Fresh header elems e)
    (hnull : e ≠ null) :
    ∃ L', listPushFront null L (header i) e = some L' ∧
      ListFamily null L' header (Function.update elems i (some (e :: xs))) := by
  have hlist := h.isList i xs hi
  obtain ⟨L', hpush, rfl, hnew⟩ := hlist.listPushFront (he i xs hi) hnull
  obtain ⟨hfront, hprev⟩ := hlist.prev_next_head
  have hagree : Links.AgreeOff (e :: (header i).nodes xs) L (L.insertBefore (L.next (header i).head) e) := by
    refine Links.AgreeOff.insertBefore List.mem_cons_self (List.mem_cons_of_mem _ hfront) (List.mem_cons_of_mem _ ?_)
    rw [hprev]
    exact List.mem_cons_self
  refine ⟨_, hpush, h.update hagree ?_ hnew ?_⟩
  · intro j zs hj hz x hx
    rcases List.mem_cons.mp hx with rfl | hx
    · exact he j zs hz
    · exact h.apart i j xs zs (Ne.symm hj) hi hz x hx
  · intro x hx
    simp only [KList.mem_nodes, List.mem_cons] at hx ⊢
    tauto

theorem listPushBack (h : ListFamily null L header elems) (hi : elems i = some xs) (he : Fresh header elems e)
    (hnull : e ≠ null) :
    ∃ L', listPushBack null L (header i) e = some L' ∧
      ListFamily null L' header (Function.update elems i (some (xs ++ [e]))) := by
  have hlist := h.isList i xs hi
  obtain ⟨L', hpush, rfl, hnew, hprev⟩ := hlist.listPushBack (he i xs hi) hnull
  have htail : (header i).tail ∈ (header i).nodes xs := KList.mem_nodes.mpr (Or.inr (Or.inr rfl))
  have hagree : Links.AgreeOff (e :: (header i).nodes xs) L (L.insertBefore (header i).tail e) :=
    Links.AgreeOff.insertBefore List.mem_cons_self (List.mem_cons_of_mem _ htail) (List.mem_cons_of_mem _ hprev)
  refine ⟨_, hpush, h.update hagree ?_ hnew ?_⟩
  · intro j zs hj hz x hx
    rcases List.mem_cons.mp hx with rfl | hx
    · exact he j zs hz
    · exact h.apart i j xs zs (Ne.symm hj) hi hz x hx
  · intro x hx
    simp only [KList.mem_nodes, List.mem_append, List.mem_cons, List.not_mem_nil, or_false] at hx ⊢
    tauto

/-- A list whose header no other list uses may be initialised at any time. -/
theorem listInit (h : ListFamily null L header elems) (hne : (header i).head ≠ (header i).tail)
    (hhead : (header i).head ≠ null) (htail : (header i).tail ≠ null)
    (hfresh : ∀ j xs, j ≠ i → elems j = some xs →
      (header i).head ∉ (header j).nodes xs ∧ (header i).tail ∉ (header j).nodes xs) :
    ListFamily null (listInit null L (header i)) header (Function.update elems i (some [])) := by
  have hagree : Links.AgreeOff ((header i).nodes []) L (SC7.listInit null L (header i)) := by
    have hh : (header i).head ∈ (header i).nodes [] := KList.mem_nodes.mpr (Or.inl rfl)
    have ht : (header i).tail ∈ (header i).nodes [] := KList.mem_nodes.mpr (Or.inr (Or.inr rfl))
    exact ((((Links.AgreeOff.refl _ L).setPrev hh null).setNext hh _).setPrev ht _).setNext ht null
  refine h.update hagree ?_ (IsList.listInit hne hhead htail) fun x hx => hx
  intro j zs hj hz x hx
  simp only [KList.mem_nodes, List.not_mem_nil, false_or] at hx
  rcases hx with rfl | rfl
  · exact (hfresh j zs hj hz).1
  · exact (hfresh j zs hj hz).2

end ListFamily

end SC7
