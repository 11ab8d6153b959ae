-- SUMMARY: The kernel's intrusive lists (`list.c`): the operations on links and the list of elements they represent.
import SC7.Base.Links

/-!
# Intrusive lists

The doubly linked lists of `list.c`. An element is embedded in its structure and
only holds two pointers; a list is its two header elements, `head` and `tail`. The
pointers are of an arbitrary type `ρ` with a `null`, and a failed `ASSERT` is `none`.
-/

namespace SC7

variable {ρ : Type*} [DecidableEq ρ]

/-- `struct list`: the addresses of its two header elements. -/
structure KList (ρ : Type*) where
  head : ρ
  tail : ρ

/-! ## The operations -/

section Operations

variable (null : ρ) (L : Links ρ)

def isInterior (e : ρ) : Bool := e != null && L.prev e != null && L.next e != null

def isTail (e : ρ) : Bool := e != null && L.prev e != null && L.next e == null

def listInit (l : KList ρ) : Links ρ :=
  (((L.setPrev l.head null).setNext l.head l.tail).setPrev l.tail l.head).setNext l.tail null

def listBegin (l : KList ρ) : ρ := L.next l.head

def listEnd (l : KList ρ) : ρ := l.tail

def listEmpty (l : KList ρ) : Bool := listBegin L l == listEnd l

/-- Inserts `e` just before `before`, an interior element or a tail. -/
def listInsert (before e : ρ) : Option (Links ρ) :=
  if (isInterior null L before || isTail null L before) && e != null then
    some (L.insertBefore before e)
  else none

def listPushFront (l : KList ρ) (e : ρ) : Option (Links ρ) := listInsert null L (listBegin L l) e

def listPushBack (l : KList ρ) (e : ρ) : Option (Links ρ) := listInsert null L (listEnd l) e

/-- Unlinks `e`, which must be an interior element. -/
def listRemove (e : ρ) : Option (Links ρ) :=
  if isInterior null L e then some (L.unlink e) else none

/-- Removes the front element and returns it; the list must not be empty. -/
def listPopFront (l : KList ρ) : Option (ρ × Links ρ) :=
  if listEmpty L l then none else (listRemove null L (L.next l.head)).map (L.next l.head, ·)

end Operations

/-! ## The elements of a list -/

/-- The list `l` is well formed and its elements are `xs`, from front to back. -/
structure IsList (null : ρ) (L : Links ρ) (l : KList ρ) (xs : List ρ) : Prop where
  linked : L.Linked (l.head :: (xs ++ [l.tail]))
  head_prev : L.prev l.head = null
  tail_next : L.next l.tail = null
  nodup : (l.head :: (xs ++ [l.tail])).Nodup
  nonnull : null ∉ l.head :: (xs ++ [l.tail])

namespace IsList

variable {null : ρ} {L L' : Links ρ} {l : KList ρ} {xs : List ρ} {e : ρ}

omit [DecidableEq ρ] in
/-- Frame: a list only reads the links of its own elements. -/
theorem congr (h : IsList null L l xs) (hnext : ∀ x ∈ l.head :: (xs ++ [l.tail]), L'.next x = L.next x)
    (hprev : ∀ x ∈ l.head :: (xs ++ [l.tail]), L'.prev x = L.prev x) : IsList null L' l xs where
  linked := h.linked.congr (fun x hx => hnext x (List.dropLast_subset _ hx))
    (fun x hx => hprev x (List.mem_of_mem_tail hx))
  head_prev := by rw [hprev _ (by simp), h.head_prev]
  tail_next := by rw [hnext _ (by simp), h.tail_next]
  nodup := h.nodup
  nonnull := h.nonnull

theorem setNext_of_not_mem (h : IsList null L l xs) {x : ρ} (y : ρ)
    (hx : x ∉ l.head :: (xs ++ [l.tail])) : IsList null (L.setNext x y) l xs :=
  h.congr (fun z hz => by rw [Links.setNext_next, if_neg (ne_of_mem_of_not_mem hz hx)]) (fun _ _ => rfl)

theorem setPrev_of_not_mem (h : IsList null L l xs) {x : ρ} (y : ρ)
    (hx : x ∉ l.head :: (xs ++ [l.tail])) : IsList null (L.setPrev x y) l xs :=
  h.congr (fun _ _ => rfl) (fun z hz => by rw [Links.setPrev_prev, if_neg (ne_of_mem_of_not_mem hz hx)])

omit [DecidableEq ρ] in
theorem next_head (h : IsList null L l xs) : L.next l.head = (xs ++ [l.tail]).head (by simp) := by
  have hl := h.linked
  cases xs with
  | nil => exact (Links.linked_cons_cons.mp hl).1.1
  | cons x xs => exact (Links.linked_cons_cons.mp hl).1.1

omit [DecidableEq ρ] in
theorem tail_not_mem (h : IsList null L l xs) : l.tail ∉ xs := by
  intro hmem
  have hnd := (List.nodup_cons.mp h.nodup).2
  exact (List.nodup_append.mp hnd).2.2 _ hmem _ (by simp) rfl

omit [DecidableEq ρ] in
/-- An element splits the chain of its list, with one neighbour on each side. -/
theorem split (h : IsList null L l (xs ++ e :: ys)) :
    ∃ as p n bs, l.head :: xs = as ++ [p] ∧ ys ++ [l.tail] = n :: bs ∧
      l.head :: (xs ++ e :: ys ++ [l.tail]) = as ++ p :: e :: n :: bs ∧
      l.head :: (xs ++ ys ++ [l.tail]) = as ++ p :: n :: bs ∧
      L.Linked (as ++ p :: e :: n :: bs) := by
  obtain ⟨as, p, hp⟩ : ∃ as p, l.head :: xs = as ++ [p] :=
    ⟨_, _, (List.dropLast_append_getLast (by simp : l.head :: xs ≠ [])).symm⟩
  obtain ⟨n, bs, hn⟩ : ∃ n bs, ys ++ [l.tail] = n :: bs := by
    cases ys with
    | nil => exact ⟨_, _, rfl⟩
    | cons y ys => exact ⟨_, _, rfl⟩
  have heq : l.head :: (xs ++ e :: ys ++ [l.tail]) = as ++ p :: e :: n :: bs := by
    calc l.head :: (xs ++ e :: ys ++ [l.tail]) = (l.head :: xs) ++ e :: (ys ++ [l.tail]) := by simp
      _ = as ++ p :: e :: n :: bs := by rw [hp, hn]; simp
  have heq' : l.head :: (xs ++ ys ++ [l.tail]) = as ++ p :: n :: bs := by
    calc l.head :: (xs ++ ys ++ [l.tail]) = (l.head :: xs) ++ (ys ++ [l.tail]) := by simp
      _ = as ++ p :: n :: bs := by rw [hp, hn]; simp
  exact ⟨as, p, n, bs, hp, hn, heq, heq', heq ▸ h.linked⟩

/-- `walk` from the front computes the elements. -/
theorem walk_eq (h : IsList null L l xs) {fuel : Nat} (hfuel : xs.length ≤ fuel) :
    L.walk l.tail fuel (listBegin L l) = some xs :=
  h.linked.walk_eq h.tail_not_mem hfuel

theorem empty_iff (h : IsList null L l xs) : listEmpty L l = true ↔ xs = [] := by
  rw [listEmpty, listBegin, listEnd, h.next_head, beq_iff_eq]
  cases xs with
  | nil => simp
  | cons x xs =>
    have hx : x ≠ l.tail := by
      rintro rfl
      exact (List.nodup_cons.mp (List.nodup_cons.mp h.nodup).2).1 (by simp)
    simpa using hx

/-- Every element has two neighbours, so it is interior. -/
theorem isInterior_of_mem (h : IsList null L l xs) (he : e ∈ xs) : isInterior null L e = true := by
  obtain ⟨xs, ys, rfl⟩ := List.append_of_mem he
  obtain ⟨as, p, n, bs, -, -, heq, -, hl⟩ := h.split
  obtain ⟨-, ⟨hpe, hep⟩, hr⟩ := Links.linked_append_cons_cons.mp hl
  obtain ⟨⟨hen, hne⟩, -⟩ := Links.linked_cons_cons.mp hr
  have hnull := h.nonnull
  rw [heq] at hnull
  simp only [isInterior, Bool.and_eq_true, bne_iff_ne, hep, hen]
  refine ⟨⟨?_, ?_⟩, ?_⟩ <;> rintro rfl <;> exact hnull (by simp)

/-- Nothing but the headers, when the two header elements are distinct. -/
theorem listInit {l : KList ρ} (hne : l.head ≠ l.tail) (hhead : l.head ≠ null)
    (htail : l.tail ≠ null) : IsList null (listInit null L l) l [] where
  linked := by
    rw [List.nil_append, Links.linked_cons_cons]
    refine ⟨⟨?_, ?_⟩, by simp⟩ <;> simp [SC7.listInit, hne]
  head_prev := by simp [SC7.listInit, hne]
  tail_next := by simp [SC7.listInit]
  nodup := by simp [hne]
  nonnull := by simp [Ne.symm hhead, Ne.symm htail]

/-- Pushing a new element puts it at the front and succeeds. -/
theorem listPushFront (h : IsList null L l xs) (he : e ∉ l.head :: (xs ++ [l.tail])) (hnull : e ≠ null) :
    ∃ L', listPushFront null L l e = some L' ∧ L' = L.insertBefore (L.next l.head) e ∧
      IsList null L' l (e :: xs) := by
  obtain ⟨b, bs, hb⟩ : ∃ b bs, xs ++ [l.tail] = b :: bs := by
    cases xs with
    | nil => exact ⟨_, _, rfl⟩
    | cons y ys => exact ⟨_, _, rfl⟩
  have hl := h.linked
  rw [hb] at hl
  have hnext : L.next l.head = b := (Links.linked_cons_cons.mp hl).1.1
  have hprev : L.prev b = l.head := (Links.linked_cons_cons.mp hl).1.2
  have hbn : b ≠ null := by
    rintro rfl
    exact h.nonnull (by simp [hb])
  have hhn : l.head ≠ null := fun hh => h.nonnull (by simp [hh])
  have hassert : ((isInterior null L b || isTail null L b) && e != null) = true := by
    simp only [isInterior, isTail, hprev]
    cases hnn : L.next b == null <;> simp [hbn, hhn, hnull, bne, hnn]
  refine ⟨L.insertBefore b e, ?_, by rw [hnext], ?_⟩
  · rw [SC7.listPushFront, listInsert, listBegin, hnext, if_pos hassert]
  have hnd := h.nodup
  rw [hb] at hnd
  have he' : e ∉ [] ++ l.head :: b :: bs := by simpa [hb] using he
  have hl' : L.Linked ([] ++ l.head :: b :: bs) := hl
  have hlink := hl'.insertBefore (hnd.sublist (List.dropLast_sublist _)) (List.nodup_cons.mp hnd).2 he'
  have hne : ∀ x ∈ l.head :: (xs ++ [l.tail]), x ≠ e := fun x hx hxe => he (hxe ▸ hx)
  refine ⟨by simpa [hb] using hlink, ?_, ?_, ?_, ?_⟩
  · have h1 : l.head ≠ b := fun h => (List.nodup_cons.mp hnd).1 (by simp [h])
    simp [Links.insertBefore, h1, hne l.head (by simp), h.head_prev]
  · have h1 : l.tail ≠ l.head := by
      intro h'
      exact (List.nodup_cons.mp h.nodup).1 (by simp [h'])
    have h2 : b ≠ e := hne b (by simp [hb])
    simp [Links.insertBefore, hne l.tail (by simp), h1, h.tail_next, h2, hprev]
  · have : (e :: (l.head :: (xs ++ [l.tail]))).Nodup := List.nodup_cons.mpr ⟨he, h.nodup⟩
    exact (List.Perm.swap _ _ _).nodup_iff.mp this
  · have hn := h.nonnull
    simp only [List.mem_cons, List.cons_append, not_or] at hn ⊢
    exact ⟨hn.1, Ne.symm hnull, hn.2⟩

/-- Removing an element succeeds and leaves the others in order. -/
theorem listRemove {ys : List ρ} (h : IsList null L l (xs ++ e :: ys)) :
    ∃ L', listRemove null L e = some L' ∧ L' = L.unlink e ∧ IsList null L' l (xs ++ ys) := by
  refine ⟨L.unlink e, ?_, rfl, ?_⟩
  · rw [SC7.listRemove, if_pos (h.isInterior_of_mem (by simp))]
  obtain ⟨as, p, n, bs, hp, hn, heq, heq', hl⟩ := h.split
  have hnd := h.nodup
  rw [heq] at hnd
  have hsub : (l.head :: (xs ++ ys ++ [l.tail])).Sublist (l.head :: (xs ++ e :: ys ++ [l.tail])) := by
    rw [List.append_assoc, List.append_assoc]
    exact List.Sublist.cons_cons _ ((List.Sublist.refl _).append (List.sublist_cons_self _ _))
  obtain ⟨-, ⟨hpe, hep⟩, hr⟩ := Links.linked_append_cons_cons.mp hl
  obtain ⟨⟨hen, hne⟩, -⟩ := Links.linked_cons_cons.mp hr
  -- the two headers keep their outer links: neither is the neighbour that is written
  have hhn : l.head ≠ n := by
    intro h'
    have : l.head ∈ ys ++ [l.tail] := by rw [hn, h']; simp
    exact (List.nodup_cons.mp h.nodup).1 (by simp at this ⊢; tauto)
  have htp : l.tail ≠ p := by
    intro h'
    have hmem : l.tail ∈ l.head :: xs := by rw [hp, h']; simp
    have hnd' : (l.head :: xs ++ (e :: ys ++ [l.tail])).Nodup := by simpa using h.nodup
    exact (List.nodup_append.mp hnd').2.2 _ hmem _ (by simp) rfl
  have hnext : (L.setNext p n).next e = n := by
    rw [Links.setNext_next, hen]
    split <;> rfl
  refine ⟨?_, ?_, ?_, h.nodup.sublist hsub, fun hm => h.nonnull (hsub.subset hm)⟩
  · rw [heq']
    exact hl.unlink (hnd.sublist (List.dropLast_sublist _)) (hnd.sublist (List.tail_sublist _))
  · simp only [Links.unlink, Links.setPrev_prev, Links.setNext_prev, hep, hen, hnext, if_neg hhn, h.head_prev]
  · simp only [Links.unlink, Links.setPrev_next, Links.setNext_next, hep, if_neg htp, h.tail_next]

/-- Popping the front of a non-empty list succeeds. -/
theorem listPopFront (h : IsList null L l (e :: xs)) :
    ∃ L', listPopFront null L l = some (e, L') ∧ L' = L.unlink e ∧ IsList null L' l xs := by
  have h' : IsList null L l ([] ++ e :: xs) := h
  obtain ⟨L', hrem, hL', hlist⟩ := h'.listRemove
  refine ⟨L', ?_, hL', hlist⟩
  have hne : listEmpty L l = false := by
    rw [Bool.eq_false_iff, ne_eq, h.empty_iff]
    simp
  have hnext : L.next l.head = e := h.next_head
  rw [SC7.listPopFront, hne, hnext, hrem]
  rfl

end IsList

end SC7
