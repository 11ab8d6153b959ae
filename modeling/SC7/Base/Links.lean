-- SUMMARY: Doubly linked chains in a store of `prev`/`next` links: splicing a node in and out, and the frame of both.
import Mathlib.Data.List.Chain
import Mathlib.Data.List.Nodup

/-!
# Doubly linked chains

A store gives every node a `prev` and a `next` node. `Linked L l` says that the
nodes of `l`, in this order, are linked to each other in both directions. A list
between two sentinels is `Linked L (head :: l ++ [tail])` and a ring with the
anchor `h` is `Linked L (h :: l ++ [h])`, so one set of lemmas serves both.
-/

/-- The `prev` and `next` fields of every node. -/
structure Links (α : Type*) where
  prev : α → α
  next : α → α

namespace Links

variable {α : Type*} [DecidableEq α] {L L' : Links α} {x y p b e : α} {l l₁ l₂ : List α}

/-- `x->next = y`. -/
def setNext (L : Links α) (x y : α) : Links α :=
  { L with next := Function.update L.next x y }

/-- `x->prev = y`. -/
def setPrev (L : Links α) (x y : α) : Links α :=
  { L with prev := Function.update L.prev x y }

@[simp] theorem setNext_next (L : Links α) (x y z : α) :
    (L.setNext x y).next z = if z = x then y else L.next z := by
  simp [setNext, Function.update_apply]

@[simp] theorem setNext_prev (L : Links α) (x y z : α) : (L.setNext x y).prev z = L.prev z := rfl

@[simp] theorem setPrev_prev (L : Links α) (x y z : α) :
    (L.setPrev x y).prev z = if z = x then y else L.prev z := by
  simp [setPrev, Function.update_apply]

@[simp] theorem setPrev_next (L : Links α) (x y z : α) : (L.setPrev x y).next z = L.next z := rfl

/-- Splice `e` in just before `b`, in the order of the four assignments of the C idiom. -/
def insertBefore (L : Links α) (b e : α) : Links α :=
  let L := L.setPrev e (L.prev b)
  let L := L.setNext e b
  let L := L.setNext (L.prev b) e
  L.setPrev b e

/-- Splice `e` in just after `a`. -/
def insertAfter (L : Links α) (a e : α) : Links α :=
  let L := L.setPrev e a
  let L := L.setNext e (L.next a)
  let L := L.setPrev (L.next a) e
  L.setNext a e

/-- Splice `e` in where `v` was, whose own links still name the two neighbours. -/
def takePlace (L : Links α) (v e : α) : Links α :=
  let L := L.setPrev e (L.prev v)
  let L := L.setNext e (L.next v)
  let L := L.setNext (L.prev v) e
  L.setPrev (L.next v) e

/-- Unlink `e` from its neighbours; its own links stay as they were. -/
def unlink (L : Links α) (e : α) : Links α :=
  let L := L.setNext (L.prev e) (L.next e)
  L.setPrev (L.next e) (L.prev e)

/-- Following `next` from `e` reaches `stop` after exactly the nodes returned; `none` if
that takes more than `fuel` steps. -/
def walk (L : Links α) (stop : α) : Nat → α → Option (List α)
  | 0, e => if e = stop then some [] else none
  | fuel + 1, e => if e = stop then some [] else (L.walk stop fuel (L.next e)).map (e :: ·)

/-- Following `step` from `x`, the first node with `p` before `stop`, if there is one; `none` if `fuel` runs out. -/
def seek (step : α → α) (stop : α) (p : α → Bool) : Nat → α → Option (Option α)
  | 0, _ => none
  | fuel + 1, x => if x = stop then some none else if p x then some (some x) else seek step stop p fuel (step x)

/-- The links the other way round. -/
def flip (L : Links α) : Links α := ⟨L.next, L.prev⟩

/-- The nodes of the list are linked to each other, in this order and both ways. -/
def Linked (L : Links α) (l : List α) : Prop := l.IsChain fun x y => L.next x = y ∧ L.prev y = x

omit [DecidableEq α] in
@[simp] theorem linked_nil (L : Links α) : L.Linked [] := List.IsChain.nil

omit [DecidableEq α] in
@[simp] theorem linked_singleton (L : Links α) (x : α) : L.Linked [x] := List.IsChain.singleton x

omit [DecidableEq α] in
@[simp] theorem linked_cons_cons :
    L.Linked (x :: y :: l) ↔ (L.next x = y ∧ L.prev y = x) ∧ L.Linked (y :: l) :=
  List.isChain_cons_cons

omit [DecidableEq α] in
theorem linked_append_cons_cons : L.Linked (l₁ ++ x :: y :: l₂) ↔
      L.Linked (l₁ ++ [x]) ∧ (L.next x = y ∧ L.prev y = x) ∧ L.Linked (y :: l₂) :=
  List.isChain_append_cons_cons

omit [DecidableEq α] in
/-- Frame: a chain only reads the `next` of its nodes but the last and the `prev` of
its nodes but the first. -/
theorem Linked.congr (h : L.Linked l) (hnext : ∀ x ∈ l.dropLast, L'.next x = L.next x)
    (hprev : ∀ y ∈ l.tail, L'.prev y = L.prev y) : L'.Linked l := by
  induction l with
  | nil => simp
  | cons x l ih =>
    cases l with
    | nil => simp
    | cons y l =>
      rw [linked_cons_cons] at h ⊢
      refine ⟨⟨?_, ?_⟩, ih h.2 ?_ ?_⟩
      · rw [hnext x (by simp), h.1.1]
      · rw [hprev y (by simp), h.1.2]
      · exact fun z hz => hnext z (by simp [hz])
      · exact fun z hz => hprev z (List.mem_of_mem_tail hz)

omit [DecidableEq α] in
/-- In a list whose nodes but the last are distinct, a node with a successor occurs
nowhere else among them. -/
theorem not_mem_of_nodup_dropLast (h : (l₁ ++ p :: b :: l₂).dropLast.Nodup) : p ∉ l₁ ∧ p ∉ (b :: l₂).dropLast := by
  rw [List.dropLast_append_cons, List.dropLast_cons_of_ne_nil (by simp), List.nodup_append,
    List.nodup_cons] at h
  exact ⟨fun hp => h.2.2 p hp p (by simp) rfl, h.2.1.1⟩

omit [DecidableEq α] in
/-- In a list whose nodes but the first are distinct, a node with a predecessor occurs
nowhere else among them. -/
theorem not_mem_of_nodup_tail (h : (l₁ ++ p :: b :: l₂).tail.Nodup) : b ∉ (l₁ ++ [p]).tail ∧ b ∉ l₂ := by
  have htail : (l₁ ++ p :: b :: l₂).tail = (l₁ ++ [p]).tail ++ b :: l₂ := by
    cases l₁ <;> simp
  rw [htail, List.nodup_append, List.nodup_cons] at h
  exact ⟨fun hb => h.2.2 b hb b (by simp) rfl, h.2.1.1⟩

omit [DecidableEq α] in
theorem mem_tail_append (h : x ∈ l₁.tail) : x ∈ (l₁ ++ l₂).tail := by
  cases l₁ with
  | nil => simp at h
  | cons y l => simpa using Or.inl h

/-- A node `e` whose links, and those of its neighbours `p` and `b`, are set so stands between
the two. -/
theorem Linked.splice (h : L.Linked (l₁ ++ p :: b :: l₂))
    (hnext : (l₁ ++ p :: b :: l₂).dropLast.Nodup) (hprev : (l₁ ++ p :: b :: l₂).tail.Nodup)
    (he : e ∉ l₁ ++ p :: b :: l₂)
    (hnext' : ∀ z, L'.next z = if z = p then e else if z = e then b else L.next z)
    (hprev' : ∀ z, L'.prev z = if z = b then e else if z = e then p else L.prev z) :
    L'.Linked (l₁ ++ p :: e :: b :: l₂) := by
  obtain ⟨hl, -, hr⟩ := linked_append_cons_cons.mp h
  simp only [List.mem_append, List.mem_cons, not_or] at he
  obtain ⟨hel, hep, heb, her⟩ := he
  obtain ⟨hpl, hpr⟩ := not_mem_of_nodup_dropLast hnext
  obtain ⟨hbl, hbr⟩ := not_mem_of_nodup_tail hprev
  rw [linked_append_cons_cons, linked_cons_cons]
  refine ⟨hl.congr ?_ ?_, ⟨by simp [hnext'], by simp [hprev', heb]⟩, ⟨by simp [hnext', hep], by simp [hprev']⟩,
    hr.congr ?_ ?_⟩
  · intro x hx
    rw [List.dropLast_concat] at hx
    have hxp : x ≠ p := fun h => hpl (h ▸ hx)
    have hxe : x ≠ e := fun h => hel (h ▸ hx)
    rw [hnext', if_neg hxp, if_neg hxe]
  · intro y hy
    have hyb : y ≠ b := fun h => hbl (h ▸ hy)
    have hye : y ≠ e := by
      rintro rfl
      rcases List.mem_append.mp (List.mem_of_mem_tail hy) with h | h
      · exact hel h
      · exact hep (by simpa using h)
    rw [hprev', if_neg hyb, if_neg hye]
  · intro x hx
    have hxp : x ≠ p := fun h => hpr (h ▸ hx)
    have hxe : x ≠ e := by
      rintro rfl
      rcases List.mem_cons.mp (List.dropLast_subset _ hx) with h | h
      · exact heb h
      · exact her h
    rw [hnext', if_neg hxp, if_neg hxe]
  · intro y hy
    have hyb : y ≠ b := fun h => hbr (h ▸ hy)
    have hye : y ≠ e := fun h => her (h ▸ hy)
    rw [hprev', if_neg hyb, if_neg hye]

/-- Splicing `e` in before `b` puts it between `b` and the node before `b`. -/
theorem Linked.insertBefore (h : L.Linked (l₁ ++ p :: b :: l₂))
    (hnext : (l₁ ++ p :: b :: l₂).dropLast.Nodup) (hprev : (l₁ ++ p :: b :: l₂).tail.Nodup)
    (he : e ∉ l₁ ++ p :: b :: l₂) :
    (L.insertBefore b e).Linked (l₁ ++ p :: e :: b :: l₂) := by
  obtain ⟨-, ⟨-, hbp⟩, -⟩ := linked_append_cons_cons.mp h
  have heb : b ≠ e := fun h => he (by simp [h])
  refine h.splice hnext hprev he ?_ ?_
  · intro z
    simp only [Links.insertBefore, setPrev_next, setNext_next, setNext_prev, setPrev_prev, if_neg heb, hbp]
  · intro z
    simp only [Links.insertBefore, setPrev_prev, setNext_prev, hbp]

/-- Unlinking `e` joins its two neighbours. -/
theorem Linked.unlink (h : L.Linked (l₁ ++ p :: e :: b :: l₂)) (hnext : (l₁ ++ p :: e :: b :: l₂).dropLast.Nodup)
    (hprev : (l₁ ++ p :: e :: b :: l₂).tail.Nodup) :
    (L.unlink e).Linked (l₁ ++ p :: b :: l₂) := by
  obtain ⟨hl, ⟨hpe, hep⟩, hr⟩ := linked_append_cons_cons.mp h
  obtain ⟨⟨heb, hbe⟩, hr⟩ := linked_cons_cons.mp hr
  have hnext' : ∀ z, (L.unlink e).next z = if z = p then b else L.next z := by
    intro z
    simp [Links.unlink, hep, heb]
  have hbe' : (L.setNext p b).next e = b := by
    rw [setNext_next, heb]
    split <;> rfl
  have hprev' : ∀ z, (L.unlink e).prev z = if z = b then p else L.prev z := by
    intro z
    simp only [Links.unlink, setPrev_prev, setNext_prev, hep, heb, hbe']
  obtain ⟨hpl, hpr⟩ := not_mem_of_nodup_dropLast hnext
  obtain ⟨hbl, hbr⟩ : b ∉ (l₁ ++ [p]).tail ∧ b ∉ l₂ := by
    have heq : l₁ ++ p :: e :: b :: l₂ = (l₁ ++ [p]) ++ e :: b :: l₂ := by simp
    obtain ⟨hbl, hbr⟩ := not_mem_of_nodup_tail (heq ▸ hprev)
    exact ⟨fun hb => hbl (mem_tail_append hb), hbr⟩
  rw [linked_append_cons_cons]
  refine ⟨hl.congr ?_ ?_, ⟨by simp [hnext'], by simp [hprev']⟩, hr.congr ?_ ?_⟩
  · intro x hx
    rw [List.dropLast_concat] at hx
    have hxp : x ≠ p := fun h => hpl (h ▸ hx)
    rw [hnext', if_neg hxp]
  · intro y hy
    have hyb : y ≠ b := fun h => hbl (h ▸ hy)
    rw [hprev', if_neg hyb]
  · intro x hx
    have hxp : x ≠ p := by
      rintro rfl
      exact hpr (by simp [hx])
    rw [hnext', if_neg hxp]
  · intro y hy
    have hyb : y ≠ b := fun h => hbr (h ▸ hy)
    rw [hprev', if_neg hyb]

/-- Walking a chain up to its last node, which occurs in it once, gives the nodes between. -/
theorem Linked.walk_eq {a stop : α} {xs : List α}
    (h : L.Linked (a :: (xs ++ [stop]))) (hstop : stop ∉ xs) {fuel : Nat}
    (hfuel : xs.length ≤ fuel) : L.walk stop fuel (L.next a) = some xs := by
  induction xs generalizing a fuel with
  | nil =>
    rw [(linked_cons_cons.mp h).1.1]
    cases fuel <;> simp [walk]
  | cons x xs ih =>
    obtain ⟨⟨hax, -⟩, h⟩ := linked_cons_cons.mp h
    simp only [List.mem_cons, not_or] at hstop
    obtain ⟨fuel, rfl⟩ : ∃ n, fuel = n + 1 := ⟨fuel - 1, by simp at hfuel; omega⟩
    rw [hax, walk, if_neg (Ne.symm hstop.1), ih h hstop.2 (by simpa using hfuel), Option.map_some]

/-! ## Frames -/

/-- The two stores agree on every node outside `O`. -/
def AgreeOff (O : List α) (L L' : Links α) : Prop := ∀ x, x ∉ O → L'.next x = L.next x ∧ L'.prev x = L.prev x

namespace AgreeOff

variable {O : List α} {L L' : Links α} {a b e v x y : α}

omit [DecidableEq α] in
theorem refl (O : List α) (L : Links α) : AgreeOff O L L := fun _ _ => ⟨rfl, rfl⟩

theorem setNext (h : AgreeOff O L L') (hx : x ∈ O) (y : α) : AgreeOff O L (L'.setNext x y) := by
  intro z hz
  have hne : z ≠ x := fun h => hz (h ▸ hx)
  rw [setNext_next, setNext_prev, if_neg hne]
  exact h z hz

theorem setPrev (h : AgreeOff O L L') (hx : x ∈ O) (y : α) : AgreeOff O L (L'.setPrev x y) := by
  intro z hz
  have hne : z ≠ x := fun h => hz (h ▸ hx)
  rw [setPrev_next, setPrev_prev, if_neg hne]
  exact h z hz

theorem insertBefore (he : e ∈ O) (hb : b ∈ O) (hp : L.prev b ∈ O) : AgreeOff O L (L.insertBefore b e) := by
  refine ((((refl O L).setPrev he _).setNext he _).setNext ?_ _).setPrev hb _
  rw [setNext_prev, setPrev_prev]
  split
  · exact hp
  · exact hp

theorem insertAfter (he : e ∈ O) (ha : a ∈ O) (hn : L.next a ∈ O) : AgreeOff O L (L.insertAfter a e) := by
  refine ((((refl O L).setPrev he _).setNext he _).setPrev ?_ _).setNext ha _
  rw [setNext_next, setPrev_next]
  split
  · exact hn
  · exact hn

theorem takePlace (he : e ∈ O) (hp : L.prev v ∈ O) (hn : L.next v ∈ O) : AgreeOff O L (L.takePlace v e) := by
  have hp' : ((L.setPrev e (L.prev v)).setNext e ((L.setPrev e (L.prev v)).next v)).prev v ∈ O := by
    rw [setNext_prev, setPrev_prev]
    split
    · exact hp
    · exact hp
  refine ((((refl O L).setPrev he _).setNext he _).setNext hp' _).setPrev ?_ _
  simp only [setNext_next, setPrev_next]
  split
  · exact he
  · split
    · exact hn
    · exact hn

theorem unlink (hp : L.prev e ∈ O) (hn : L.next e ∈ O) : AgreeOff O L (L.unlink e) := by
  refine ((refl O L).setNext hp _).setPrev ?_ _
  rw [setNext_next]
  split
  · exact hn
  · exact hn

end AgreeOff

end Links
