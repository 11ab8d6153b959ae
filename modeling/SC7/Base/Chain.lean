-- SUMMARY: Singly linked chains that end in a null pointer: they repeat no node, and how inserting, removing and walking work on them.
import Mathlib.Data.List.Nodup

/-!
# Null-terminated chains

A function gives every node its `next` node, and `null` ends a chain. `Chain null next a l` says that the
nodes from `a` on are those of `l`, in this order. The chain from a node is unique, so it repeats no
node: a chain that comes back to a node never ends.
-/

variable {α : Type*}

/-- Following `next` from `a` leads through the nodes of `l` to `null`. -/
def Chain (null : α) (next : α → α) : α → List α → Prop
  | a, [] => a = null
  | a, x :: l => a = x ∧ x ≠ null ∧ Chain null next (next x) l

namespace Chain

open Function (update update_of_ne update_self)

variable {null a x y : α} {next next' : α → α} {l l' l₁ l₂ : List α}

theorem nil_iff (h : Chain null next a l) : a = null ↔ l = [] := by
  cases l with
  | nil => exact iff_of_true h rfl
  | cons x l =>
    obtain ⟨rfl, hne, _⟩ := h
    exact iff_of_false hne (by simp)

theorem unique (h : Chain null next a l) (h' : Chain null next a l') : l = l' := by
  induction l generalizing a l' with
  | nil => exact (h'.nil_iff.mp h).symm
  | cons x l ih =>
    obtain ⟨rfl, hne, htail⟩ := h
    cases l' with
    | nil => exact absurd h' hne
    | cons x' l' =>
      obtain ⟨rfl, _, htail'⟩ := h'
      rw [ih htail htail']

/-- What comes after a node of the chain is the chain from its `next` node. -/
theorem drop (h : Chain null next a (l₁ ++ x :: l₂)) : Chain null next (next x) l₂ := by
  induction l₁ generalizing a with
  | nil => exact h.2.2
  | cons y l₁ ih => exact ih h.2.2

/-- A node does not come again after itself. -/
theorem nodup (h : Chain null next a l) : l.Nodup := by
  induction l generalizing a with
  | nil => exact List.nodup_nil
  | cons x l ih =>
    obtain ⟨rfl, hne, htail⟩ := h
    refine List.nodup_cons.mpr ⟨fun hmem => ?_, ih htail⟩
    obtain ⟨l₁, l₂, rfl⟩ := List.append_of_mem hmem
    -- the chain after the second occurrence would be as long as that after the first one
    have heq := htail.unique htail.drop
    have hlen := congrArg List.length heq
    simp only [List.length_append, List.length_cons] at hlen
    omega

/-- Only the links of the nodes in the chain matter. -/
theorem congr (h : Chain null next a l) (hsame : ∀ x ∈ l, next' x = next x) : Chain null next' a l := by
  induction l generalizing a with
  | nil => exact h
  | cons x l ih =>
    obtain ⟨rfl, hne, htail⟩ := h
    refine ⟨rfl, hne, ?_⟩
    rw [hsame a List.mem_cons_self]
    exact ih htail fun y hy => hsame y (List.mem_cons_of_mem _ hy)

variable [DecidableEq α]

theorem update_of_notMem (h : Chain null next a l) (hx : x ∉ l) (y : α) :
    Chain null (update next x y) a l := by
  refine h.congr fun z hz => update_of_ne ?_ _ _
  rintro rfl
  exact hx hz

/-- A new node in front: `y->next = a`. -/
theorem push (h : Chain null next a l) (hy : y ∉ l) (hne : y ≠ null) :
    Chain null (update next y a) y (y :: l) := by
  refine ⟨rfl, hne, ?_⟩
  rw [update_self]
  exact h.update_of_notMem hy a

/-- A new node after a node of the chain: `y->next = x->next; x->next = y`. -/
theorem insert (h : Chain null next a (l₁ ++ x :: l₂)) (hy : y ∉ l₁ ++ x :: l₂) (hne : y ≠ null) :
    Chain null (update (update next y (next x)) x y) a (l₁ ++ x :: y :: l₂) := by
  induction l₁ generalizing a with
  | nil =>
    obtain ⟨rfl, hxne, htail⟩ := h
    obtain ⟨hya, hyl⟩ : y ≠ a ∧ y ∉ l₂ := by simpa using hy
    refine ⟨rfl, hxne, ?_⟩
    rw [update_self]
    have hnot : a ∉ l₂ := (List.nodup_cons.mp (nodup ⟨rfl, hxne, htail⟩)).1
    refine ⟨rfl, hne, ?_⟩
    rw [update_of_ne hya, update_self]
    exact (htail.update_of_notMem hyl _).update_of_notMem hnot _
  | cons z l₁ ih =>
    have hnodup := h.nodup
    obtain ⟨rfl, hzne, htail⟩ := h
    obtain ⟨hya, hyl⟩ : y ≠ a ∧ y ∉ l₁ ++ x :: l₂ := by simpa using hy
    have hax : a ≠ x := by
      rintro rfl
      exact (List.nodup_cons.mp hnodup).1 (by simp)
    refine ⟨rfl, hzne, ?_⟩
    rw [update_of_ne hax, update_of_ne (Ne.symm hya)]
    exact ih htail hyl

/-- A new node at the end: `x->next = y; y->next = null`. -/
theorem append (h : Chain null next a (l₁ ++ [x])) (hy : y ∉ l₁ ++ [x]) (hne : y ≠ null) :
    Chain null (update (update next x y) y null) a (l₁ ++ [x, y]) := by
  have hx : next x = null := h.drop
  have hxy : x ≠ y := by
    rintro rfl
    exact hy (by simp)
  have hins := h.insert hy hne
  rw [hx, Function.update_comm (Ne.symm hxy)] at hins
  exact hins

/-- The last node of a chain, found by following `next`; `none` if there are more than `fuel` nodes. -/
def last (null : α) (next : α → α) : Nat → α → Option α
  | 0, _ => none
  | fuel + 1, a => if next a = null then some a else last null next fuel (next a)

/-- What holds of the start and is kept by `next` holds of the last node. -/
theorem last_induction {P : α → Prop} (hnext : ∀ x, P x → next x ≠ null → P (next x)) {fuel : Nat} (ha : P a)
    (h : last null next fuel a = some x) : P x := by
  induction fuel generalizing a with
  | zero => cases h
  | succ fuel ih =>
    rw [last] at h
    split at h
    · cases h
      exact ha
    · exact ih (hnext a ha ‹_›) h

theorem last_eq (h : Chain null next a (l₁ ++ [x])) {fuel : Nat} (hfuel : l₁.length < fuel) :
    last null next fuel a = some x := by
  induction l₁ generalizing a fuel with
  | nil =>
    obtain ⟨rfl, _, hnull⟩ := h
    cases fuel with
    | zero => cases hfuel
    | succ fuel => exact if_pos hnull
  | cons z l₁ ih =>
    obtain ⟨rfl, _, htail⟩ := h
    cases fuel with
    | zero => cases hfuel
    | succ fuel =>
      have hnext : next a ≠ null := fun hnull => by simpa using htail.nil_iff.mp hnull
      rw [last, if_neg hnext]
      exact ih htail (by simpa using hfuel)

end Chain
