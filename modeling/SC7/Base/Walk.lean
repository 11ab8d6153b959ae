-- SUMMARY: Following a partial function from a point: the way to a given point, the one way to where the function ends, and that this way repeats nothing.
import Mathlib.Data.List.Nodup

/-!
# Walks

`Walk next p l q` says that from `p` the function `next` leads through the points of `l`, in this order, to
`q`. A walk that arrives where `next` is undefined is unique, so it comes to no point twice.
-/

/-- From `p` through the points of `l` to `q`. -/
inductive Walk {α : Type*} (next : α → Option α) : α → List α → α → Prop where
  | nil {p : α} : Walk next p [] p
  | cons {p q r : α} {l : List α} : next p = some q → Walk next q l r → Walk next p (p :: l) r

namespace Walk

variable {α : Type*} {next : α → Option α} {p q q' r : α} {l l' : List α}

/-- A walk from a point that leads somewhere. -/
theorem step_iff (hnext : next p = some q) : Walk next p l r ↔ l = [] ∧ r = p ∨ ∃ l', l = p :: l' ∧ Walk next q l' r := by
  constructor
  · intro h
    cases h with
    | nil => exact .inl ⟨rfl, rfl⟩
    | cons hq hrest =>
      rw [hnext, Option.some.injEq] at hq
      subst hq
      exact .inr ⟨_, rfl, hrest⟩
  · rintro (⟨rfl, rfl⟩ | ⟨l', rfl, hrest⟩)
    · exact .nil
    · exact .cons hnext hrest

/-- A walk from a point that leads nowhere stays there. -/
theorem end_iff (hnext : next p = none) : Walk next p l r ↔ l = [] ∧ r = p := by
  constructor
  · intro h
    cases h with
    | nil => exact ⟨rfl, rfl⟩
    | cons hq _ =>
      rw [hnext] at hq
      cases hq
  · rintro ⟨rfl, rfl⟩
    exact .nil

/-- There is one walk to an end. -/
theorem unique (h : Walk next p l q) (hq : next q = none) (h' : Walk next p l' q') (hq' : next q' = none) :
    l = l' ∧ q = q' := by
  induction h generalizing l' with
  | nil =>
    obtain ⟨rfl, rfl⟩ := (end_iff hq).mp h'
    exact ⟨rfl, rfl⟩
  | cons hnext hrest ih =>
    obtain ⟨rfl, rfl⟩ | ⟨l'', rfl, hrest'⟩ := (step_iff hnext).mp h'
    · rw [hq'] at hnext
      cases hnext
    · obtain ⟨rfl, rfl⟩ := ih hq hrest'
      exact ⟨rfl, rfl⟩

/-- The rest of a walk from a point on it. -/
theorem drop (h : Walk next p l q) (hr : r ∈ l) : ∃ l₁ l₂, l = l₁ ++ r :: l₂ ∧ Walk next r (r :: l₂) q := by
  induction h with
  | nil => cases hr
  | cons hnext hrest ih =>
    rcases List.mem_cons.mp hr with rfl | hr
    · exact ⟨[], _, rfl, .cons hnext hrest⟩
    · obtain ⟨l₁, l₂, rfl, hwalk⟩ := ih hr
      exact ⟨_ :: l₁, l₂, rfl, hwalk⟩

/-- A walk to an end comes to no point twice. -/
theorem nodup (h : Walk next p l q) (hq : next q = none) : (l ++ [q]).Nodup := by
  induction h with
  | nil => exact List.nodup_singleton _
  | cons hnext hrest ih =>
    rw [List.cons_append, List.nodup_cons]
    refine ⟨?_, ih hq⟩
    intro hmem
    rcases List.mem_append.mp hmem with hmem | hmem
    · -- the walk would go on from here as it did before, and be longer than itself
      obtain ⟨l₁, l₂, rfl, hwalk⟩ := hrest.drop hmem
      have hlen := congrArg List.length ((unique (.cons hnext hrest) hq hwalk hq).1)
      simp only [List.length_cons, List.length_append] at hlen
      omega
    · rw [List.mem_singleton.mp hmem, hq] at hnext
      cases hnext

end Walk
