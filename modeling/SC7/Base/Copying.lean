-- SUMMARY: Copies of one place after another, and what they leave when no place is written before its turn to be read.
import Mathlib.Data.List.Basic

/-!
# Copies of one place after another

A block is often moved by a loop that copies one place in each round. What holds after the loop depends on the
order: if no round writes to a place that a later round reads or writes, every destination gets what its source
held before the loop.
-/

namespace Copying

open Function (update)

variable {α β : Type*} [DecidableEq α] {m : α → β} {ps : List (α × α)} {a d s : α}

/-- The copies in their order, each as its destination and its source. -/
def run (m : α → β) : List (α × α) → α → β
  | [] => m
  | (d, s) :: ps => run (update m d (m s)) ps

@[simp] theorem run_cons (m : α → β) (d s : α) (ps : List (α × α)) :
    run m ((d, s) :: ps) = run (update m d (m s)) ps := rfl

/-- No copy writes to a place that a later one reads or writes. -/
def InTime (ps : List (α × α)) : Prop := ps.Pairwise fun p q => p.1 ≠ q.2 ∧ p.1 ≠ q.1

/-- What is no destination stays as it is. -/
theorem run_frame (ha : ∀ p ∈ ps, a ≠ p.1) : run m ps a = m a := by
  induction ps generalizing m with
  | nil => rfl
  | cons p ps ih =>
    obtain ⟨d, s⟩ := p
    rw [List.forall_mem_cons] at ha
    rw [run_cons, ih ha.2, Function.update_of_ne ha.1]

/-- A destination gets what its source held at the start. -/
theorem run_moved (hps : InTime ps) (hp : (d, s) ∈ ps) : run m ps d = m s := by
  induction ps generalizing m with
  | nil => cases hp
  | cons p ps ih =>
    obtain ⟨d', s'⟩ := p
    obtain ⟨hlater, hps⟩ := List.pairwise_cons.mp hps
    rw [run_cons]
    rcases List.mem_cons.mp hp with heq | hp
    · cases heq
      have hd : ∀ q ∈ ps, d ≠ q.1 := fun q hq => (hlater q hq).2
      rw [run_frame hd, Function.update_self]
    · have hs : s ≠ d' := fun h => (hlater _ hp).1 h.symm
      rw [ih hps hp, Function.update_of_ne hs]

end Copying
