-- SUMMARY: Runs of a step relation and the rule that carries an invariant along a run.
import Mathlib.Logic.Relation

/-!
# Runs

A system is a step relation; a run is a finite sequence of steps. A condition on the steps of a
run is a smaller step relation, so the one rule below serves for conditional results as well.
-/

/-- A finite run of `step` leads from `s` to `s'`. -/
abbrev Reaches {σ : Type*} (step : σ → σ → Prop) (s s' : σ) : Prop := Relation.ReflTransGen step s s'

namespace Reaches

variable {σ : Type*} {step : σ → σ → Prop} {s s' : σ} {I : σ → Prop}

/-- What holds at the start and is kept by every step holds in every state of the run. -/
theorem invariant (hrun : Reaches step s s') (hinit : I s)
    (hstep : ∀ t t', I t → step t t' → I t') : I s' := by
  induction hrun with
  | refl => exact hinit
  | tail _ hlast ih => exact hstep _ _ ih hlast

/-- A run of a smaller step relation is a run of a larger one. -/
theorem weaken {step' : σ → σ → Prop} (hrun : Reaches step s s')
    (hle : ∀ t t', step t t' → step' t t') : Reaches step' s s' := by
  induction hrun with
  | refl => exact .refl
  | tail _ hlast ih => exact ih.tail (hle _ _ hlast)

end Reaches
