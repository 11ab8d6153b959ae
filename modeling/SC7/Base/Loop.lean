-- SUMMARY: Fuel-bounded `while` loops over an arbitrary state, and the rule by which they end and keep an invariant.
import Mathlib.Data.Option.Basic
import Mathlib.Order.Basic

/-!
# Loops

A `while` loop whose body may fail. `none` means that the body failed or that
the fuel ran out; the termination rule is what excludes the second reading.
-/

namespace Loop

variable {σ : Type*}

/-- `while (c s) s = f s`, with at most `n` rounds. -/
def run (c : σ → Bool) (f : σ → Option σ) : Nat → σ → Option σ
  | 0, s => if c s then none else some s
  | n + 1, s => if c s then (f s).bind (run c f n) else some s

variable {c : σ → Bool} {f : σ → Option σ} {I : σ → Prop}

/-- Termination rule: a measure that the body decreases bounds the n needed. -/
theorem run_total (μ : σ → Nat) (hstep : ∀ s, I s → c s = true → ∃ s', f s = some s' ∧ I s' ∧ μ s' < μ s)
    {n : Nat} {s : σ} (hs : I s) (hfuel : μ s ≤ n) :
    ∃ t, run c f n s = some t ∧ I t ∧ c t = false := by
  induction n generalizing s with
  | zero =>
    rw [run]
    split
    · rename_i hc
      obtain ⟨s', -, -, hlt⟩ := hstep s hs hc
      omega
    · rename_i hc
      exact ⟨s, rfl, hs, by simpa using hc⟩
  | succ n ih =>
    rw [run]
    split
    · rename_i hc
      obtain ⟨s', hbody, hs', hlt⟩ := hstep s hs hc
      obtain ⟨t, ht, hIt, hct⟩ := ih hs' (by omega)
      exact ⟨t, by simp [hbody, ht], hIt, hct⟩
    · rename_i hc
      exact ⟨s, rfl, hs, by simpa using hc⟩

/-- Two loops whose states correspond along `φ` end in corresponding states. -/
theorem run_map {τ : Type*} (φ : σ → τ) {d : τ → Bool} {g : τ → Option τ}
    (hguard : ∀ s, I s → d (φ s) = c s) (hbody : ∀ s, I s → g (φ s) = (f s).map φ)
    (hstep : ∀ s s', I s → f s = some s' → I s') (n : Nat) {s : σ} (hs : I s) :
    run d g n (φ s) = (run c f n s).map φ := by
  induction n generalizing s with
  | zero =>
    rw [run, run, hguard s hs]
    split <;> rfl
  | succ n ih =>
    rw [run, run, hguard s hs, hbody s hs]
    split
    · cases hf : f s with
      | none => rfl
      | some s' => exact ih (hstep s s' hs hf)
    · rfl

end Loop
