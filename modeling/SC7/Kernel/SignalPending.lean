-- SUMMARY: Which signal `check_pending_signals` selects: the smallest one that is neither blocked nor ignored, and what it clears on the way.
import SC7.Kernel.SignalMask
import Mathlib.Order.Bounds.Basic

/-!
# Signal selection

The search clears ignored signals while it runs, and keeps a copy of what is pending and not blocked.
-/

namespace SC7.Signal.Task

variable {t t' : Task} {sig i k n : Nat}

/-- The signal is pending and not blocked. -/
def Unblocked (t : Task) (sig : Nat) : Prop := IsSignal sig ∧ Blocks t.sigPending sig ∧ ¬ Blocks t.sigSet sig

/-- The handler of the signal is `SIG_IGN`. -/
def Ignores (t : Task) (sig : Nat) : Prop := (t.sigaction sig).handler = SIG_IGN

/-- A signal that the search may return. -/
def Ready (t : Task) (sig : Nat) : Prop := t.Unblocked sig ∧ ¬ t.Ignores sig

/-- A search returns the smallest signal, or 0 if there is none. The unblocked signals in front of that are ignored,
and they are what it clears. -/
structure Selects (t : Task) (sig : Nat) (t' : Task) : Prop where
  found : sig ≠ 0 → IsLeast {i | t.Ready i} sig
  none_iff : sig = 0 ↔ ∀ i, ¬ t.Ready i
  pending : ∀ i, IsSignal i →
    (Blocks t'.sigPending i ↔ Blocks t.sigPending i ∧ ¬ (t.Unblocked i ∧ t.Ignores i ∧ (sig = 0 ∨ i < sig)))
  frame : t' = { t with sigPending := t'.sigPending }

theorem Ready.ne_zero (h : t.Ready sig) : sig ≠ 0 := by
  have := h.1.1.1
  omega

/-- The copy of the search. -/
theorem blocks_copy (h : IsSignal sig) : Blocks (t.sigPending &&& ~~~t.sigSet) sig ↔ t.Unblocked sig := by
  rw [blocks_and h, blocks_not h]
  exact (and_iff_right h).symm

/-- Nothing is unblocked. -/
theorem Selects.of_none (h : ∀ i, ¬ t.Unblocked i) : Selects t 0 t where
  found h0 := absurd rfl h0
  none_iff := iff_of_true rfl fun i hi => h i hi.1
  pending i _ := (and_iff_left fun hi => h i hi.1).symm
  frame := rfl

theorem not_unblocked_of_copy (h : t.sigPending &&& ~~~t.sigSet = 0) (i : Nat) : ¬ t.Unblocked i := by
  intro hi
  have hcopy := (blocks_copy hi.1).mpr hi
  rw [h] at hcopy
  exact hcopy (UInt64.zero_and)

/-- The first unblocked signal is not ignored. -/
theorem Selects.of_first (h : t.Ready k) (hfirst : ∀ i, t.Unblocked i → k ≤ i) : Selects t k t where
  found _ := ⟨h, fun i hi => hfirst i hi.1⟩
  none_iff := iff_of_false h.ne_zero fun hnone => hnone k h
  pending i _ := by
    refine (and_iff_left ?_).symm
    rintro ⟨hi, -, h0 | hlt⟩
    · exact h.ne_zero h0
    · exact absurd (hfirst i hi) (Nat.not_le.mpr hlt)
  frame := rfl

theorem unblocked_clearPending (hk : IsSignal k) : (t.clearPending k).Unblocked i ↔ t.Unblocked i ∧ i ≠ k := by
  unfold Unblocked
  by_cases hi : IsSignal i
  · have hclear : Blocks (t.clearPending k).sigPending i ↔ Blocks t.sigPending i ∧ i ≠ k := by
      show Blocks (t.sigPending &&& ~~~sigBit k) i ↔ _
      rw [blocks_and hi, blocks_not hi, blocks_sigBit hi hk]
    rw [hclear]
    show (IsSignal i ∧ (Blocks t.sigPending i ∧ i ≠ k) ∧ ¬ Blocks t.sigSet i) ↔ _
    tauto
  · exact iff_of_false (fun h => hi h.1) fun h => hi h.1.1

/-- The first unblocked signal is ignored and cleared. -/
theorem Selects.of_ignored (hk : t.Unblocked k) (hignored : t.Ignores k) (hfirst : ∀ i, t.Unblocked i → k ≤ i)
    (h : Selects (t.clearPending k) sig t') : Selects t sig t' := by
  have hready : ∀ i, (t.clearPending k).Ready i ↔ t.Ready i := by
    intro i
    unfold Ready
    rw [unblocked_clearPending hk.1]
    constructor
    · exact fun hi => ⟨hi.1.1, hi.2⟩
    · refine fun hi => ⟨⟨hi.1, ?_⟩, hi.2⟩
      rintro rfl
      exact hi.2 hignored
  have hbehind : sig = 0 ∨ k < sig := by
    by_cases h0 : sig = 0
    · exact .inl h0
    · have hsig := ((unblocked_clearPending hk.1).mp (h.found h0).1.1)
      exact .inr (Nat.lt_of_le_of_ne (hfirst sig hsig.1) (Ne.symm hsig.2))
  refine ⟨fun h0 => ?_, ?_, fun i hi => ?_, ?_⟩
  · have hleast := h.found h0
    simp only [hready] at hleast
    exact hleast
  · rw [h.none_iff]
    simp only [hready]
  · have hclear : Blocks (t.clearPending k).sigPending i ↔ Blocks t.sigPending i ∧ i ≠ k := by
      show Blocks (t.sigPending &&& ~~~sigBit k) i ↔ _
      rw [blocks_and hi, blocks_not hi, blocks_sigBit hi hk.1]
    rw [h.pending i hi, hclear, unblocked_clearPending hk.1]
    show (Blocks t.sigPending i ∧ i ≠ k) ∧ ¬ ((t.Unblocked i ∧ i ≠ k) ∧ t.Ignores i ∧ (sig = 0 ∨ i < sig)) ↔ _
    by_cases hik : i = k
    · subst hik
      exact iff_of_false (fun hall => hall.1.2 rfl) fun hall => hall.2 ⟨hk, hignored, hbehind⟩
    · simp only [ne_eq, hik, not_false_eq_true, and_true]
  · rw [h.frame]
    rfl

/-- The search from signal `k` on, if no smaller one is unblocked. -/
theorem pendingLoop_selects (hk : 1 ≤ k) (hn : k + n = SIGRTMAX + 1) (hfirst : ∀ i, t.Unblocked i → k ≤ i) :
    Selects t (pendingLoop (List.range' k n) (t.sigPending &&& ~~~t.sigSet) t).1
      (pendingLoop (List.range' k n) (t.sigPending &&& ~~~t.sigSet) t).2 := by
  induction n generalizing k t with
  | zero =>
    apply Selects.of_none
    intro i hi
    have := hfirst i hi
    have := hi.1.2
    omega
  | succ n ih =>
    have hsignal : IsSignal k := ⟨hk, by omega⟩
    rw [List.range'_succ, pendingLoop]
    by_cases hbit : (t.sigPending &&& ~~~t.sigSet) &&& sigBit k ≠ 0
    · have hunblocked : t.Unblocked k := (blocks_copy hsignal).mp hbit
      rw [if_pos hbit]
      by_cases hignored : (t.sigaction k).handler = SIG_IGN
      · rw [if_pos hignored]
        have hfirst' : ∀ i, (t.clearPending k).Unblocked i → k + 1 ≤ i := by
          intro i hi
          obtain ⟨hi, hne⟩ := (unblocked_clearPending hsignal).mp hi
          have := hfirst i hi
          omega
        dsimp only
        by_cases hnone : (t.clearPending k).sigPending &&& ~~~(t.clearPending k).sigSet = 0
        · rw [if_pos hnone]
          exact .of_ignored hunblocked hignored hfirst (.of_none (not_unblocked_of_copy hnone))
        · rw [if_neg hnone]
          exact .of_ignored hunblocked hignored hfirst (ih (by omega) (by omega) hfirst')
      · rw [if_neg hignored]
        exact .of_first ⟨hunblocked, hignored⟩ hfirst
    · rw [if_neg hbit]
      refine ih (by omega) (by omega) fun i hi => ?_
      refine Nat.lt_of_le_of_ne (hfirst i hi) ?_
      rintro rfl
      exact hbit ((blocks_copy hsignal).mpr hi)

/-- A process that exits is left alone; otherwise the search selects among all signals. -/
theorem checkPendingSignals_selects (t : Task) :
    if t.zombie then t.checkPendingSignals = (0, t)
    else Selects t t.checkPendingSignals.1 t.checkPendingSignals.2 := by
  unfold checkPendingSignals
  by_cases hzombie : t.zombie = true
  · rw [if_pos hzombie, if_pos hzombie]
  · rw [if_neg hzombie, if_neg hzombie]
    dsimp only
    by_cases hnone : t.sigPending &&& ~~~t.sigSet = 0
    · rw [if_pos hnone]
      exact .of_none (not_unblocked_of_copy hnone)
    · rw [if_neg hnone]
      exact pendingLoop_selects (Nat.le_refl 1) rfl fun i hi => hi.1.1

/-- A thread of a process in state `ZOMBIE` with a pending `SIGHUP`: the search returns 0. -/
theorem not_selects_zombie : ¬ ∀ t : Task, Selects t t.checkPendingSignals.1 t.checkPendingSignals.2 := by
  intro hall
  have h := hall { (Run.hangup 0).task with zombie := true }
  have hready : Ready { (Run.hangup 0).task with zombie := true } 1 :=
    ⟨⟨by decide, by decide, by decide⟩, by unfold Ignores; decide⟩
  exact h.none_iff.mp rfl 1 hready

end SC7.Signal.Task
