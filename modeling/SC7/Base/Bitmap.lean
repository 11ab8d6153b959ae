-- SUMMARY: Bitmaps stored as 64-bit words: testing, setting and clearing single bits and ranges of bits.
import Mathlib.Data.BitVec

/-!
# Bitmaps

A bitmap is an array of 64-bit words; bit `i` is bit `i & 63` of word `i >> 6`.
Every lemma below is about `test`, so that clients never see the words.
-/

abbrev Bitmap := Nat → BitVec 64

namespace Bitmap

/-- The word that has only bit `i & 63` set. -/
def mask (i : Nat) : BitVec 64 := 1#64 <<< (i &&& 0x3F)

def test (w : Bitmap) (i : Nat) : Bool := w (i >>> 6) &&& mask i != 0#64

def set (w : Bitmap) (i : Nat) : Bitmap := Function.update w (i >>> 6) (w (i >>> 6) ||| mask i)

def clear (w : Bitmap) (i : Nat) : Bitmap := Function.update w (i >>> 6) (w (i >>> 6) &&& ~~~mask i)

/-- Set the bits `i, …, i + n - 1`, one after the other. -/
def setRange (w : Bitmap) (i : Nat) : Nat → Bitmap
  | 0 => w
  | n + 1 => (setRange w i n).set (i + n)

/-- Clear the bits `i, …, i + n - 1`, one after the other. -/
def clearRange (w : Bitmap) (i : Nat) : Nat → Bitmap
  | 0 => w
  | n + 1 => (clearRange w i n).clear (i + n)

/-- The bits `i, …, i + n - 1` are all clear. -/
def allClear (w : Bitmap) (i : Nat) : Nat → Bool
  | 0 => true
  | n + 1 => allClear w i n && !w.test (i + n)

theorem and_63 (i : Nat) : i &&& 0x3F = i % 64 := Nat.and_two_pow_sub_one_eq_mod i 6

theorem getLsbD_mask (i j : Nat) (hj : j < 64) : (mask i).getLsbD j = decide (i % 64 = j) := by
  have hi : i % 64 < 64 := Nat.mod_lt _ (by decide)
  simp only [mask, and_63, BitVec.getLsbD_shiftLeft, BitVec.getLsbD_one, hj, decide_true, Bool.true_and]
  by_cases h : i % 64 = j
  · simp [h]
  · have : j < i % 64 ∨ 0 < j - i % 64 := by omega
    rcases this with h' | h'
    · simp [h', h]
    · have : ¬ j - i % 64 = 0 := by omega
      simp [this, h]

theorem test_eq (w : Bitmap) (i : Nat) : w.test i = (w (i / 64)).getLsbD (i % 64) := by
  have hi : i % 64 < 64 := Nat.mod_lt _ (by decide)
  have hshift : i >>> 6 = i / 64 := by simp [Nat.shiftRight_eq_div_pow]
  rw [test, hshift]
  cases hbit : (w (i / 64)).getLsbD (i % 64) with
  | true =>
    simp only [bne_iff_ne, ne_eq]
    intro h
    have := congrArg (fun v => v.getLsbD (i % 64)) h
    simp [BitVec.getLsbD_and, getLsbD_mask i _ hi, hbit] at this
  | false =>
    simp only [bne_eq_false_iff_eq]
    apply BitVec.eq_of_getLsbD_eq
    intro j hj
    rw [BitVec.getLsbD_and, getLsbD_mask i j hj]
    by_cases h : i % 64 = j
    · simp [← h, hbit]
    · simp [h]

theorem div_mod_eq {i j : Nat} : (j / 64 = i / 64 ∧ i % 64 = j % 64) ↔ j = i := by
  omega

@[simp] theorem test_set (w : Bitmap) (i j : Nat) : (w.set i).test j = (decide (j = i) || w.test j) := by
  have hj : j % 64 < 64 := Nat.mod_lt _ (by decide)
  rw [test_eq, test_eq, set, Nat.shiftRight_eq_div_pow, show 2 ^ 6 = 64 from rfl]
  by_cases hw : j / 64 = i / 64
  · rw [hw, Function.update_self, BitVec.getLsbD_or, getLsbD_mask i _ hj, Bool.or_comm]
    congr 2
    exact propext ⟨fun h => div_mod_eq.mp ⟨hw, h⟩, fun h => (div_mod_eq.mpr h).2⟩
  · rw [Function.update_of_ne hw]
    have : j ≠ i := fun h => hw (by rw [h])
    simp [this]

@[simp] theorem test_clear (w : Bitmap) (i j : Nat) : (w.clear i).test j = (!decide (j = i) && w.test j) := by
  have hj : j % 64 < 64 := Nat.mod_lt _ (by decide)
  rw [test_eq, test_eq, clear, Nat.shiftRight_eq_div_pow, show 2 ^ 6 = 64 from rfl]
  by_cases hw : j / 64 = i / 64
  · rw [hw, Function.update_self, BitVec.getLsbD_and, BitVec.getLsbD_not, getLsbD_mask i _ hj, Bool.and_comm]
    simp only [hj, decide_true, Bool.true_and]
    congr 3
    exact propext ⟨fun h => div_mod_eq.mp ⟨hw, h⟩, fun h => (div_mod_eq.mpr h).2⟩
  · rw [Function.update_of_ne hw]
    have : j ≠ i := fun h => hw (by rw [h])
    simp [this]

@[simp] theorem test_setRange (w : Bitmap) (i n j : Nat) :
    (w.setRange i n).test j = (decide (i ≤ j ∧ j < i + n) || w.test j) := by
  induction n with
  | zero =>
    have : ¬ (i ≤ j ∧ j < i + 0) := by omega
    rw [setRange, decide_eq_false this, Bool.false_or]
  | succ n ih =>
    rw [setRange, test_set, ih, ← Bool.or_assoc, ← Bool.decide_or]
    congr 2
    exact propext ⟨by omega, by omega⟩

@[simp] theorem test_clearRange (w : Bitmap) (i n j : Nat) :
    (w.clearRange i n).test j = (!decide (i ≤ j ∧ j < i + n) && w.test j) := by
  induction n with
  | zero =>
    have : ¬ (i ≤ j ∧ j < i + 0) := by omega
    rw [clearRange, decide_eq_false this, Bool.not_false, Bool.true_and]
  | succ n ih =>
    rw [clearRange, test_clear, ih, ← Bool.and_assoc, ← Bool.not_or, ← Bool.decide_or]
    congr 3
    exact propext ⟨by omega, by omega⟩

theorem allClear_iff (w : Bitmap) (i n : Nat) :
    w.allClear i n = true ↔ ∀ j, i ≤ j → j < i + n → w.test j = false := by
  induction n with
  | zero =>
    simp only [allClear, true_iff]
    intro j h1 h2
    omega
  | succ n ih =>
    simp only [allClear, Bool.and_eq_true, Bool.not_eq_true', ih]
    constructor
    · rintro ⟨hall, hlast⟩ j h1 h2
      by_cases h : j = i + n
      · rw [h, hlast]
      · exact hall j h1 (by omega)
    · intro h
      exact ⟨fun j h1 h2 => h j h1 (by omega), h (i + n) (by omega) (by omega)⟩

end Bitmap
