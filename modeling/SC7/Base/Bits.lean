-- SUMMARY: Bit tests on words: which bits of a mask a word has, and how `|` and `&` move them.
import Mathlib.Data.Nat.Bitwise

/-!
# Bit masks

Flag words are natural numbers below `2 ^ 64`. Everything a program asks of them is whether they
have a bit of some mask; the two laws of `has` reduce every such question about a computed word to
questions about the words it was computed from, with masks that evaluate.
-/

namespace Bits

variable {a b m k : Nat}

/-- `(a & m) != 0`. -/
def has (a m : Nat) : Bool := a &&& m != 0

/-- `a & ~m`, on 64 bits. -/
def clear (a m : Nat) : Nat := a &&& (2 ^ 64 - 1 - m)

theorem has_iff : has a m = true ↔ a &&& m ≠ 0 := by
  simp [has]

@[simp]
theorem has_or : has (a ||| b) m = (has a m || has b m) := by
  rw [Bool.eq_iff_iff, Bool.or_eq_true, has_iff, has_iff, has_iff, Nat.and_or_distrib_right, Ne,
    Nat.or_eq_zero_iff]
  tauto

@[simp]
theorem has_and : has (a &&& k) m = has a (k &&& m) := by
  simp only [has, Nat.and_assoc]

/-- Masking takes no bit that is not there. -/
theorem has_of_and (h : has (a &&& k) m = true) : has a m = true := by
  rw [has_iff] at h ⊢
  intro h0
  refine h ?_
  rw [Nat.and_right_comm, h0, Nat.zero_and]

@[simp]
theorem has_zero : has a 0 = false := by
  simp [has]

/-- Literals evaluate. -/
@[simp]
theorem has_ofNat : has (no_index (OfNat.ofNat a)) (no_index (OfNat.ofNat m)) =
    ((OfNat.ofNat a : Nat) &&& OfNat.ofNat m != 0) := rfl

theorem has_clear : has (clear a k) m = has a ((2 ^ 64 - 1 - k) &&& m) := has_and

/-- The low `w` bits are the bits of a mask. -/
theorem has_mod {w : Nat} : has (a % 2 ^ w) m = has a ((2 ^ w - 1) &&& m) := by
  rw [← Nat.and_two_pow_sub_one_eq_mod, has_and]

/-- A word has a bit of a joined mask if it has a bit of one of its parts. -/
theorem has_or_mask : has a (m ||| k) = (has a m || has a k) := by
  rw [Bool.eq_iff_iff, Bool.or_eq_true, has_iff, has_iff, has_iff, Nat.and_or_distrib_left, Ne,
    Nat.or_eq_zero_iff]
  tauto

/-! ## One bit of a machine word -/

theorem toBitVec_one_shiftLeft {n : Nat} (h : n < 64) :
    ((1 : UInt64) <<< UInt64.ofNat n).toBitVec = BitVec.twoPow 64 n := by
  have hmod : n % 2 ^ 64 % 64 = n := by omega
  rw [BitVec.twoPow_eq, UInt64.toBitVec_shiftLeft]
  show 1#64 <<< ((UInt64.ofNat n).toBitVec % 64#64) = 1#64 <<< n
  rw [BitVec.shiftLeft_eq', BitVec.toNat_umod, UInt64.toBitVec_ofNat', BitVec.toNat_ofNat]
  exact congrArg (1#64 <<< ·) hmod

/-- `(w & (1ul << n)) != 0`. -/
theorem and_one_shiftLeft_ne_zero {w : UInt64} {n : Nat} (h : n < 64) :
    w &&& 1 <<< UInt64.ofNat n ≠ 0 ↔ w.toBitVec.getLsbD n = true := by
  rw [Ne, ← UInt64.toBitVec_inj, UInt64.toBitVec_and, toBitVec_one_shiftLeft h, BitVec.and_twoPow]
  split
  · rename_i hbit
    simp only [hbit, iff_true]
    intro h0
    have hsame := congrArg (BitVec.getLsbD · n) h0
    simp [h] at hsame
  · rename_i hbit
    simp [hbit]

end Bits
