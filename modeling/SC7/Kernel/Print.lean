-- SUMMARY: Printing of integers (`printint`) with the conversions of `printf` that use it, and which values fit its buffer.
import SC7.Base.Numeral
import SC7.Kernel.Exec

/-!
# Integers on the console

The digits go into a buffer of 16 bytes, from the last one to the first one, and are printed from its end. An access
outside of the buffer is a failure.
-/

namespace SC7.Print

open Exec (Str)

/-- The characters of a value as `printint` and `format_int` put them into a buffer, the last one first. -/
def signedDigits (size : Nat) (xx : Int64) (base : Nat) (sign : Bool) : Option Str := do
  let negative := sign && xx < 0
  let x : UInt64 := if negative then (-xx).toUInt64 else xx.toUInt64
  let (room, buf) ← Numeral.digitLoop base size x.toNat []
  if negative then
    if room = 0 then none else return Numeral.minus :: buf
  else return buf

/-- `printint`: the characters that are printed. -/
def printint (xx : Int64) (base : Nat) (sign : Bool) : Option Str := signedDigits 16 xx base sign

/-- The value that is to be printed. -/
def shown (xx : Int64) (sign : Bool) : Int := if sign then xx.toInt else xx.toUInt64.toNat

/-- The call stays in its buffer, and what it prints stands for the value. -/
def Prints (xx : Int64) (base : Nat) (sign : Bool) : Prop :=
  ∃ s, printint xx base sign = some s ∧ Numeral.intValue base s = some (shown xx sign)

/-- The conversions of `printf` for integers; those with `ll` are the same as with `l`. -/
inductive Conversion where
  | d
  | ld
  | u
  | lu
  | x
  | o
  | lx

namespace Conversion

def base : Conversion → Nat
  | d | ld | u | lu => 10
  | x | lx => 16
  | o => 8

def sign : Conversion → Bool
  | d | ld => true
  | u | lu | x | o | lx => false

/-- What `va_arg` makes of a word, as it comes to `printint`. -/
def arg (w : UInt64) : Conversion → Int64
  | d => w.toUInt32.toInt32.toInt64
  | u | x | o => w.toUInt32.toUInt64.toInt64
  | ld | lu | lx => w.toInt64

end Conversion

/-! ## The values that fit -/

variable {xx : Int64} {base : Nat} {sign : Bool}

/-- The magnitude of a value; that of the smallest one is no `long long`. -/
theorem toNat_neg (h : xx < 0) : (-xx).toUInt64.toNat = xx.toInt.natAbs := by
  have hneg : xx.toInt < 0 := Int64.lt_iff_toInt_lt.mp h
  have hword : (-xx).toUInt64.toNat = (-xx).toBitVec.toNat := rfl
  have hint : xx.toInt = xx.toBitVec.toInt := rfl
  rw [hword, Int64.toBitVec_neg, BitVec.toNat_neg]
  rw [hint, BitVec.toInt_eq_toNat_cond] at hneg ⊢
  split at hneg
  · omega
  · rw [if_neg (by assumption)]
    omega

/-- A value that is printed without a sign. -/
theorem shown_of_not_negative (h : ¬(sign && xx < 0) = true) : shown xx sign = xx.toUInt64.toNat := by
  unfold shown
  by_cases hsign : sign = true
  · rw [if_pos hsign]
    have hle : ¬xx.toInt < 0 := by
      rw [hsign, Bool.true_and, decide_eq_true_eq, Int64.lt_iff_toInt_lt] at h
      exact h
    have hword : xx.toUInt64.toNat = xx.toBitVec.toNat := rfl
    have hint : xx.toInt = xx.toBitVec.toInt := rfl
    rw [hint, BitVec.toInt_eq_toNat_cond] at hle ⊢
    split
    · rw [hword]
    · rename_i hhigh
      rw [if_neg hhigh] at hle
      omega
  · rw [if_neg hsign]

/-- The numeral of the value, if there is room for it. -/
theorem signedDigits_eq {size : Nat} (hb : 1 < base) :
    signedDigits size xx base sign =
      if (Numeral.intText base (shown xx sign)).length ≤ size then some (Numeral.intText base (shown xx sign)) else none := by
  unfold signedDigits Numeral.intText
  by_cases h : (sign && xx < 0) = true
  · obtain ⟨hsign, hneg⟩ := Bool.and_eq_true_iff.mp h
    have hlt : xx < 0 := of_decide_eq_true hneg
    have hint : shown xx sign = xx.toInt := by
      rw [hsign]
      rfl
    have hnegative : xx.toInt < 0 := Int64.lt_iff_toInt_lt.mp hlt
    rw [h, hint, if_pos hnegative, List.length_cons]
    dsimp only
    rw [if_pos rfl, toNat_neg hlt, Numeral.digitLoop_eq hb, List.append_nil]
    generalize Numeral.text base xx.toInt.natAbs = s
    by_cases hfit : s.length ≤ size
    · rw [if_pos hfit]
      show (if size - s.length = 0 then none else some (Numeral.minus :: s)) = _
      by_cases hroom : s.length + 1 ≤ size
      · rw [if_pos hroom, if_neg (by omega)]
      · rw [if_neg hroom, if_pos (by omega)]
    · rw [if_neg hfit, if_neg (by omega)]
      rfl
  · have hfalse : (sign && decide (xx < 0)) = false := Bool.eq_false_iff.mpr h
    rw [hfalse, shown_of_not_negative h, if_neg (Int.not_lt.mpr (Int.natCast_nonneg _)), Int.natAbs_natCast]
    dsimp only
    rw [if_neg Bool.false_ne_true, Numeral.digitLoop_eq hb, List.append_nil]
    generalize Numeral.text base xx.toUInt64.toNat = s
    by_cases hfit : s.length ≤ size
    · rw [if_pos hfit, if_pos hfit]
      rfl
    · rw [if_neg hfit, if_neg hfit]
      rfl

/-- A value is printed in any base up to 16 if it has at most 16 characters, the sign counted. -/
theorem prints_iff (hb : 1 < base) (hb' : base ≤ 16) :
    Prints xx base sign ↔ -(base ^ 15 : Nat) < shown xx sign ∧ shown xx sign < (base ^ 16 : Nat) := by
  rw [← Numeral.length_intText_le_iff hb (by decide)]
  unfold Prints printint
  rw [signedDigits_eq hb]
  by_cases hfit : (Numeral.intText base (shown xx sign)).length ≤ 16
  · rw [if_pos hfit]
    exact iff_of_true ⟨_, rfl, Numeral.intValue_intText hb hb'⟩ hfit
  · rw [if_neg hfit]
    exact iff_of_false (fun h => nomatch h.choose_spec.1) hfit

/-- The bases of the callers: a value is printed as it should exactly below the 16th power of the base, and above the
15th one if it has a sign. -/
theorem printint_prints_iff (hbase : base = 8 ∨ base = 10 ∨ base = 16) :
    Prints xx base sign ↔ -(base ^ 15 : Nat) < shown xx sign ∧ shown xx sign < (base ^ 16 : Nat) :=
  prints_iff (by omega) (by omega)

/-- The smallest `int`. -/
theorem printint_prints_smallest : Prints (-2147483648) 10 true :=
  (printint_prints_iff (.inr (.inl rfl))).mpr (by decide)

/-- Ten to the 16th has 17 digits. -/
theorem not_prints_long :
    ¬∀ (xx : Int64) (base : Nat) (sign : Bool), (base = 8 ∨ base = 10 ∨ base = 16) → Prints xx base sign := by
  intro hall
  obtain ⟨s, hs, -⟩ := hall 10000000000000000 10 true (.inr (.inl rfl))
  have hnone : printint 10000000000000000 10 true = none := by decide +kernel
  rw [hnone] at hs
  nomatch hs

/-! ## The conversions -/

/-- The conversions of 32-bit values, and the hexadecimal ones, print every value. -/
theorem conversion_prints (w : UInt64) {conv : Conversion} (hld : conv ≠ .ld) (hlu : conv ≠ .lu) :
    Prints (conv.arg w) conv.base conv.sign := by
  have hword : shown w.toUInt32.toUInt64.toInt64 false = w.toUInt32.toNat := rfl
  have hlong : shown w.toInt64 false = w.toNat := rfl
  have hint : shown w.toUInt32.toInt32.toInt64 true = w.toUInt32.toInt32.toInt := Int32.toInt_toInt64 _
  have := w.toUInt32.toNat_lt
  have := w.toNat_lt
  have := Int32.le_toInt w.toUInt32.toInt32
  have := Int32.toInt_lt w.toUInt32.toInt32
  rw [prints_iff] <;> cases conv <;> simp_all [Conversion.base, Conversion.sign, Conversion.arg] <;> omega

end SC7.Print
