-- SUMMARY: Numerals: the text of a number in a base up to 16, the loop that produces it from the end, and the number that a text stands for.
import Mathlib.Data.Nat.Digits.Lemmas

/-!
# Numerals

A numeral is the list of its digits as bytes, the most significant one first. The number of a text is read from
the left, digit by digit; a text that is empty or has another byte in it stands for nothing.
-/

namespace Numeral

variable {b d k n v : Nat} {s t : List UInt8}

/-- The byte of a digit. -/
def digit (d : Nat) : UInt8 := if d < 10 then .ofNat (48 + d) else .ofNat (87 + d)

/-- The digit of a byte. -/
def digitOf (c : UInt8) : Option Nat :=
  if 48 ≤ c ∧ c ≤ 57 then some (c.toNat - 48)
  else if 97 ≤ c ∧ c ≤ 102 then some (c.toNat - 87)
  else none

/-- The numeral of `n` in base `b`. -/
def text (b n : Nat) : List UInt8 := if n = 0 then [digit 0] else (b.digits n).reverse.map digit

/-- The number that digits stand for behind a number. -/
def valueFrom (b : Nat) : Nat → List UInt8 → Option Nat
  | v, [] => some v
  | v, c :: s =>
    match digitOf c with
    | some d => if d < b then valueFrom b (v * b + d) s else none
    | none => none

/-- The number that a text stands for. -/
def value (b : Nat) (s : List UInt8) : Option Nat := if s = [] then none else valueFrom b 0 s

/-- The sign. -/
def minus : UInt8 := 45

/-- The numeral of an integer. -/
def intText (b : Nat) (z : Int) : List UInt8 := if z < 0 then minus :: text b z.natAbs else text b z.natAbs

/-- The integer that a text stands for. -/
def intValue (b : Nat) : List UInt8 → Option Int
  | [] => none
  | c :: s => if c = minus then (value b s).map fun n : Nat => -(n : Int) else (value b (c :: s)).map Int.ofNat

/-! ## Digits -/

theorem digitOf_digit (h : d < 16) : digitOf (digit d) = some d := by
  have hall : ∀ d < 16, digitOf (digit d) = some d := by decide
  exact hall d h

/-! ## The numeral of a number -/

theorem text_of_lt (h : n < b) : text b n = [digit n] := by
  unfold text
  split
  · rename_i hzero
    rw [hzero]
  · rename_i hpos
    rw [Nat.digits_of_lt b n hpos h]
    rfl

/-- The last digit of a numeral. -/
theorem text_of_le (hb : 1 < b) (h : b ≤ n) : text b n = text b (n / b) ++ [digit (n % b)] := by
  have hpos : n ≠ 0 := by omega
  have hdiv : n / b ≠ 0 := by
    have := Nat.div_pos h (by omega)
    omega
  unfold text
  rw [if_neg hpos, if_neg hdiv, Nat.digits_def' hb (Nat.pos_of_ne_zero hpos), List.reverse_cons, List.map_append]
  rfl

theorem text_ne_nil : text b n ≠ [] := by
  unfold text
  split
  · nofun
  · rename_i hpos
    rw [ne_eq, List.map_eq_nil_iff, List.reverse_eq_nil_iff]
    exact Nat.digits_ne_nil_iff_ne_zero.mpr hpos

/-- A numeral of `k` digits. -/
theorem length_text_le_iff (hb : 1 < b) (hk : 0 < k) : (text b n).length ≤ k ↔ n < b ^ k := by
  unfold text
  split
  · rename_i hzero
    rw [hzero]
    exact iff_of_true hk (Nat.pow_pos (by omega))
  · rw [List.length_map, List.length_reverse]
    exact Nat.digits_length_le_iff hb n

theorem mem_text (hb : 1 < b) {c : UInt8} (h : c ∈ text b n) : ∃ d, d < b ∧ c = digit d := by
  unfold text at h
  split at h
  · exact ⟨0, by omega, List.mem_singleton.mp h⟩
  · obtain ⟨d, hd, rfl⟩ := List.mem_map.mp h
    exact ⟨d, Nat.digits_lt_base hb (List.mem_reverse.mp hd), rfl⟩

/-! ## The number of a numeral -/

theorem valueFrom_append : valueFrom b v (s ++ t) = (valueFrom b v s).bind fun w => valueFrom b w t := by
  induction s generalizing v with
  | nil => rfl
  | cons c s ih =>
    rw [List.cons_append, valueFrom, valueFrom]
    cases digitOf c with
    | none => rfl
    | some d =>
      dsimp only
      split
      · exact ih
      · rfl

theorem valueFrom_digit (hb : b ≤ 16) (h : d < b) : valueFrom b v [digit d] = some (v * b + d) := by
  rw [valueFrom, digitOf_digit (Nat.lt_of_lt_of_le h hb)]
  exact if_pos h

/-- A numeral stands for its number. -/
theorem value_text (hb : 1 < b) (hb' : b ≤ 16) : value b (text b n) = some n := by
  unfold value
  rw [if_neg text_ne_nil]
  induction n using Nat.strongRecOn with
  | ind n ih =>
    by_cases h : n < b
    · rw [text_of_lt h, valueFrom_digit hb' h, Nat.zero_mul, Nat.zero_add]
    · have hle := Nat.not_lt.mp h
      rw [text_of_le hb hle, valueFrom_append, ih (n / b) (Nat.div_lt_self (by omega) hb), Option.bind_some,
        valueFrom_digit hb' (Nat.mod_lt n (by omega)), Nat.mul_comm, Nat.div_add_mod]

theorem digit_ne_minus (h : d < 16) : digit d ≠ minus := by
  have hall : ∀ d < 16, digit d ≠ minus := by decide
  exact hall d h

theorem intValue_intText {z : Int} (hb : 1 < b) (hb' : b ≤ 16) : intValue b (intText b z) = some z := by
  unfold intText
  by_cases h : z < 0
  · rw [if_pos h, intValue, if_pos rfl, value_text hb hb', Option.map_some]
    congr 1
    omega
  · rw [if_neg h]
    cases htext : text b z.natAbs with
    | nil => exact absurd htext text_ne_nil
    | cons c s =>
      obtain ⟨d, hd, rfl⟩ := mem_text hb (htext ▸ List.mem_cons_self : c ∈ text b z.natAbs)
      rw [intValue, if_neg (digit_ne_minus (Nat.lt_of_lt_of_le hd hb')), ← htext, value_text hb hb', Option.map_some]
      congr 1
      show (z.natAbs : Int) = z
      omega

/-- The numeral of an integer has `k` characters, the sign counted. -/
theorem length_intText_le_iff {z : Int} (hb : 1 < b) (hk : 0 < k) :
    (intText b z).length ≤ k + 1 ↔ -(b ^ k : Nat) < z ∧ z < (b ^ (k + 1) : Nat) := by
  unfold intText
  have hpos : 0 < b ^ k := Nat.pow_pos (by omega)
  have hpow : b ^ k ≤ b ^ (k + 1) := Nat.pow_le_pow_right (by omega) (Nat.le_succ k)
  split
  · rw [List.length_cons, Nat.add_le_add_iff_right, length_text_le_iff hb hk]
    omega
  · rw [length_text_le_iff hb (Nat.le_add_left 1 k)]
    omega

/-! ## The loop from the end -/

/-- A loop that puts a digit in front of the others as long as there is a number left and room for a digit. The
result is the room that is left and the digits. -/
def digitLoop (b : Nat) : Nat → Nat → List UInt8 → Option (Nat × List UInt8)
  | 0, _, _ => none
  | room + 1, n, s =>
    if n / b = 0 then some (room, digit (n % b) :: s) else digitLoop b room (n / b) (digit (n % b) :: s)

/-- The loop produces the numeral, if there is room for it. -/
theorem digitLoop_eq (hb : 1 < b) :
    digitLoop b k n s = if (text b n).length ≤ k then some (k - (text b n).length, text b n ++ s) else none := by
  induction k generalizing n s with
  | zero =>
    rw [if_neg]
    · rfl
    · have := List.length_pos_of_ne_nil (text_ne_nil (b := b) (n := n))
      omega
  | succ k ih =>
    rw [digitLoop]
    by_cases h : n < b
    · rw [if_pos (Nat.div_eq_of_lt h), text_of_lt h, Nat.mod_eq_of_lt h, List.length_singleton, if_pos (Nat.le_add_left 1 k)]
      rfl
    · have hle := Nat.not_lt.mp h
      have hdiv : n / b ≠ 0 := Nat.ne_of_gt (Nat.div_pos hle (by omega))
      rw [if_neg hdiv, ih, text_of_le hb hle, List.length_append, List.length_singleton, List.append_assoc,
        List.singleton_append, Nat.add_sub_add_right]
      simp only [Nat.add_le_add_iff_right]

end Numeral
