-- SUMMARY: Blocks of power-of-two size at aligned positions: nesting, halves, and the buddy obtained by exclusive or.
import Mathlib.Data.Nat.Bitwise
import Mathlib.Tactic.Ring

/-!
# Dyadic blocks

The block of order `k` at `n` is the interval `[n, n + 2 ^ k)`, and it is aligned
when `2 ^ k` divides `n`. Two aligned blocks are either nested or disjoint, and an
aligned block has one buddy, its other half in the block of the next order.
-/

namespace Dyadic

/-- The block of order `k` at `n` is aligned. -/
def Aligned (k n : Nat) : Prop := n % 2 ^ k = 0

instance (k n : Nat) : Decidable (Aligned k n) := inferInstanceAs (Decidable (n % 2 ^ k = 0))

/-- The start of the aligned block of order `k` around `q`. -/
def floor (k q : Nat) : Nat := q / 2 ^ k * 2 ^ k

theorem Aligned.eq_mul {k n : Nat} (h : Aligned k n) : n = 2 ^ k * (n / 2 ^ k) := by
  have := Nat.div_add_mod n (2 ^ k)
  rw [Aligned] at h
  omega

theorem aligned_mul (k m : Nat) : Aligned k (2 ^ k * m) := Nat.mul_mod_right _ _

theorem Aligned.of_le {j k n : Nat} (h : Aligned k n) (hjk : j ≤ k) : Aligned j n :=
  Nat.mod_eq_zero_of_dvd ((Nat.pow_dvd_pow 2 hjk).trans (Nat.dvd_of_mod_eq_zero h))

theorem Aligned.add {k n : Nat} (h : Aligned k n) : Aligned k (n + 2 ^ k) := by
  simpa [Aligned] using h

theorem floor_aligned (k q : Nat) : Aligned k (floor k q) := by
  rw [floor, Nat.mul_comm]
  exact aligned_mul k _

theorem floor_le (k q : Nat) : floor k q ≤ q := Nat.div_mul_le_self q _

theorem lt_floor_add (k q : Nat) : q < floor k q + 2 ^ k := by
  have h := Nat.div_add_mod q (2 ^ k)
  have hlt : q % 2 ^ k < 2 ^ k := Nat.mod_lt _ (Nat.two_pow_pos _)
  rw [floor, Nat.mul_comm]
  omega

/-- The first aligned position of order `k` from `q` on. -/
def ceil (k q : Nat) : Nat := floor k (q + (2 ^ k - 1))

theorem ceil_aligned (k q : Nat) : Aligned k (ceil k q) := floor_aligned k _

theorem le_ceil (k q : Nat) : q ≤ ceil k q := by
  have := lt_floor_add k (q + (2 ^ k - 1))
  rw [ceil]
  omega

theorem ceil_lt (k q : Nat) : ceil k q < q + 2 ^ k := by
  have := floor_le k (q + (2 ^ k - 1))
  have := Nat.two_pow_pos k
  rw [ceil]
  omega

theorem Aligned.ceil_le {k n q : Nat} (h : Aligned k n) (hle : q ≤ n) : ceil k q ≤ n := by
  have hn := h.eq_mul
  have hlt : (q + (2 ^ k - 1)) / 2 ^ k < n / 2 ^ k + 1 := by
    rw [Nat.div_lt_iff_lt_mul (Nat.two_pow_pos k), Nat.add_mul, Nat.one_mul, Nat.mul_comm, ← hn]
    have := Nat.two_pow_pos k
    omega
  calc ceil k q = (q + (2 ^ k - 1)) / 2 ^ k * 2 ^ k := rfl
    _ ≤ n / 2 ^ k * 2 ^ k := Nat.mul_le_mul_right _ (Nat.le_of_lt_succ hlt)
    _ ≤ n := Nat.div_mul_le_self _ _

/-- The aligned block around a position is the only one. -/
theorem Aligned.eq_floor {k n q : Nat} (h : Aligned k n) (hle : n ≤ q) (hlt : q < n + 2 ^ k) :
    n = floor k q := by
  have hn := h.eq_mul
  have hdiv : q / 2 ^ k = n / 2 ^ k := by
    apply Nat.div_eq_of_lt_le
    · rw [Nat.mul_comm, ← hn]
      exact hle
    · rw [Nat.add_mul, Nat.one_mul, Nat.mul_comm, ← hn]
      exact hlt
  rw [floor, hdiv, Nat.mul_comm]
  exact hn

/-- Of two aligned blocks that meet, the smaller one lies in the larger one. -/
theorem Aligned.nested {j k m n q : Nat} (hm : Aligned j m) (hn : Aligned k n) (hjk : j ≤ k)
    (hmq : m ≤ q) (hqm : q < m + 2 ^ j) (hnq : n ≤ q) (hqn : q < n + 2 ^ k) :
    n ≤ m ∧ m + 2 ^ j ≤ n + 2 ^ k := by
  -- in units of `2 ^ j` both ends of the larger block are whole numbers
  obtain ⟨d, rfl⟩ := Nat.exists_eq_add_of_le hjk
  rw [hm.eq_mul] at hmq hqm ⊢
  have hn' : n = 2 ^ j * (2 ^ d * (n / 2 ^ (j + d))) := by
    rw [← Nat.mul_assoc, ← Nat.pow_add]
    exact hn.eq_mul
  have hpow : 2 ^ (j + d) = 2 ^ j * 2 ^ d := Nat.pow_add 2 j d
  rw [hpow] at hqn ⊢
  generalize m / 2 ^ j = a at *
  generalize 2 ^ d * (n / 2 ^ (j + d)) = b at *
  subst hn'
  have hpos : 0 < 2 ^ j := Nat.two_pow_pos j
  have h1 : b < a + 1 := Nat.lt_of_mul_lt_mul_left
    (show 2 ^ j * b < 2 ^ j * (a + 1) by rw [Nat.mul_add, Nat.mul_one]; omega)
  have h2 : a < b + 2 ^ d := Nat.lt_of_mul_lt_mul_left
    (show 2 ^ j * a < 2 ^ j * (b + 2 ^ d) by rw [Nat.mul_add]; omega)
  constructor
  · exact Nat.mul_le_mul_left _ (by omega)
  · calc 2 ^ j * a + 2 ^ j = 2 ^ j * (a + 1) := by ring
      _ ≤ 2 ^ j * (b + 2 ^ d) := Nat.mul_le_mul_left _ (by omega)
      _ = 2 ^ j * b + 2 ^ j * 2 ^ d := by ring

/-! ## Buddies -/

/-- The start of the buddy of the block of order `k` at `n`. -/
def buddy (k n : Nat) : Nat := n ^^^ 2 ^ k

theorem Aligned.xor {k n : Nat} (h : Aligned k n) : buddy k n = 2 ^ k * ((n / 2 ^ k) ^^^ 1) := by
  have hn : n = (n / 2 ^ k) <<< k := by
    rw [Nat.shiftLeft_eq, Nat.mul_comm]
    exact h.eq_mul
  have hone : 2 ^ k = 1 <<< k := by rw [Nat.shiftLeft_eq, Nat.one_mul]
  calc buddy k n = (n / 2 ^ k) <<< k ^^^ 1 <<< k := by rw [buddy, ← hn, ← hone]
    _ = 2 ^ k * ((n / 2 ^ k) ^^^ 1) := by
        rw [← Nat.shiftLeft_xor_distrib, Nat.shiftLeft_eq, Nat.mul_comm]

/-- The lower half of a block: its buddy is the upper half. -/
theorem buddy_of_aligned_succ {k n : Nat} (h : Aligned (k + 1) n) : buddy k n = n + 2 ^ k := by
  have hk : Aligned k n := h.of_le (Nat.le_succ k)
  have hn := h.eq_mul
  have heven : n / 2 ^ k = 2 * (n / 2 ^ (k + 1)) := by
    apply Nat.div_eq_of_eq_mul_right (Nat.two_pow_pos k)
    rw [← Nat.mul_assoc, ← Nat.pow_succ]
    exact hn
  have hxor : (n / 2 ^ k) ^^^ 1 = n / 2 ^ k + 1 := Nat.xor_one_of_even ⟨n / 2 ^ (k + 1), by rw [heven]; ring⟩
  rw [hk.xor, hxor, Nat.mul_add, Nat.mul_one, ← hk.eq_mul]

/-- The upper half of a block: its buddy is the lower half, which starts the block. -/
theorem buddy_of_not_aligned_succ {k n : Nat} (hk : Aligned k n) (h : ¬ Aligned (k + 1) n) :
    buddy k n + 2 ^ k = n ∧ Aligned (k + 1) (buddy k n) := by
  have hodd : n / 2 ^ k % 2 = 1 := by
    rcases Nat.mod_two_eq_zero_or_one (n / 2 ^ k) with h0 | h1
    · exfalso
      apply h
      have : n = 2 ^ (k + 1) * (n / 2 ^ k / 2) := by
        have h2 := Nat.div_add_mod (n / 2 ^ k) 2
        rw [Nat.pow_succ, Nat.mul_assoc, show 2 * (n / 2 ^ k / 2) = n / 2 ^ k by omega]
        exact hk.eq_mul
      rw [this]
      exact aligned_mul _ _
    · exact h1
  have hxor : (n / 2 ^ k) ^^^ 1 = n / 2 ^ k - 1 := Nat.xor_one_of_odd (Nat.odd_iff.mpr hodd)
  have hge : 1 ≤ n / 2 ^ k := by
    generalize n / 2 ^ k = m at hodd
    omega
  have hsum : buddy k n + 2 ^ k = n := by
    rw [hk.xor, hxor]
    calc 2 ^ k * (n / 2 ^ k - 1) + 2 ^ k = 2 ^ k * (n / 2 ^ k - 1 + 1) := by ring
      _ = 2 ^ k * (n / 2 ^ k) := by rw [Nat.sub_add_cancel hge]
      _ = n := hk.eq_mul.symm
  refine ⟨hsum, ?_⟩
  have h2 := Nat.div_add_mod (n / 2 ^ k) 2
  rw [hk.xor, hxor, show n / 2 ^ k - 1 = 2 * (n / 2 ^ k / 2) by omega, ← Nat.mul_assoc, ← Nat.pow_succ]
  exact aligned_mul _ _

/-- A block and its buddy are the two halves of one aligned block. -/
theorem Aligned.buddy_cases {k n : Nat} (hk : Aligned k n) :
    (Aligned (k + 1) n ∧ buddy k n = n + 2 ^ k) ∨ (Aligned (k + 1) (buddy k n) ∧ buddy k n + 2 ^ k = n) := by
  by_cases h : Aligned (k + 1) n
  · exact .inl ⟨h, buddy_of_aligned_succ h⟩
  · obtain ⟨hsum, hal⟩ := buddy_of_not_aligned_succ hk h
    exact .inr ⟨hal, hsum⟩

theorem Aligned.buddy_aligned {k n : Nat} (hk : Aligned k n) : Aligned k (buddy k n) := by
  rw [hk.xor]
  exact aligned_mul _ _

theorem buddy_buddy (k n : Nat) : buddy k (buddy k n) = n := by
  simp [buddy]

/-- Scaling: the buddy of a block given in smaller units. -/
theorem buddy_mul (i k n : Nat) : (2 ^ i * n) ^^^ (2 ^ i * 2 ^ k) = 2 ^ i * buddy k n := by
  have hshift : ∀ m, 2 ^ i * m = m <<< i := fun m => by rw [Nat.shiftLeft_eq, Nat.mul_comm]
  rw [hshift, hshift, hshift, buddy, Nat.shiftLeft_xor_distrib]

end Dyadic
