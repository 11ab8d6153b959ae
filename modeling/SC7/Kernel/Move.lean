-- SUMMARY: `memmove` (`string.c`): its two loops over the bytes, and that every overlap of the ranges comes out right.
import Mathlib.Algebra.Group.Nat.Defs
import SC7.Base.Copying

/-!
# `memmove`

The pointers are words of 64 bits and the length is a `uint`. A range of memory ends before the last address, so
that the pointer behind it is one: where the source does, the comparison of `src + n` with `dst` tells whether the
ranges overlap.
-/

namespace SC7.Move

open Function (update)

abbrev Memory := UInt64 → UInt8

/-- `while (n-- > 0) *--d = *--s;` -/
def backward (d s : UInt64) (mem : Memory) : Nat → Memory
  | 0 => mem
  | n + 1 => backward (d - 1) (s - 1) (update mem (d - 1) (mem (s - 1))) n

/-- `while (n-- > 0) *d++ = *s++;` -/
def forward (d s : UInt64) (mem : Memory) : Nat → Memory
  | 0 => mem
  | n + 1 => forward (d + 1) (s + 1) (update mem d (mem s)) n

/-- `memmove(dst, src, n)`: the pointer that it returns, and the memory afterwards. -/
def memmove (dst src : UInt64) (n : UInt32) (mem : Memory) : UInt64 × Memory :=
  if src < dst ∧ src + n.toUInt64 > dst then
    (dst, backward (dst + n.toUInt64) (src + n.toUInt64) mem n.toNat)
  else (dst, forward dst src mem n.toNat)

variable {dst src d s a : UInt64} {n : UInt32} {mem : Memory} {k : Nat}

/-- Byte `i` of the range that starts at `p`. -/
def byte (p : UInt64) (i : Nat) : UInt64 := p + .ofNat i

theorem byte_zero (p : UInt64) : byte p 0 = p := by simp [byte]

theorem byte_succ (p : UInt64) (i : Nat) : byte p (i + 1) = byte (p + 1) i := by
  simp only [byte]
  rw [Nat.add_comm i 1, UInt64.ofNat_add, ← UInt64.add_assoc]
  rfl

/-- The copies of the loop that goes up. -/
def upward (d s : UInt64) (k : Nat) : List (UInt64 × UInt64) :=
  (List.range k).map fun i => (byte d i, byte s i)

theorem forward_eq (d s : UInt64) (mem : Memory) (k : Nat) : forward d s mem k = Copying.run mem (upward d s k) := by
  induction k generalizing d s mem with
  | zero => rfl
  | succ k ih =>
    have hcons : upward d s (k + 1) = (d, s) :: upward (d + 1) (s + 1) k := by
      unfold upward
      rw [List.range_succ_eq_map, List.map_cons, List.map_map, byte_zero, byte_zero]
      congr 2
      funext i
      simp only [Function.comp, byte_succ]
    rw [forward, ih, hcons, Copying.run_cons]

/-- The loop that goes down makes the same copies in the other order. -/
theorem backward_eq (d s : UInt64) (mem : Memory) (k : Nat) :
    backward (byte d k) (byte s k) mem k = Copying.run mem (upward d s k).reverse := by
  induction k generalizing mem with
  | zero => rfl
  | succ k ih =>
    have hpred : ∀ p, byte p (k + 1) - 1 = byte p k := by
      intro p
      simp only [byte]
      rw [UInt64.ofNat_add, ← UInt64.add_assoc]
      exact UInt64.add_sub_cancel _ _
    have hcons : (upward d s (k + 1)).reverse = (byte d k, byte s k) :: (upward d s k).reverse := by
      unfold upward
      rw [List.range_succ, List.map_append, List.reverse_append]
      rfl
    rw [backward, hpred, hpred, ih, hcons, Copying.run_cons]

theorem toNat_byte (p : UInt64) (i : Nat) : (byte p i).toNat = (p.toNat + i) % 2 ^ 64 := by
  rw [byte, UInt64.toNat_add, UInt64.toNat_ofNat']
  exact Nat.add_mod_mod _ _ _

theorem byte_ne {p q : UInt64} {i j : Nat} (h : (p.toNat + i) % 2 ^ 64 ≠ (q.toNat + j) % 2 ^ 64) : byte p i ≠ byte q j := by
  intro heq
  apply h
  rw [← toNat_byte, ← toNat_byte, heq]

/-- Bytes of one range are different. -/
theorem byte_inj {i j : Nat} (hi : i < n.toNat) (hj : j < n.toNat) (h : i ≠ j) : byte d i ≠ byte d j := by
  have hn : n.toNat < 2 ^ 32 := n.toNat_lt
  apply byte_ne
  omega

/-- The destination starts inside the source, behind its first byte. -/
def Ahead (dst src : UInt64) (n : UInt32) : Prop := src.toNat < dst.toNat ∧ dst.toNat < src.toNat + n.toNat

/-- Going up is right if the destination does not start inside the source. -/
theorem upward_inTime (hsrc : src.toNat + n.toNat < 2 ^ 64) (h : ¬Ahead dst src n) :
    Copying.InTime (upward dst src n.toNat) := by
  have hn : n.toNat < 2 ^ 32 := n.toNat_lt
  have hd : dst.toNat < 2 ^ 64 := dst.toNat_lt
  unfold Copying.InTime upward
  rw [List.pairwise_map]
  apply List.pairwise_lt_range.imp_of_mem
  intro i j hi hj hij
  rw [List.mem_range] at hi hj
  refine ⟨byte_ne ?_, byte_inj hi hj (by omega)⟩
  unfold Ahead at h
  omega

/-- Going down is right if it does. -/
theorem downward_inTime (h : Ahead dst src n) (hsrc : src.toNat + n.toNat < 2 ^ 64) :
    Copying.InTime (upward dst src n.toNat).reverse := by
  have hn : n.toNat < 2 ^ 32 := n.toNat_lt
  unfold Copying.InTime upward
  rw [List.pairwise_reverse, List.pairwise_map]
  apply List.pairwise_lt_range.imp_of_mem
  intro i j hi hj hij
  rw [List.mem_range] at hi hj
  refine ⟨byte_ne ?_, byte_inj hj hi (by omega)⟩
  unfold Ahead at h
  omega

/-- The comparison of the pointers. -/
theorem overlap_iff (hsrc : src.toNat + n.toNat < 2 ^ 64) : src < dst ∧ src + n.toUInt64 > dst ↔ Ahead dst src n := by
  have hend : (src + n.toUInt64).toNat = src.toNat + n.toNat := by
    rw [UInt64.toNat_add, UInt32.toNat_toUInt64, Nat.mod_eq_of_lt hsrc]
  rw [gt_iff_lt, UInt64.lt_iff_toNat_lt, UInt64.lt_iff_toNat_lt, hend]
  rfl

/-- The destination holds what the source held before, and nothing else has changed. -/
structure Moved (before after : Memory) (dst src : UInt64) (n : UInt32) : Prop where
  moved : ∀ i < n.toNat, after (byte dst i) = before (byte src i)
  frame : ∀ a, (∀ i < n.toNat, a ≠ byte dst i) → after a = before a

theorem byte_toUInt64 (p : UInt64) (n : UInt32) : p + n.toUInt64 = byte p n.toNat := by
  apply UInt64.toNat_inj.mp
  rw [toNat_byte, UInt64.toNat_add, UInt32.toNat_toUInt64]

/-- A run that makes each copy of the block in time moves it. -/
theorem moved_run {ps : List (UInt64 × UInt64)} (hps : Copying.InTime ps)
    (hmem : ∀ p, p ∈ ps ↔ p ∈ upward dst src n.toNat) : Moved mem (Copying.run mem ps) dst src n := by
  constructor
  · intro i hi
    apply Copying.run_moved hps
    rw [hmem]
    exact List.mem_map_of_mem (List.mem_range.mpr hi)
  · intro a ha
    apply Copying.run_frame
    intro p hp
    obtain ⟨i, hi, rfl⟩ := List.mem_map.mp ((hmem p).mp hp)
    exact ha i (List.mem_range.mp hi)

theorem memmove_fst : (memmove dst src n mem).1 = dst := by
  unfold memmove
  split <;> rfl

theorem moved_memmove (mem : Memory) (dst : UInt64) (hsrc : src.toNat + n.toNat < 2 ^ 64) :
    Moved mem (memmove dst src n mem).2 dst src n := by
  unfold memmove
  split
  · rename_i h
    rw [overlap_iff hsrc] at h
    rw [byte_toUInt64, byte_toUInt64, backward_eq]
    exact moved_run (downward_inTime h hsrc) fun p => List.mem_reverse
  · rename_i h
    rw [overlap_iff hsrc] at h
    rw [forward_eq]
    exact moved_run (upward_inTime hsrc h) fun p => Iff.rfl

/-- `memmove` moves the source range to the destination, however the two overlap. -/
theorem memmove_moves (mem : Memory) (dst src : UInt64) (n : UInt32) (hsrc : src.toNat + n.toNat < 2 ^ 64) :
    (memmove dst src n mem).1 = dst ∧ Moved mem (memmove dst src n mem).2 dst src n :=
  ⟨memmove_fst, moved_memmove mem dst hsrc⟩

/-- Two bytes are moved up by one, so that one of them is overwritten. -/
theorem memmove_moves_up :
    (memmove 0x80000001 0x80000000 2 UInt64.toUInt8).1 = 0x80000001 ∧
      Moved UInt64.toUInt8 (memmove 0x80000001 0x80000000 2 UInt64.toUInt8).2 0x80000001 0x80000000 2 :=
  memmove_moves UInt64.toUInt8 0x80000001 0x80000000 2 (by decide)

end SC7.Move
