-- SUMMARY: Byte memory that is written block by block downwards, little-endian words in it, and what can be read back.
import Mathlib.Data.List.Basic
import Mathlib.Data.List.GetD
import Mathlib.Data.List.Pairwise
import Mathlib.Tactic.Ring

/-!
# Blocks of bytes

A block is an address with the bytes written there. A list of blocks, the newest first, is written
over a memory; if each block ends where the one before it starts, or below, all of them can be read
back. Words are little-endian.
-/

namespace Blocks

abbrev Block := Nat × List UInt8

/-- The memory after one block is written. -/
def write (m : Nat → UInt8) (b : Block) (a : Nat) : UInt8 :=
  if b.1 ≤ a ∧ a < b.1 + b.2.length then b.2.getD (a - b.1) 0 else m a

/-- The memory after all blocks, the newest first, are written. -/
def image (m : Nat → UInt8) (bs : List Block) : Nat → UInt8 := bs.foldr (fun b m => write m b) m

/-- Where the newest block starts; `top` if there is none. -/
def low (top : Nat) : List Block → Nat
  | [] => top
  | b :: _ => b.1

/-- Each block ends at the start of the block before it, or below. -/
def Descends (top : Nat) : List Block → Prop
  | [] => True
  | b :: bs => b.1 + b.2.length ≤ low top bs ∧ Descends top bs

variable {m m' : Nat → UInt8} {top a n k : Nat} {b : Block} {bs : List Block} {ws : List Nat} {str : List UInt8}

theorem Descends.le_start (h : Descends top bs) (hb : b ∈ bs) : low top bs ≤ b.1 := by
  induction bs with
  | nil => cases hb
  | cons c cs ih =>
    obtain rfl | hb := List.mem_cons.mp hb
    · exact le_refl _
    · have hlow := ih h.2 hb
      have hc := h.1
      rw [low]
      omega

/-- No two blocks overlap. -/
theorem Descends.pairwise (h : Descends top bs) : bs.Pairwise fun b c => b.1 + b.2.length ≤ c.1 := by
  induction bs with
  | nil => exact List.Pairwise.nil
  | cons b bs ih =>
    refine List.pairwise_cons.mpr ⟨fun c hc => ?_, ih h.2⟩
    exact h.1.trans (h.2.le_start hc)

/-- A block can be read back. -/
theorem Descends.image_eq (h : Descends top bs) (hb : b ∈ bs) {i : Nat} (hi : i < b.2.length) :
    image m bs (b.1 + i) = b.2.getD i 0 := by
  induction bs with
  | nil => cases hb
  | cons c cs ih =>
    rw [image, List.foldr_cons, ← image, write]
    obtain rfl | hb := List.mem_cons.mp hb
    · rw [if_pos (by omega), Nat.add_sub_cancel_left]
    · -- An older block lies above the newest one.
      have hle := h.2.le_start hb
      have hc := h.1
      rw [if_neg (by omega)]
      exact ih h.2 hb

/-! ## Words -/

/-- The `n` low bytes of a number. -/
def leBytes : Nat → Nat → List UInt8
  | 0, _ => []
  | n + 1, w => UInt8.ofNat w :: leBytes n (w / 256)

/-- The number in `n` bytes. -/
def leRead (m : Nat → UInt8) : Nat → Nat → Nat
  | 0, _ => 0
  | n + 1, a => (m a).toNat + 256 * leRead m n (a + 1)

theorem length_leBytes (n w : Nat) : (leBytes n w).length = n := by
  induction n generalizing w with
  | zero => rfl
  | succ n ih => rw [leBytes, List.length_cons, ih]

theorem leRead_eq {w : Nat} (h : ∀ i < n, m (a + i) = (leBytes n w).getD i 0) : leRead m n a = w % 256 ^ n := by
  induction n generalizing a w with
  | zero => rw [leRead, Nat.pow_zero, Nat.mod_one]
  | succ n ih =>
    have hhead : m a = UInt8.ofNat w := h 0 (Nat.succ_pos n)
    have htail : leRead m n (a + 1) = w / 256 % 256 ^ n := by
      refine ih fun i hi => ?_
      have := h (i + 1) (by omega)
      rwa [leBytes, List.getD_cons_succ, ← Nat.add_assoc, Nat.add_right_comm] at this
    have hbyte : (UInt8.ofNat w).toNat = w % 256 := UInt8.toNat_ofNat
    rw [leRead, hhead, htail, hbyte, pow_succ, Nat.mul_comm (256 ^ n), Nat.mod_mul]

/-- A word of 8 bytes. -/
def readWord (m : Nat → UInt8) (a : Nat) : Nat := leRead m 8 a

theorem leRead_congr (h : ∀ i < n, m (a + i) = m' (a + i)) : leRead m n a = leRead m' n a := by
  induction n generalizing a with
  | zero => rfl
  | succ n ih =>
    have hrest : leRead m n (a + 1) = leRead m' n (a + 1) := by
      apply ih
      intro i hi
      have := h (i + 1) (by omega)
      rwa [← Nat.add_assoc, Nat.add_right_comm] at this
    rw [leRead, leRead, hrest]
    exact congrArg (fun b : UInt8 => b.toNat + 256 * leRead m' n (a + 1)) (h 0 (Nat.succ_pos n))

theorem readWord_congr (h : ∀ i < 8, m (a + i) = m' (a + i)) : readWord m a = readWord m' a := leRead_congr h

/-- A word that was written can be read back. -/
theorem readWord_write_self (m : Nat → UInt8) (a w : Nat) :
    readWord (write m (a, leBytes 8 w)) a = w % 2 ^ 64 := by
  apply leRead_eq
  intro i hi
  rw [write, if_pos (by rw [length_leBytes]; omega), Nat.add_sub_cancel_left]

/-- Words at other multiples of eight do not change. -/
theorem readWord_write_of_ne {x : Nat} (w : Nat) (ha : a % 8 = 0) (hx : x % 8 = 0) (hne : x ≠ a) :
    readWord (write m (a, leBytes 8 w)) x = readWord m x := by
  apply readWord_congr
  intro i hi
  rw [write, if_neg (by rw [length_leBytes]; omega)]

/-- Zero bytes are the word `0`. -/
theorem readWord_zero (h : ∀ i < 8, m (a + i) = 0) : readWord m a = 0 := by
  have hbytes : ∀ i < 8, m (a + i) = (leBytes 8 0).getD i 0 := by
    intro i hi
    rw [h i hi]
    revert i
    decide
  exact leRead_eq hbytes

/-- The bytes of a list of words. -/
def wordBytes (ws : List Nat) : List UInt8 := ws.flatMap (leBytes 8)

theorem length_wordBytes (ws : List Nat) : (wordBytes ws).length = 8 * ws.length := by
  induction ws with
  | nil => rfl
  | cons w ws ih =>
    rw [wordBytes, List.flatMap_cons, List.length_append, length_leBytes, ← wordBytes, ih, List.length_cons]
    omega

/-- The words of a block can be read back. -/
theorem readWord_eq (h : ∀ i < 8 * ws.length, m (a + i) = (wordBytes ws).getD i 0) (hlt : ∀ w ∈ ws, w < 2 ^ 64)
    (hk : k < ws.length) : readWord m (a + 8 * k) = ws[k] := by
  induction ws generalizing a k with
  | nil => exact absurd hk (Nat.not_lt_zero k)
  | cons w ws ih =>
    rw [List.length_cons] at h
    have hsplit : wordBytes (w :: ws) = leBytes 8 w ++ wordBytes ws := List.flatMap_cons
    cases k with
    | zero =>
      have hw : w % 256 ^ 8 = w := Nat.mod_eq_of_lt (hlt w List.mem_cons_self)
      rw [readWord, Nat.mul_zero, Nat.add_zero, List.getElem_cons_zero]
      refine (leRead_eq fun i hi => ?_).trans hw
      rw [h i (by omega), hsplit, List.getD_append _ _ _ _ (by rw [length_leBytes]; exact hi)]
    | succ k =>
      have hrest : ∀ i < 8 * ws.length, m (a + 8 + i) = (wordBytes ws).getD i 0 := by
        intro i hi
        have hat := h (8 + i) (by omega)
        rw [hsplit, List.getD_append_right _ _ _ _ (by rw [length_leBytes]; omega),
          length_leBytes, Nat.add_sub_cancel_left, ← Nat.add_assoc] at hat
        exact hat
      have hk' : k < ws.length := by
        rw [List.length_cons] at hk
        omega
      have := ih hrest (fun w hw => hlt w (List.mem_cons_of_mem _ hw)) hk'
      rw [List.getElem_cons_succ, ← this]
      exact congrArg (readWord m) (by omega)

/-- The words of a block that was written can be read back. -/
theorem Descends.readWord_eq (h : Descends top bs)
    (hb : (a, wordBytes ws) ∈ bs) (hlt : ∀ w ∈ ws, w < 2 ^ 64) (hk : k < ws.length) :
    readWord (image m bs) (a + 8 * k) = ws[k] := by
  refine Blocks.readWord_eq (fun i hi => ?_) hlt hk
  exact h.image_eq hb (by rw [length_wordBytes]; exact hi)

/-- The words from `a` on are these. -/
def WordsAt (m : Nat → UInt8) : Nat → List Nat → Prop
  | _, [] => True
  | a, w :: ws => readWord m a = w ∧ WordsAt m (a + 8) ws

theorem wordsAt_append {ws' : List Nat} :
    WordsAt m a (ws ++ ws') ↔ WordsAt m a ws ∧ WordsAt m (a + 8 * ws.length) ws' := by
  induction ws generalizing a with
  | nil => exact ⟨fun h => ⟨trivial, h⟩, fun h => h.2⟩
  | cons w ws ih =>
    have hstep : a + 8 * (w :: ws).length = a + 8 + 8 * ws.length := by
      rw [List.length_cons]
      omega
    rw [List.cons_append, WordsAt, WordsAt, ih, hstep, and_assoc]

theorem wordsAt_of_forall (h : ∀ k (hk : k < ws.length), readWord m (a + 8 * k) = ws[k]) : WordsAt m a ws := by
  induction ws generalizing a with
  | nil => trivial
  | cons w ws ih =>
    refine ⟨h 0 (Nat.succ_pos _), ih fun k hk => ?_⟩
    have hat := h (k + 1) (Nat.succ_lt_succ hk)
    rw [List.getElem_cons_succ] at hat
    rw [← hat]
    exact congrArg (readWord m) (by omega)

/-- A list of words that was written is there. -/
theorem Descends.wordsAt (h : Descends top bs)
    (hb : (a, wordBytes ws) ∈ bs) (hlt : ∀ w ∈ ws, w < 2 ^ 64) : WordsAt (image m bs) a ws :=
  wordsAt_of_forall fun _ hk => h.readWord_eq hb hlt hk

/-- Reading the words one by one. -/
theorem WordsAt.map_range (h : WordsAt m a ws) :
    (List.range ws.length).map (fun i => readWord m (a + 8 * i)) = ws := by
  induction ws generalizing a with
  | nil => rfl
  | cons w ws ih =>
    rw [List.length_cons, List.range_succ_eq_map, List.map_cons, List.map_map]
    refine congrArg₂ _ h.1 ((List.map_congr_left fun i _ => ?_).trans (ih h.2))
    simp only [Function.comp]
    exact congrArg (readWord m) (by omega)

/-! ## Strings -/

/-- The bytes from `a` up to a zero. -/
def readStr (m : Nat → UInt8) : Nat → Nat → Option (List UInt8)
  | 0, _ => none
  | n + 1, a => if m a = 0 then some [] else (readStr m n (a + 1)).map (m a :: ·)

theorem readStr_eq (h : ∀ i < str.length + 1, m (a + i) = (str ++ [0]).getD i 0) (hnz : (0 : UInt8) ∉ str)
    (hn : str.length < n) : readStr m n a = some str := by
  induction str generalizing a n with
  | nil =>
    obtain ⟨n, rfl⟩ := Nat.exists_eq_add_of_lt hn
    have hzero : m a = 0 := h 0 (Nat.succ_pos _)
    rw [readStr, if_pos hzero]
  | cons c str ih =>
    obtain ⟨n, rfl⟩ : ∃ k, n = k + 1 := ⟨n - 1, by omega⟩
    have hhead : m a = c := h 0 (Nat.succ_pos _)
    have hc : c ≠ 0 := fun hc => hnz (hc ▸ List.mem_cons_self)
    have hrest : readStr m n (a + 1) = some str := by
      refine ih (fun i hi => ?_) (fun hz => hnz (List.mem_cons_of_mem _ hz)) ?_
      · have := h (i + 1) (by rw [List.length_cons]; omega)
        rwa [List.cons_append, List.getD_cons_succ, ← Nat.add_assoc, Nat.add_right_comm] at this
      · rw [List.length_cons] at hn
        omega
    rw [readStr, hhead, if_neg hc, hrest, Option.map_some]

/-- A string that was written can be read back. -/
theorem Descends.readStr_eq (h : Descends top bs)
    (hb : (a, str ++ [0]) ∈ bs) (hnz : (0 : UInt8) ∉ str) (hn : str.length < n) :
    readStr (image m bs) n a = some str := by
  refine Blocks.readStr_eq (fun i hi => ?_) hnz hn
  exact h.image_eq hb (by rw [List.length_append]; exact hi)

end Blocks
