-- SUMMARY: Strings in memory that end with a zero: the lengths, comparisons, searches and numbers of the C library, which never read behind it.
import Mathlib.Data.List.Basic
import Mathlib.Algebra.Group.Int.Defs
import Mathlib.Algebra.Group.Nat.Defs

/-!
# C strings

A string is the list of its bytes in front of the zero that ends it, and a pointer into it is an index.
There is nothing to read behind the zero, so a read there is a failure (`none`). A loop without a bound has
as many turns as the string has bytes to read; one turn more is a failure as well.

The lemmas speak of a string that is `p ++ u` and a pointer to the start of `u`.
-/

namespace CString

/-- `s[i]`. -/
def read (s : List UInt8) (i : Nat) : Option UInt8 := if i = s.length then some 0 else s[i]?

/-- The loop of the comparisons; `last` is for a loop whose turns are over. -/
def compareLoop (last : Option Int) (s : List UInt8) (i : Nat) (t : List UInt8) (j : Nat) : Nat → Option Int
  | 0 => last
  | turns + 1 => do
      let a ← read s i
      let b ← read t j
      if a ≠ 0 ∧ a = b then compareLoop last s (i + 1) t (j + 1) turns else return (a.toNat : Int) - b.toNat

/-- `strncmp(s + i, t, n)`. -/
def strncmp (s : List UInt8) (i : Nat) (t : List UInt8) (n : Nat) : Option Int := compareLoop (some 0) s i t 0 n

/-- `strcmp(s + i, t)`. -/
def strcmp (s : List UInt8) (i : Nat) (t : List UInt8) : Option Int := compareLoop none s i t 0 (s.length + 1)

/-- The loop of `strchr`. -/
def strchrLoop (s : List UInt8) (i : Nat) (c : UInt8) : Nat → Option (Option Nat)
  | 0 => none
  | turns + 1 => do
      let a ← read s i
      if a = 0 then return if c = 0 then some i else none
      else if a = c then return some i
      else strchrLoop s (i + 1) c turns

/-- `strchr(s + i, c)`, with `none` for `NULL`. -/
def strchr (s : List UInt8) (i : Nat) (c : UInt8) : Option (Option Nat) := strchrLoop s i c (s.length + 1)

/-- The bytes that `strncpy(dst, s + i, n)` writes. -/
def strncpy (s : List UInt8) (i : Nat) : Nat → Option (List UInt8)
  | 0 => some []
  | n + 1 => do
      let a ← read s i
      if a = 0 then return List.replicate (n + 1) 0
      else return a :: (← strncpy s (i + 1) n)

/-- The loop of `strlen`. The `int` that counts the bytes does not get to `2 ^ 31`. -/
def strlenLoop (s : List UInt8) (n : Nat) : Nat → Option Nat
  | 0 => none
  | turns + 1 => do
      let a ← read s n
      if a = 0 then return n
      else if n + 1 = 2 ^ 31 then none
      else strlenLoop s (n + 1) turns

/-- `strlen(s)`. -/
def strlen (s : List UInt8) : Option Nat := strlenLoop s 0 (s.length + 1)

/-- A loop that moves a pointer over the bytes that have a property. -/
def skipLoop (has : UInt8 → Bool) (s : List UInt8) (i : Nat) : Nat → Option Nat
  | 0 => none
  | turns + 1 => do
      let a ← read s i
      if has a then skipLoop has s (i + 1) turns else return i

/-- The pointer where such a loop stops. -/
def skip (has : UInt8 → Bool) (s : List UInt8) (i : Nat) : Option Nat := skipLoop has s i (s.length + 1)

/-! ## What they find -/

variable {p q u v d r s t : List UInt8} {a c : UInt8} {i n turns : Nat}

theorem read_append (p u : List UInt8) (k : Nat) : read (p ++ u) (p.length + k) = read u k := by
  unfold read
  rw [List.length_append, List.getElem?_append_right (Nat.le_add_right _ _), Nat.add_sub_cancel_left]
  simp only [Nat.add_left_cancel_iff]

@[simp]
theorem read_end (p : List UInt8) : read p p.length = some 0 := if_pos rfl

@[simp]
theorem read_cons (p u : List UInt8) (a : UInt8) : read (p ++ a :: u) p.length = some a := read_append p (a :: u) 0

/-- The pointer moves over a byte. -/
theorem step_cons (p u : List UInt8) (a : UInt8) : p ++ a :: u = (p ++ [a]) ++ u ∧ p.length + 1 = (p ++ [a]).length := by
  simp

/-- The pointer moves over a part. -/
theorem behind (hs : s = p ++ (v ++ u)) (hi : i = p.length) : s = (p ++ v) ++ u ∧ i + v.length = (p ++ v).length := by
  subst hs hi
  exact ⟨(List.append_assoc p v u).symm, List.length_append.symm⟩

theorem toNat_sub_ne {a b : UInt8} (h : a ≠ b) : (a.toNat : Int) - b.toNat ≠ 0 := by
  intro h0
  apply h
  rw [← UInt8.toNat_inj]
  omega

/-- A comparison runs out of turns, reaches the end of both strings, or finds a difference. -/
theorem compareLoop_spec (last : Option Int) (hu : 0 ∉ u) (hv : 0 ∉ v) :
    u.take n = v.take n ∧ n ≤ u.length ∧ compareLoop last (p ++ u) p.length (q ++ v) q.length n = last ∨
    u = v ∧ u.length < n ∧ compareLoop last (p ++ u) p.length (q ++ v) q.length n = some 0 ∨
    u.take n ≠ v.take n ∧ ∃ x, x ≠ 0 ∧ compareLoop last (p ++ u) p.length (q ++ v) q.length n = some x := by
  induction n generalizing p q u v with
  | zero => exact .inl ⟨by simp, Nat.zero_le _, rfl⟩
  | succ n ih =>
    unfold compareLoop
    match u, v with
    | [], [] => exact .inr (.inl ⟨rfl, by simp, by simp⟩)
    | [], b :: v =>
      have hb : (0 : UInt8) ≠ b := fun h => hv (h ▸ List.mem_cons_self)
      exact .inr (.inr ⟨by simp, _, toNat_sub_ne hb, by simp [hb]⟩)
    | a :: u, [] =>
      have ha : a ≠ 0 := fun h => hu (h ▸ List.mem_cons_self)
      exact .inr (.inr ⟨by simp, _, toNat_sub_ne ha, by simp⟩)
    | a :: u, b :: v =>
      have ha : a ≠ 0 := fun h => hu (h ▸ List.mem_cons_self)
      by_cases hab : a = b
      · subst hab
        obtain ⟨hs, hi⟩ := step_cons p u a
        obtain ⟨ht, hj⟩ := step_cons q v a
        simp only [read_cons, Option.bind_eq_bind, Option.bind_some, ne_eq, ha, not_false_eq_true,
          and_self, if_true, List.take_succ_cons, List.cons.injEq, true_and, List.length_cons]
        rw [hs, hi, ht, hj, Nat.add_le_add_iff_right, Nat.add_lt_add_iff_right]
        exact ih (List.not_mem_of_not_mem_cons hu) (List.not_mem_of_not_mem_cons hv)
      · exact .inr (.inr ⟨by simp [hab], _, toNat_sub_ne hab, by simp [hab]⟩)

/-- `strncmp` tells whether the first `n` bytes are the same, as far as the strings go. -/
theorem strncmp_spec (hs : s = p ++ u) (hi : i = p.length) (hu : 0 ∉ u) (hv : 0 ∉ v) :
    ∃ x, strncmp s i v n = some x ∧ (x = 0 ↔ u.take n = v.take n) := by
  subst hs hi
  obtain ⟨htake, -, hx⟩ | ⟨heq, -, hx⟩ | ⟨hne, x, hx0, hx⟩ := compareLoop_spec (p := p) (q := []) (n := n) (some 0) hu hv
  · exact ⟨0, hx, by simp [htake]⟩
  · exact ⟨0, hx, by simp [heq]⟩
  · exact ⟨x, hx, by simp [hx0, hne]⟩

/-- For as many bytes as the other string has, it tells whether that is a prefix. -/
theorem strncmp_prefix (hs : s = p ++ u) (hi : i = p.length) (hu : 0 ∉ u) (hv : 0 ∉ v) (hn : v.length = n) :
    ∃ x, strncmp s i v n = some x ∧ (x = 0 ↔ v <+: u) := by
  obtain ⟨x, hx, hiff⟩ := strncmp_spec (n := n) hs hi hu hv
  refine ⟨x, hx, ?_⟩
  rw [hiff, List.prefix_iff_eq_take, hn, List.take_of_length_le (Nat.le_of_eq hn)]
  exact eq_comm

/-- `strcmp` tells whether the strings are the same. -/
theorem strcmp_spec (hs : s = p ++ u) (hi : i = p.length) (hu : 0 ∉ u) (hv : 0 ∉ v) :
    ∃ x, strcmp s i v = some x ∧ (x = 0 ↔ u = v) := by
  subst hs hi
  have hturns : u.length < (p ++ u).length + 1 := by
    rw [List.length_append]
    omega
  obtain ⟨-, hle, -⟩ | ⟨heq, -, hx⟩ | ⟨hne, x, hx0, hx⟩ :=
    compareLoop_spec (p := p) (q := []) (n := (p ++ u).length + 1) none hu hv
  · omega
  · exact ⟨0, hx, by simp [heq]⟩
  · refine ⟨x, hx, ?_⟩
    have huv : u ≠ v := fun heq => hne (by rw [heq])
    simp [hx0, huv]

theorem strchrLoop_of_not_mem (hu : 0 ∉ u) (hc : c ≠ 0) (hmem : c ∉ u) (hturns : u.length < turns) :
    strchrLoop (p ++ u) p.length c turns = some none := by
  induction turns generalizing p u with
  | zero => omega
  | succ turns ih =>
    unfold strchrLoop
    match u with
    | [] => simp [hc]
    | a :: u =>
      rw [List.mem_cons, not_or] at hu hmem
      obtain ⟨hs, hi⟩ := step_cons p u a
      simp only [read_cons, Option.bind_eq_bind, Option.bind_some, Ne.symm hu.1, Ne.symm hmem.1, if_false]
      rw [hs, hi]
      exact ih hu.2 hmem.2 (by rw [List.length_cons] at hturns; omega)

/-- `strchr` does not find a byte that is not there. -/
theorem strchr_of_not_mem (hs : s = p ++ u) (hi : i = p.length) (hu : 0 ∉ u) (hc : c ≠ 0) (hmem : c ∉ u) :
    strchr s i c = some none := by
  subst hs hi
  exact strchrLoop_of_not_mem hu hc hmem (by rw [List.length_append]; omega)

theorem strchrLoop_first (hd : 0 ∉ d) (hc : c ≠ 0) (hmem : c ∉ d) (hturns : d.length < turns) :
    strchrLoop (p ++ (d ++ c :: r)) p.length c turns = some (some (p.length + d.length)) := by
  induction turns generalizing p d with
  | zero => omega
  | succ turns ih =>
    unfold strchrLoop
    match d with
    | [] => simp [hc]
    | a :: d =>
      rw [List.mem_cons, not_or] at hd hmem
      obtain ⟨hs, hi⟩ := step_cons p (d ++ c :: r) a
      simp only [List.cons_append, read_cons, Option.bind_eq_bind, Option.bind_some, Ne.symm hd.1, Ne.symm hmem.1,
        if_false]
      rw [hs, hi, ih hd.2 hmem.2 (by rw [List.length_cons] at hturns; omega)]
      simp only [List.length_append, List.length_cons, List.length_nil]
      congr 2
      omega

/-- `strchr` finds the first one. -/
theorem strchr_first (hs : s = p ++ (d ++ c :: r)) (hi : i = p.length) (hd : 0 ∉ d) (hc : c ≠ 0) (hmem : c ∉ d) :
    strchr s i c = some (some (i + d.length)) := by
  subst hs hi
  exact strchrLoop_first hd hc hmem (by simp only [List.length_append]; omega)

theorem strlenLoop_eq (hu : 0 ∉ u) (hfits : (p ++ u).length < 2 ^ 31) (hturns : u.length < turns) :
    strlenLoop (p ++ u) p.length turns = some (p ++ u).length := by
  induction turns generalizing p u with
  | zero => omega
  | succ turns ih =>
    unfold strlenLoop
    match u with
    | [] => simp
    | a :: u =>
      rw [List.mem_cons, not_or] at hu
      obtain ⟨hs, hi⟩ := step_cons p u a
      have hcount : p.length + 1 ≠ 2 ^ 31 := by
        rw [List.length_append, List.length_cons] at hfits
        omega
      simp only [read_cons, Option.bind_eq_bind, Option.bind_some, Ne.symm hu.1, hcount, if_false]
      rw [hs] at hfits ⊢
      rw [hi]
      exact ih hu.2 hfits (by rw [List.length_cons] at hturns; omega)

/-- `strlen` counts the bytes of a string that is not too long for an `int`. -/
theorem strlen_eq (hs : 0 ∉ s) (hfits : s.length < 2 ^ 31) : strlen s = some s.length :=
  strlenLoop_eq (p := []) hs hfits (Nat.lt_succ_self _)

theorem skipLoop_eq {has : UInt8 → Bool} (hv : ∀ a ∈ v, has a = true) (hstop : ∃ a, read u 0 = some a ∧ has a = false)
    (hturns : v.length < turns) : skipLoop has (p ++ (v ++ u)) p.length turns = some (p.length + v.length) := by
  induction turns generalizing p v with
  | zero => omega
  | succ turns ih =>
    unfold skipLoop
    match v with
    | [] =>
      obtain ⟨a, ha, hnot⟩ := hstop
      have hread : read (p ++ u) p.length = some a := (read_append p u 0).trans ha
      simp [hread, hnot]
    | a :: v =>
      rw [List.forall_mem_cons] at hv
      obtain ⟨hs, hi⟩ := step_cons p (v ++ u) a
      simp only [List.cons_append, read_cons, Option.bind_eq_bind, Option.bind_some, hv.1, if_true]
      rw [hs, hi, ih hv.2 (by rw [List.length_cons] at hturns; omega)]
      simp only [List.length_append, List.length_cons, List.length_nil]
      congr 1
      omega

/-- The pointer moves over the bytes that have the property. -/
theorem skip_eq {has : UInt8 → Bool} (hs : s = p ++ (v ++ u)) (hi : i = p.length) (hv : ∀ a ∈ v, has a = true)
    (hstop : ∃ a, read u 0 = some a ∧ has a = false) : skip has s i = some (i + v.length) := by
  subst hs hi
  exact skipLoop_eq hv hstop (by simp only [List.length_append]; omega)

/-- `strncpy` copies bytes that are there. -/
theorem strncpy_take (hs : s = p ++ u) (hi : i = p.length) (hu : 0 ∉ u) (hn : n ≤ u.length) :
    strncpy s i n = some (u.take n) := by
  subst hs hi
  induction n generalizing p u with
  | zero => rfl
  | succ n ih =>
    match u with
    | [] => simp at hn
    | a :: u =>
      rw [List.mem_cons, not_or] at hu
      obtain ⟨hs, hi⟩ := step_cons p u a
      unfold strncpy
      simp only [read_cons, Option.bind_eq_bind, Option.bind_some, Ne.symm hu.1, if_false]
      rw [hs, hi, ih hu.2 (by simpa using hn)]
      rfl

/-- A string without the byte `c` is a prefix of what ends at the first one. -/
theorem prefix_first_iff (hv : c ∉ v) : v <+: d ++ c :: r ↔ v <+: d := by
  constructor
  · rintro ⟨w, hw⟩
    obtain ⟨a, rfl, -⟩ | ⟨a, rfl, ha⟩ := List.append_eq_append_iff.mp hw
    · exact List.prefix_append v a
    · obtain rfl | ⟨a, rfl⟩ : a = [] ∨ ∃ a', a = c :: a' := by
        cases a with
        | nil => exact .inl rfl
        | cons b a =>
          rw [List.cons_append, List.cons.injEq] at ha
          exact .inr ⟨a, by rw [ha.1]⟩
      · simp
      · simp at hv
  · rintro ⟨w, rfl⟩
    rw [List.append_assoc]
    exact List.prefix_append v _

/-- There is one first byte `c`. -/
theorem first_unique {d' r' : List UInt8} (hd : c ∉ d) (hd' : c ∉ d') (h : d ++ c :: r = d' ++ c :: r') :
    d = d' ∧ r = r' := by
  obtain ⟨a, rfl, ha⟩ | ⟨a, rfl, ha⟩ := List.append_eq_append_iff.mp h
  · cases a with
    | nil => simpa using ha
    | cons b a =>
      rw [List.cons_append, List.cons.injEq] at ha
      exact absurd (by simp [ha.1]) hd'
  · cases a with
    | nil => simpa [eq_comm] using ha
    | cons b a =>
      rw [List.cons_append, List.cons.injEq] at ha
      exact absurd (by simp [ha.1]) hd

/-! ## Numbers -/

/-- `'0' <= b && b <= '9'`. -/
def IsDigit (b : UInt8) : Prop := 48 ≤ b ∧ b ≤ 57

instance (b : UInt8) : Decidable (IsDigit b) := inferInstanceAs (Decidable (_ ∧ _))

def IsSpace (b : UInt8) : Prop := b = 32 ∨ 9 ≤ b ∧ b ≤ 13

instance (b : UInt8) : Decidable (IsSpace b) := inferInstanceAs (Decidable (_ ∨ _))

/-- The loop of `atoi` over the digits, on an `int`. -/
def atoiDigits (result : Int) : List UInt8 → Int
  | [] => result
  | b :: s => if IsDigit b then atoiDigits (Int.bmod (result * 10 + (b.toNat - 48)) (2 ^ 32)) s else result

/-- `atoi`. -/
def atoi (s : List UInt8) : Int :=
  match s.dropWhile (fun b => decide (IsSpace b)) with
  | [] => 0
  | b :: s =>
    if b = 45 then Int.bmod (-1 * atoiDigits 0 s) (2 ^ 32)
    else if b = 43 then atoiDigits 0 s
    else atoiDigits 0 (b :: s)

/-- The value of a string of digits behind a number. -/
def decimalFrom (value : Nat) (s : List UInt8) : Nat := s.foldl (fun value b => value * 10 + (b.toNat - 48)) value

/-- The value of a string of digits. -/
def decimal (s : List UInt8) : Nat := decimalFrom 0 s

theorem atoiDigits_eq {value : Nat} (hs : ∀ b ∈ s, IsDigit b) :
    atoiDigits (Int.bmod value (2 ^ 32)) s = Int.bmod (decimalFrom value s) (2 ^ 32) := by
  induction s generalizing value with
  | nil => rfl
  | cons b s ih =>
    have hb := hs b List.mem_cons_self
    have h48 : 48 ≤ b.toNat := UInt8.le_iff_toNat_le.mp hb.1
    have hstep : Int.bmod (Int.bmod value (2 ^ 32) * 10 + (b.toNat - 48)) (2 ^ 32) =
        Int.bmod (value * 10 + (b.toNat - 48) : Nat) (2 ^ 32) := by
      rw [Int.add_bmod, Int.bmod_mul_bmod, ← Int.add_bmod]
      congr 1
      omega
    unfold atoiDigits
    rw [if_pos hb, hstep, ih fun c hc => hs c (List.mem_cons_of_mem b hc)]
    rfl

/-- `atoi` takes the value of a string of digits to an `int`. -/
theorem atoi_eq (hs : ∀ b ∈ s, IsDigit b) : atoi s = Int.bmod (decimal s) (2 ^ 32) := by
  have hdigits : atoiDigits (Int.bmod (0 : Nat) (2 ^ 32)) s = Int.bmod (decimalFrom 0 s) (2 ^ 32) := atoiDigits_eq hs
  match s with
  | [] => rfl
  | b :: s =>
    have hb := hs b List.mem_cons_self
    have h48 : 48 ≤ b.toNat := UInt8.le_iff_toNat_le.mp hb.1
    have hspace : ¬IsSpace b := by
      rintro (rfl | ⟨-, hle⟩)
      · exact absurd h48 (by decide)
      · have h13 : b.toNat ≤ 13 := UInt8.le_iff_toNat_le.mp hle
        omega
    have h45 : b ≠ 45 := fun h => by subst h; exact absurd h48 (by decide)
    have h43 : b ≠ 43 := fun h => by subst h; exact absurd h48 (by decide)
    unfold atoi
    rw [List.dropWhile_cons_of_neg (by simpa using hspace)]
    simp only [h45, h43, if_false]
    exact hdigits

end CString
