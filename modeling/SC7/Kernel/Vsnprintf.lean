-- SUMMARY: Formatted text in a buffer (`vsnprintf`): the directives of a format, their full expansion, and when the call keeps its contract.
import SC7.Kernel.Print

/-!
# vsnprintf

The format is a string, and a pointer behind the NUL that ends it is a failure. What the arguments are is not
checked: each `va_arg` takes the next word, and a word that is used as a string leads to one.

`p` and `end` are addresses. The text is what has been written from the start of the buffer on.
-/

namespace SC7.Vsnprintf

open Exec (Str str)
open Print (signedDigits shown)

def ch (c : Char) : UInt8 := .ofNat c.toNat

/-- A word of the argument list, with the string to which it leads. -/
structure Arg where
  word : UInt64
  chars : Str

namespace Arg

/-- `va_arg(ap, int)`. -/
def int (a : Arg) : Int64 := a.word.toUInt32.toInt32.toInt64

/-- `va_arg(ap, unsigned int)`. -/
def uint (a : Arg) : UInt64 := a.word.toUInt32.toUInt64

/-- The string of `%s`. -/
def string (a : Arg) : Str := if a.word = 0 then str "(null)" else a.chars

end Arg

/-- The text written, the number of characters, and the number of arguments taken. -/
structure Out where
  text : Str
  totalLen : Nat
  ap : Nat

/-- What a call returns, and the bytes that it has written from `buf` on. -/
structure Result where
  value : Int
  written : Str

/-- `format_int`. The NUL behind the characters needs a byte of the buffer. -/
def formatInt (num : Int64) (base : Nat) (sign : Bool) : Option Str := do
  let temp ← signedDigits 32 num base sign
  if temp.length < 32 then return temp else none

/-- `format_uint`. -/
def formatUint (num : UInt64) (base : Nat) : Option Str := do
  let (_, temp) ← Numeral.digitLoop base 32 num.toNat []
  if temp.length < 32 then return temp else none

/-- The digits of `%p`. -/
def pointerDigits : UInt64 → Nat → Str
  | _, 0 => []
  | tmp, n + 1 => Numeral.digit (tmp >>> 60).toNat :: pointerDigits (tmp <<< 4) n

/-- The characters of a directive, and whether it takes an argument. -/
def short (k : UInt8) (a : Arg) : Option (Str × Bool) :=
  if k = ch 'd' then (formatInt a.int 10 true).map (·, true)
  else if k = ch 'u' then (formatUint a.uint 10).map (·, true)
  else if k = ch 'x' then (formatUint a.uint 16).map (·, true)
  else if k = ch 'p' then some (ch '0' :: ch 'x' :: pointerDigits a.word 16, true)
  else if k = ch 's' then some (a.string, true)
  else if k = ch 'c' then some ([a.word.toUInt8], true)
  else if k = ch '%' then some ([ch '%'], false)
  else some ([], false)

/-- The same for a directive with `l` or `ll`. -/
def long (k : UInt8) (a : Arg) : Option (Str × Bool) :=
  if k = ch 'd' then (formatInt a.word.toInt64 10 true).map (·, true)
  else if k = ch 'u' then (formatUint a.word 10).map (·, true)
  else if k = ch 'x' then (formatUint a.word 16).map (·, true)
  else some ([], false)

section Loop

variable (buf : UInt64) (size : Int) (ap : Nat → Arg)

/-- A character is counted, and written if there is room. -/
def Out.put (o : Out) (c : UInt8) : Out :=
  if buf + .ofNat o.text.length < buf + .ofInt size - 1 then
    { o with text := o.text ++ [c], totalLen := o.totalLen + 1 }
  else { o with totalLen := o.totalLen + 1 }

/-- The characters of a directive. -/
def Out.emit (o : Out) (r : Str × Bool) : Out :=
  let o := r.1.foldl (Out.put buf size) o
  { o with ap := if r.2 then o.ap + 1 else o.ap }

/-- The loop over the format; `none` is a pointer behind its NUL, or an access outside of a local buffer. -/
def formatLoop : Str → Out → Option Out
  | [], o => some o
  | c :: fmt, o =>
    if c ≠ ch '%' then formatLoop fmt (o.put buf size c)
    else
      match fmt with
      | [] => none
      | k :: fmt =>
        if k ≠ ch 'l' then (short k (ap o.ap)).bind fun r => formatLoop fmt (o.emit buf size r)
        else
          match fmt with
          | [] => none
          | k :: fmt =>
            if k ≠ ch 'l' then (long k (ap o.ap)).bind fun r => formatLoop fmt (o.emit buf size r)
            else
              match fmt with
              | [] => none
              | k :: fmt => (long k (ap o.ap)).bind fun r => formatLoop fmt (o.emit buf size r)

end Loop

def vsnprintf (buf : UInt64) (size : Int) (fmt : Str) (ap : Nat → Arg) : Option Result :=
  if size < 0 then some ⟨-1, []⟩
  else do
    let o ← formatLoop buf size ap fmt ⟨[], 0, 0⟩
    return ⟨Int.bmod o.totalLen (2 ^ 32), if size > 0 then o.text ++ [0] else o.text⟩

/-! ## The full expansion -/

/-- What a format consists of; it may end in the middle of a directive. -/
inductive Piece where
  | char (c : UInt8)
  | short (k : UInt8)
  | long (k : UInt8)
  | cut
  deriving DecidableEq

def pieces : Str → List Piece
  | [] => []
  | c :: fmt =>
    if c ≠ ch '%' then .char c :: pieces fmt
    else
      match fmt with
      | [] => [.cut]
      | k :: fmt =>
        if k ≠ ch 'l' then .short k :: pieces fmt
        else
          match fmt with
          | [] => [.cut]
          | k :: fmt =>
            if k ≠ ch 'l' then .long k :: pieces fmt
            else
              match fmt with
              | [] => [.cut]
              | k :: fmt => .long k :: pieces fmt

/-- The format does not end in the middle of a directive. -/
def Complete (fmt : Str) : Prop := Piece.cut ∉ pieces fmt

instance (fmt : Str) : Decidable (Complete fmt) := inferInstanceAs (Decidable (_ ∉ _))

/-- The 16 hexadecimal digits of a word. -/
def hex16 (n : Nat) : Str := (List.range 16).map fun i => Numeral.digit (n / 16 ^ (15 - i) % 16)

/-- What a directive stands for, and whether it takes an argument. Other directives stand for nothing. -/
def shortText (k : UInt8) (a : Arg) : Str × Bool :=
  if k = ch 'd' then (Numeral.intText 10 a.int.toInt, true)
  else if k = ch 'u' then (Numeral.text 10 a.uint.toNat, true)
  else if k = ch 'x' then (Numeral.text 16 a.uint.toNat, true)
  else if k = ch 'p' then (ch '0' :: ch 'x' :: hex16 a.word.toNat, true)
  else if k = ch 's' then (a.string, true)
  else if k = ch 'c' then ([a.word.toUInt8], true)
  else if k = ch '%' then ([ch '%'], false)
  else ([], false)

def longText (k : UInt8) (a : Arg) : Str × Bool :=
  if k = ch 'd' then (Numeral.intText 10 a.word.toInt64.toInt, true)
  else if k = ch 'u' then (Numeral.text 10 a.word.toNat, true)
  else if k = ch 'x' then (Numeral.text 16 a.word.toNat, true)
  else ([], false)

/-- The text of pieces that take their arguments from `n` on. -/
def expand (ap : Nat → Arg) : List Piece → Nat → Str
  | [], _ => []
  | .char c :: ps, n => c :: expand ap ps n
  | .short k :: ps, n => (shortText k (ap n)).1 ++ expand ap ps (if (shortText k (ap n)).2 then n + 1 else n)
  | .long k :: ps, n => (longText k (ap n)).1 ++ expand ap ps (if (longText k (ap n)).2 then n + 1 else n)
  | .cut :: _, _ => []

/-- The full expansion of a format. -/
def expansion (fmt : Str) (ap : Nat → Arg) : Str := expand ap (pieces fmt) 0

/-- A buffer that is somewhere in memory. -/
structure Buffer where
  buf : UInt64
  size : Nat
  fits : buf.toNat + size ≤ 2 ^ 64
  size_lt : size < 2 ^ 31

/-- What is asked of a call: it ends, a buffer gets the start of the expansion with a NUL behind it, and the length
of the expansion is returned. -/
structure Contract (b : Buffer) (fmt : Str) (ap : Nat → Arg) (r : Result) : Prop where
  text : 0 < b.size → ∃ t, r.written = t ++ [0] ∧ t <+: expansion fmt ap
  room : r.written.length ≤ b.size
  value : r.value = (expansion fmt ap).length

/-! ## The directives -/

variable {fmt E : Str} {ap : Nat → Arg} {b : Buffer} {o o' : Out} {k c : UInt8} {a : Arg} {ps : List Piece} {n : Nat}

theorem length_text_lt {base : Nat} {x : Nat} (hb : 10 ≤ base) (hx : x < 2 ^ 64) : (Numeral.text base x).length < 32 := by
  have hlen : (Numeral.text base x).length ≤ 20 := by
    rw [Numeral.length_text_le_iff (by omega) (by decide)]
    have hpow : 10 ^ 20 ≤ base ^ 20 := Nat.pow_le_pow_left hb 20
    omega
  omega

theorem formatUint_eq {num : UInt64} {base : Nat} (hb : 10 ≤ base) :
    formatUint num base = some (Numeral.text base num.toNat) := by
  have hlen := length_text_lt hb num.toNat_lt
  unfold formatUint
  rw [Numeral.digitLoop_eq (by omega), if_pos (Nat.le_of_lt hlen), List.append_nil]
  exact if_pos hlen

theorem formatInt_eq {num : Int64} : formatInt num 10 true = some (Numeral.intText 10 num.toInt) := by
  have hlen : (Numeral.intText 10 num.toInt).length ≤ 20 + 1 := by
    rw [Numeral.length_intText_le_iff (by decide) (by decide)]
    have hlo := Int64.le_toInt num
    have hhi := Int64.toInt_lt num
    omega
  have hdigits : signedDigits 32 num 10 true = some (Numeral.intText 10 num.toInt) := by
    rw [Print.signedDigits_eq (by decide)]
    exact if_pos (Nat.le_trans hlen (by decide))
  unfold formatInt
  rw [hdigits]
  exact if_pos (Nat.lt_of_le_of_lt hlen (by decide))

/-- The digits that are left when the top one is shifted out. -/
theorem shifted_digit {tmp : UInt64} {i : Nat} (hi : i < 15) :
    (tmp <<< 4).toNat / 16 ^ (15 - i) % 16 = tmp.toNat / 16 ^ (15 - (i + 1)) % 16 := by
  have hword : (tmp <<< 4).toNat = tmp.toNat * 16 % (16 ^ (15 - i) * 16 ^ (i + 1)) := by
    rw [← Nat.pow_add, show 15 - i + (i + 1) = 16 by omega, UInt64.toNat_shiftLeft, Nat.shiftLeft_eq]
    rfl
  have hsplit : 16 ^ (15 - i) = 16 ^ (15 - (i + 1)) * 16 := by
    rw [← Nat.pow_succ]
    congr 1
    omega
  rw [hword, Nat.mod_mul_right_div_self, Nat.pow_succ 16 i, Nat.mod_mul_left_mod, hsplit,
    Nat.mul_div_mul_right _ _ (by decide)]

theorem pointerDigits_eq {tmp : UInt64} (hn : n ≤ 16) :
    pointerDigits tmp n = (List.range n).map fun i => Numeral.digit (tmp.toNat / 16 ^ (15 - i) % 16) := by
  induction n generalizing tmp with
  | zero => rfl
  | succ n ih =>
    rw [pointerDigits, ih (by omega), List.range_succ_eq_map, List.map_cons, List.map_map]
    congr 1
    · have htop : (tmp >>> 60).toNat = tmp.toNat / 16 ^ 15 := by
        rw [UInt64.toNat_shiftRight, Nat.shiftRight_eq_div_pow]
        rfl
      have hlt := tmp.toNat_lt
      rw [htop, Nat.mod_eq_of_lt]
      show tmp.toNat / 16 ^ 15 < 16
      omega
    · apply List.map_congr_left
      intro i hi
      rw [shifted_digit (by have := List.mem_range.mp hi; omega)]
      rfl

theorem short_eq (k : UInt8) (a : Arg) : short k a = some (shortText k a) := by
  unfold short shortText
  rw [formatInt_eq, formatUint_eq (by decide), formatUint_eq (by decide), pointerDigits_eq (Nat.le_refl 16)]
  simp only [← apply_ite some, Option.map_some]
  rfl

theorem long_eq (k : UInt8) (a : Arg) : long k a = some (longText k a) := by
  unfold long longText
  rw [formatInt_eq, formatUint_eq (by decide), formatUint_eq (by decide)]
  simp only [← apply_ite some, Option.map_some]

/-! ## The loop over the pieces -/

section Pieces

variable (buf : UInt64) (size : Int) (ap : Nat → Arg)

/-- The loop, piece by piece. -/
def pieceLoop : List Piece → Out → Option Out
  | [], o => some o
  | .char c :: ps, o => pieceLoop ps (o.put buf size c)
  | .short k :: ps, o => pieceLoop ps (o.emit buf size (shortText k (ap o.ap)))
  | .long k :: ps, o => pieceLoop ps (o.emit buf size (longText k (ap o.ap)))
  | .cut :: _, _ => none

theorem formatLoop_eq (fmt : Str) (o : Out) : formatLoop buf size ap fmt o = pieceLoop buf size ap (pieces fmt) o := by
  fun_induction pieces fmt generalizing o with
  | case1 => rfl
  | case2 c fmt hchar ih =>
    unfold formatLoop
    rw [if_pos hchar, ih]
    rfl
  | case3 c hdirective =>
    unfold formatLoop
    dsimp only
    rw [if_neg hdirective]
    rfl
  | case4 c hdirective k fmt hshort ih =>
    unfold formatLoop
    dsimp only
    rw [if_neg hdirective, if_pos hshort, short_eq, Option.bind_some, ih]
    rfl
  | case5 c hdirective k hlong =>
    unfold formatLoop
    dsimp only
    rw [if_neg hdirective, if_neg hlong]
    rfl
  | case6 c hdirective k hlong k' fmt hone ih =>
    unfold formatLoop
    dsimp only
    rw [if_neg hdirective, if_neg hlong, if_pos hone, long_eq, Option.bind_some, ih]
    rfl
  | case7 c hdirective k hlong k' htwo =>
    unfold formatLoop
    dsimp only
    rw [if_neg hdirective, if_neg hlong, if_neg htwo]
    rfl
  | case8 c hdirective k hlong k' htwo k'' fmt ih =>
    unfold formatLoop
    dsimp only
    rw [if_neg hdirective, if_neg hlong, if_neg htwo, long_eq, Option.bind_some, ih]
    rfl

theorem pieceLoop_cut (hcut : .cut ∈ ps) (o : Out) : pieceLoop buf size ap ps o = none := by
  induction ps generalizing o with
  | nil => nomatch hcut
  | cons p ps ih =>
    cases p with
    | cut => rfl
    | char c => exact ih ((List.mem_cons.mp hcut).resolve_left nofun) _
    | short k => exact ih ((List.mem_cons.mp hcut).resolve_left nofun) _
    | long k => exact ih ((List.mem_cons.mp hcut).resolve_left nofun) _

variable {buf size} {R : Str → Out → Prop}

theorem emit_ap (r : Str × Bool) : (o.emit buf size r).ap = if r.2 then o.ap + 1 else o.ap := by
  have hfold : ∀ (s : Str) (o : Out), (s.foldl (Out.put buf size) o).ap = o.ap := by
    intro s
    induction s with
    | nil => exact fun _ => rfl
    | cons c s ih =>
      intro o
      rw [List.foldl_cons, ih]
      unfold Out.put
      split
      · rfl
      · rfl
  unfold Out.emit
  dsimp only
  rw [hfold]

theorem emit_keeps (hput : ∀ E o c, R E o → R (E ++ [c]) (o.put buf size c)) (hap : ∀ E o n, R E o → R E { o with ap := n })
    (h : R E o) (r : Str × Bool) : R (E ++ r.1) (o.emit buf size r) := by
  have hfold : ∀ (s : Str) (o : Out) (E : Str), R E o → R (E ++ s) (s.foldl (Out.put buf size) o) := by
    intro s
    induction s with
    | nil =>
      intro o E h
      rw [List.append_nil]
      exact h
    | cons c s ih =>
      intro o E h
      rw [List.foldl_cons, show E ++ c :: s = E ++ [c] ++ s by simp]
      exact ih _ _ (hput E o c h)
  exact hap _ _ _ (hfold r.1 o E h)

/-- What each character keeps holds of the whole expansion. -/
theorem pieceLoop_keeps (hput : ∀ E o c, R E o → R (E ++ [c]) (o.put buf size c))
    (hap : ∀ E o n, R E o → R E { o with ap := n }) (hcut : .cut ∉ ps) (h : R E o) :
    ∃ o', pieceLoop buf size ap ps o = some o' ∧ R (E ++ expand ap ps o.ap) o' := by
  induction ps generalizing o E with
  | nil =>
    refine ⟨o, rfl, ?_⟩
    rw [expand, List.append_nil]
    exact h
  | cons p ps ih =>
    have hrest : .cut ∉ ps := fun hmem => hcut (List.mem_cons_of_mem _ hmem)
    cases p with
    | cut => exact absurd List.mem_cons_self hcut
    | char c =>
      have hap' : (o.put buf size c).ap = o.ap := by
        unfold Out.put
        split
        · rfl
        · rfl
      obtain ⟨o', hrun, hR⟩ := ih hrest (hput E o c h)
      refine ⟨o', hrun, ?_⟩
      rw [hap', List.append_assoc] at hR
      exact hR
    | short k =>
      obtain ⟨o', hrun, hR⟩ := ih hrest (emit_keeps hput hap h (shortText k (ap o.ap)))
      refine ⟨o', hrun, ?_⟩
      rw [emit_ap, List.append_assoc] at hR
      exact hR
    | long k =>
      obtain ⟨o', hrun, hR⟩ := ih hrest (emit_keeps hput hap h (longText k (ap o.ap)))
      refine ⟨o', hrun, ?_⟩
      rw [emit_ap, List.append_assoc] at hR
      exact hR

end Pieces

/-! ## What is written -/

/-- The start of a text is in the buffer, and all of it is counted. -/
structure Out.Holds (b : Buffer) (E : Str) (o : Out) : Prop where
  text : o.text = E.take (b.size - 1)
  totalLen : o.totalLen = E.length

/-- There is room for a character if a byte is left behind it. -/
theorem room_iff (hbuf : b.size = 0 → b.buf ≠ 0) (hn : n ≤ b.size - 1) :
    b.buf + .ofNat n < b.buf + .ofInt b.size - 1 ↔ n < b.size - 1 := by
  have hfits := b.fits
  have hsize := b.size_lt
  have hlt := b.buf.toNat_lt
  have hword : (UInt64.ofInt (b.size : Int)).toNat = b.size := by
    rw [UInt64.ofInt, UInt64.toNat_ofNat']
    omega
  have hcount : (UInt64.ofNat n).toNat = n := by
    rw [UInt64.toNat_ofNat', Nat.mod_eq_of_lt (by omega)]
  have hone : (1 : UInt64).toNat = 1 := rfl
  have hpos : b.size = 0 → 0 < b.buf.toNat := fun h => by
    apply Nat.pos_of_ne_zero
    intro h0
    exact hbuf h (UInt64.toNat_inj.mp h0)
  rw [UInt64.lt_iff_toNat_lt, UInt64.toNat_sub, UInt64.toNat_add, UInt64.toNat_add, hword, hcount, hone]
  by_cases h : b.size = 0
  · have := hpos h
    rw [h]
    omega
  · omega

theorem Out.Holds.put (hbuf : b.size = 0 → b.buf ≠ 0) (h : o.Holds b E) (c : UInt8) :
    (o.put b.buf b.size c).Holds b (E ++ [c]) := by
  have hlen : o.text.length = min (b.size - 1) E.length := by
    rw [h.text, List.length_take]
  unfold Out.put
  split
  · rename_i hroom
    rw [room_iff hbuf (by omega)] at hroom
    have hall : o.text = E := by
      rw [h.text, List.take_of_length_le (by omega)]
    refine ⟨?_, ?_⟩
    · show o.text ++ [c] = _
      rw [hall, List.take_of_length_le]
      rw [List.length_append, List.length_singleton]
      omega
    · show o.totalLen + 1 = _
      rw [h.totalLen, List.length_append, List.length_singleton]
  · rename_i hfull
    rw [room_iff hbuf (by omega)] at hfull
    refine ⟨?_, ?_⟩
    · show o.text = _
      rw [h.text, List.take_append_of_le_length (by omega)]
    · show o.totalLen + 1 = _
      rw [h.totalLen, List.length_append, List.length_singleton]

/-- How a call ends on a complete format, unless its buffer is empty and at address 0. -/
theorem vsnprintf_eq (hbuf : b.size = 0 → b.buf ≠ 0) (hcomplete : Complete fmt) :
    vsnprintf b.buf b.size fmt ap =
      some ⟨Int.bmod (expansion fmt ap).length (2 ^ 32),
        if 0 < b.size then (expansion fmt ap).take (b.size - 1) ++ [0] else []⟩ := by
  have hstart : (⟨[], 0, 0⟩ : Out).Holds b [] := ⟨List.take_nil.symm, rfl⟩
  obtain ⟨o, hrun, hend⟩ := pieceLoop_keeps (R := fun E o => o.Holds b E) ap (fun _ _ c h => h.put hbuf c)
    (fun _ _ _ h => ⟨h.text, h.totalLen⟩) hcomplete hstart
  have htext : o.text = (expansion fmt ap).take (b.size - 1) := hend.text
  have htotal : o.totalLen = (expansion fmt ap).length := hend.totalLen
  unfold vsnprintf
  rw [if_neg (Int.not_lt.mpr (Int.natCast_nonneg _)), formatLoop_eq, hrun]
  show some _ = some _
  rw [htotal, htext]
  by_cases hsize : 0 < b.size
  · rw [if_pos hsize, if_pos (Int.natCast_pos.mpr hsize)]
  · have hzero : b.size = 0 := Nat.eq_zero_of_not_pos hsize
    rw [if_neg hsize, if_neg fun h => hsize (Int.natCast_pos.mp h), hzero]
    rfl

/-- At address 0 there is room in front of the end of an empty buffer. -/
theorem vsnprintf_null (hsize : b.size = 0) (hbuf : b.buf = 0) (hcomplete : Complete fmt) :
    ∃ w, vsnprintf b.buf b.size fmt ap = some ⟨Int.bmod (expansion fmt ap).length (2 ^ 32), w⟩ ∧
      (expansion fmt ap = [] ↔ w = []) := by
  have hput : ∀ (E : Str) (o : Out) (c : UInt8), (o.totalLen = E.length ∧ (E = [] ↔ o.text = [])) →
      (o.put b.buf b.size c).totalLen = (E ++ [c]).length ∧ (E ++ [c] = [] ↔ (o.put b.buf b.size c).text = []) := by
    rintro E o c ⟨htotal, hempty⟩
    rw [List.length_append, List.length_singleton, ← htotal]
    have hne : E ++ [c] ≠ [] := List.append_ne_nil_of_right_ne_nil _ (List.cons_ne_nil _ _)
    unfold Out.put
    split
    · refine ⟨rfl, iff_of_false hne ?_⟩
      exact List.append_ne_nil_of_right_ne_nil _ (List.cons_ne_nil _ _)
    · rename_i hfull
      refine ⟨rfl, iff_of_false hne fun hnil => hfull ?_⟩
      have hnil' : o.text = [] := hnil
      rw [hnil', hbuf, hsize]
      decide
  obtain ⟨o, hrun, htotal, hempty⟩ := pieceLoop_keeps (o := ⟨[], 0, 0⟩) (E := [])
    (R := fun E o => o.totalLen = E.length ∧ (E = [] ↔ o.text = [])) ap hput (fun _ _ _ h => h) hcomplete ⟨rfl, Iff.rfl⟩
  have hlen : o.totalLen = (expansion fmt ap).length := htotal
  refine ⟨o.text, ?_, hempty⟩
  unfold vsnprintf
  rw [if_neg (Int.not_lt.mpr (Int.natCast_nonneg _)), formatLoop_eq, hrun]
  show some _ = some _
  rw [hlen, hsize, if_neg (c := ((0 : Nat) : Int) > 0) (Int.lt_irrefl 0)]

/-- A call keeps its contract if and only if the format does not end in the middle of a directive, the length of the
expansion is an `int`, and an empty buffer is not at address 0. -/
theorem vsnprintf_contract_iff :
    (∃ r, vsnprintf b.buf b.size fmt ap = some r ∧ Contract b fmt ap r) ↔
      Complete fmt ∧ (expansion fmt ap).length < 2 ^ 31 ∧ (b.size = 0 → b.buf = 0 → expansion fmt ap = []) := by
  by_cases hcomplete : Complete fmt
  · have hvalue : Int.bmod (expansion fmt ap).length (2 ^ 32) = (expansion fmt ap).length ↔ (expansion fmt ap).length < 2 ^ 31 := by
      rw [Int.bmod_def]
      omega
    by_cases hnull : b.size = 0 ∧ b.buf = 0
    · obtain ⟨w, hrun, hempty⟩ := vsnprintf_null hnull.1 hnull.2 hcomplete
      generalize Int.bmod (expansion fmt ap).length (2 ^ 32) = value at hvalue hrun
      constructor
      · rintro ⟨r, hr, h⟩
        rw [← Option.some.inj (hrun.symm.trans hr)] at h
        refine ⟨hcomplete, hvalue.mp h.value, fun _ _ => hempty.mpr (List.length_eq_zero_iff.mp ?_)⟩
        have hroom : w.length ≤ b.size := h.room
        omega
      · rintro ⟨-, hint, hnil⟩
        refine ⟨_, hrun, fun hpos => absurd hnull.1 (Nat.ne_of_gt hpos), ?_, hvalue.mpr hint⟩
        show w.length ≤ b.size
        rw [hempty.mp (hnil hnull.1 hnull.2)]
        exact Nat.zero_le _
    · have hbuf : b.size = 0 → b.buf ≠ 0 := fun hsize hzero => hnull ⟨hsize, hzero⟩
      rw [vsnprintf_eq hbuf hcomplete]
      generalize Int.bmod (expansion fmt ap).length (2 ^ 32) = value at hvalue
      constructor
      · rintro ⟨r, hr, h⟩
        rw [← Option.some.inj hr] at h
        exact ⟨hcomplete, hvalue.mp h.value, fun hsize hzero => absurd hzero (hbuf hsize)⟩
      · rintro ⟨-, hint, -⟩
        refine ⟨_, rfl, fun hpos => ?_, ?_, hvalue.mpr hint⟩
        · exact ⟨_, if_pos hpos, List.take_prefix _ _⟩
        · show (if 0 < b.size then _ else [] : Str).length ≤ b.size
          split
          · rw [List.length_append, List.length_take, List.length_singleton]
            omega
          · exact Nat.zero_le _
  · have hnone : vsnprintf b.buf b.size fmt ap = none := by
      unfold vsnprintf
      rw [if_neg (Int.not_lt.mpr (Int.natCast_nonneg _)), formatLoop_eq, pieceLoop_cut _ _ _ (not_not.mp hcomplete)]
      rfl
    rw [hnone]
    exact iff_of_false (fun h => nomatch h.choose_spec.1) fun h => hcomplete h.1

/-- A format that is a single `%`: `fmt` is moved behind the NUL. -/
theorem not_contract_cut :
    ¬∀ (b : Buffer) (fmt : Str) (ap : Nat → Arg), ∃ r, vsnprintf b.buf b.size fmt ap = some r ∧ Contract b fmt ap r := by
  intro hall
  obtain ⟨r, hrun, -⟩ := hall ⟨4096, 8, by decide, by decide⟩ [ch '%'] fun _ => ⟨0, []⟩
  have hnone : vsnprintf 4096 8 [ch '%'] (fun _ => ⟨0, []⟩) = none := by
    unfold vsnprintf
    rw [if_neg (by decide), formatLoop_eq]
    rfl
  exact nomatch hnone.symm.trans hrun

end SC7.Vsnprintf
