-- SUMMARY: The text of `/proc/interrupts`: the lines that the kernel's formatter makes, where they are written, and when they tell the counts.
import SC7.Kernel.Vsnprintf

/-!
# /proc/interrupts

Each interrupt that has been counted gets a line. The formatter does not know the directive `%*lu`: it skips `%*`
and copies the rest.
-/

namespace SC7.Interrupts

open Exec (Str str)
open Vsnprintf (ch Arg Buffer Result vsnprintf expansion)

/-- `interrupt_counts`. -/
abbrev Counts := Nat → UInt64

/-- The format of a line. -/
def lineFormat : Str :=
  [ch '%', ch 's', ch '%', ch 'd', ch ':', ch ' ', ch '%', ch '*', ch 'l', ch 'u', ch '\n']

/-- The arguments of a line; the string is the empty one, and its address is not 0. -/
def lineArgs (i : Nat) (count : UInt64) : Nat → Arg
  | 0 => ⟨1, []⟩
  | 1 => ⟨.ofNat i, []⟩
  | 2 => ⟨8, []⟩
  | _ => ⟨count, []⟩

/-- The bytes from `buf` on, when `s` is written at `buf + written`. -/
def overwrite (mem : Str) (written : Nat) (s : Str) : Str := mem.take written ++ s ++ mem.drop (written + s.length)

/-- The loop over the interrupts: the number of bytes of the text, and the bytes from `buf` on. -/
def interruptLoop (counts : Counts) (buf : UInt64) (size : Int) : List Nat → Nat → Str → Option (Nat × Str)
  | [], written, mem => some (written, mem)
  | i :: is, written, mem =>
    if counts i > 0 then do
      let r ← vsnprintf (buf + .ofNat written) (size - written) lineFormat (lineArgs i (counts i))
      let mem := overwrite mem written r.written
      if r.value ≥ size - written then return (written, mem)
      else interruptLoop counts buf size is (written + r.value.toNat) mem
    else interruptLoop counts buf size is written mem

/-- `generate_proc_interrupts_content`: what it returns, and the bytes from `buf` on. -/
def generateProcInterruptsContent (counts : Counts) (buf : UInt64) (size : Int) : Option (Int × Str) :=
  if buf = 0 ∨ size ≤ 0 then some (-1, [])
  else (interruptLoop counts buf size (List.range 256) 0 []).map fun r => ((r.1 : Int), r.2)

/-! ## Reading the text -/

/-- A line: an interrupt, a colon, blanks and a count. -/
def parseLine (s : Str) : Option (Nat × Nat) :=
  match s.dropWhile (· ≠ ch ':') with
  | [] => none
  | _ :: t => do return (← Numeral.value 10 (s.takeWhile (· ≠ ch ':')), ← Numeral.value 10 (t.dropWhile (· = ch ' ')))

/-- The lines behind the start of one. -/
def parseFrom (line : Str) : Str → Option (List (Nat × Nat))
  | [] => if line = [] then some [] else none
  | c :: s => if c = ch '\n' then do return (← parseLine line) :: (← parseFrom [] s) else parseFrom (line ++ [c]) s

def parse (s : Str) : Option (List (Nat × Nat)) := parseFrom [] s

/-- The interrupts of a list that have been counted. -/
def entries (counts : Counts) (is : List Nat) : List (Nat × Nat) :=
  (is.filter fun i => counts i > 0).map fun i => (i, (counts i).toNat)

/-- A line with its count in 8 columns. -/
def wantedLine (i n : Nat) : Str :=
  Numeral.text 10 i ++ [ch ':', ch ' '] ++ List.replicate (8 - (Numeral.text 10 n).length) (ch ' ') ++ Numeral.text 10 n ++ [ch '\n']

/-- The text that the format asks for. -/
def wanted (counts : Counts) : Str := (entries counts (List.range 256)).flatMap fun e => wantedLine e.1 e.2

/-- What is asked of a call: it stays in its buffer, and if the text fits it tells the counts. -/
structure Correct (counts : Counts) (b : Buffer) (r : Int × Str) : Prop where
  inside : r.2.length ≤ b.size
  tells : (wanted counts).length < b.size → parse (r.2.take r.1.toNat) = some (entries counts (List.range 256))

variable {counts : Counts} {b : Buffer} {i n w : Nat} {is is₁ is₂ : List Nat} {mem s t line : Str} {c : UInt64}

/-! ## The lines that are made -/

/-- The line that the formatter makes. -/
def printedLine (i : Nat) : Str := Numeral.text 10 i ++ [ch ':', ch ' ', ch 'l', ch 'u', ch '\n']

def printed (counts : Counts) (is : List Nat) : Str := (is.filter fun i => counts i > 0).flatMap printedLine

theorem pieces_lineFormat :
    Vsnprintf.pieces lineFormat = [.short (ch 's'), .short (ch 'd'), .char (ch ':'), .char (ch ' '), .short (ch '*'),
      .char (ch 'l'), .char (ch 'u'), .char (ch '\n')] := by
  decide

theorem complete_lineFormat : Vsnprintf.Complete lineFormat := by decide

theorem expansion_line (hi : i < 2 ^ 31) : expansion lineFormat (lineArgs i c) = printedLine i := by
  have hint : (lineArgs i c 1).int.toInt = i := by
    have hword : (UInt64.ofNat i).toUInt32.toInt32.toBitVec.toNat = i := by
      show (UInt64.ofNat i).toUInt32.toNat = i
      rw [UInt64.toNat_toUInt32, UInt64.toNat_ofNat']
      omega
    show (UInt64.ofNat i).toUInt32.toInt32.toInt64.toInt = i
    rw [Int32.toInt_toInt64, ← Int32.toInt_toBitVec, BitVec.toInt_eq_toNat_cond, hword, if_pos (by omega)]
  unfold expansion
  rw [pieces_lineFormat]
  show [] ++ (Numeral.intText 10 (lineArgs i c 1).int.toInt ++ _) = _
  rw [hint]
  unfold Numeral.intText printedLine
  rw [if_neg (Int.not_lt.mpr (Int.natCast_nonneg _)), Int.natAbs_natCast]
  rfl

theorem length_printedLine : (printedLine i).length = (Numeral.text 10 i).length + 5 := by
  unfold printedLine
  rw [List.length_append]
  rfl

/-- One line, written at `w`. -/
theorem vsnprintf_line (hi : i < 2 ^ 31) (hw : w < b.size) :
    ∃ r, vsnprintf (b.buf + .ofNat w) (b.size - w) lineFormat (lineArgs i c) = some r ∧
      r.value = (printedLine i).length ∧ r.written = (printedLine i).take (b.size - w - 1) ++ [0] := by
  have hfits := b.fits
  have hsize := b.size_lt
  have hbuf := b.buf.toNat_lt
  have haddr : (b.buf + .ofNat w).toNat = b.buf.toNat + w := by
    rw [UInt64.toNat_add, UInt64.toNat_ofNat']
    omega
  -- the rest of the buffer
  obtain ⟨rest, haddress, hcount⟩ : ∃ rest : Buffer, rest.buf = b.buf + .ofNat w ∧ rest.size = b.size - w :=
    ⟨⟨b.buf + .ofNat w, b.size - w, by rw [haddr]; omega, by omega⟩, rfl, rfl⟩
  have hpos : 0 < rest.size := by omega
  have hcall : vsnprintf rest.buf rest.size lineFormat (lineArgs i c) = some ⟨Int.bmod _ _, _⟩ :=
    Vsnprintf.vsnprintf_eq (fun h => absurd h (Nat.ne_of_gt hpos)) complete_lineFormat
  have hint : ((b.size - w : Nat) : Int) = b.size - w := by omega
  have hshort : (printedLine i).length < 2 ^ 31 := by
    have htext : (Numeral.text 10 i).length ≤ 10 := by
      rw [Numeral.length_text_le_iff (by decide) (by decide)]
      omega
    rw [length_printedLine]
    omega
  have hvalue : Int.bmod (printedLine i).length (2 ^ 32) = (printedLine i).length := by
    rw [Int.bmod_def]
    omega
  rw [if_pos hpos, expansion_line hi, hvalue, haddress, hcount, hint] at hcall
  exact ⟨_, hcall, rfl, rfl⟩

theorem take_overwrite (hw : w ≤ mem.length) (hn : n ≤ s.length) : (overwrite mem w s).take (w + n) = mem.take w ++ s.take n := by
  have hlen : (mem.take w).length = w := by
    rw [List.length_take]
    omega
  unfold overwrite
  rw [List.append_assoc, List.take_append, hlen, List.take_of_length_le (by omega), Nat.add_sub_cancel_left,
    List.take_append_of_le_length hn]

theorem length_overwrite_le (hmem : mem.length ≤ n) (hs : w + s.length ≤ n) : (overwrite mem w s).length ≤ n := by
  unfold overwrite
  rw [List.length_append, List.length_append, List.length_take, List.length_drop]
  omega

/-- The loop writes the lines one behind the other, and stops in front of one that does not fit. -/
theorem interruptLoop_spec (counts : Counts) (his : ∀ i ∈ is, i < 2 ^ 31) (hw : w < b.size) (hmem : mem.length ≤ b.size) (hwmem : w ≤ mem.length) :
    ∃ w' mem' is₁ is₂, is = is₁ ++ is₂ ∧ interruptLoop counts b.buf b.size is w mem = some (w', mem') ∧
      mem'.length ≤ b.size ∧ mem'.take w' = mem.take w ++ printed counts is₁ ∧
      (is₂ ≠ [] → b.size ≤ w + (printed counts is).length) := by
  induction is generalizing w mem with
  | nil => exact ⟨w, mem, [], [], rfl, rfl, hmem, (List.append_nil _).symm, fun h => absurd rfl h⟩
  | cons i is ih =>
    have hrest : ∀ j ∈ is, j < 2 ^ 31 := fun j hj => his j (List.mem_cons_of_mem _ hj)
    unfold interruptLoop
    by_cases hcount : counts i > 0
    · obtain ⟨r, hrun, hvalue, hwritten⟩ := vsnprintf_line (c := counts i) (his i List.mem_cons_self) hw
      have hline : printed counts (i :: is) = printedLine i ++ printed counts is := by
        unfold printed
        rw [List.filter_cons_of_pos (by simpa using hcount), List.flatMap_cons]
      have hlength : r.written.length = min (b.size - w - 1) (printedLine i).length + 1 := by
        rw [hwritten, List.length_append, List.length_take, List.length_singleton]
      have hinside : (overwrite mem w r.written).length ≤ b.size := length_overwrite_le hmem (by omega)
      rw [if_pos hcount, hrun]
      show ∃ w' mem' is₁ is₂, _ ∧ (if r.value ≥ b.size - w then some (w, overwrite mem w r.written)
        else interruptLoop counts b.buf b.size is (w + r.value.toNat) (overwrite mem w r.written)) = _ ∧ _
      rw [hvalue, hline, List.length_append]
      by_cases hfull : ((printedLine i).length : Int) ≥ b.size - w
      · rw [if_pos hfull]
        refine ⟨_, _, [], i :: is, rfl, rfl, hinside, ?_, fun _ => by omega⟩
        have htake := take_overwrite (n := 0) hwmem (Nat.zero_le r.written.length)
        rw [Nat.add_zero] at htake
        rw [htake]
        rfl
      · rw [if_neg hfull, Int.toNat_natCast]
        have hfit : (printedLine i).length ≤ b.size - w - 1 := by omega
        have htake : (overwrite mem w r.written).take (w + (printedLine i).length) = mem.take w ++ printedLine i := by
          rw [take_overwrite hwmem (by omega), hwritten, List.take_of_length_le hfit,
            List.take_append_of_le_length (Nat.le_refl _), List.take_length]
        have hbehind : w + (printedLine i).length ≤ (overwrite mem w r.written).length := by
          unfold overwrite
          rw [List.length_append, List.length_append, List.length_take]
          omega
        obtain ⟨w', mem', is₁, is₂, hsplit, hloop, hmem', htext, hlast⟩ := ih hrest (by omega) hinside hbehind
        refine ⟨w', mem', i :: is₁, is₂, by rw [hsplit]; rfl, hloop, hmem', ?_, fun h => ?_⟩
        · rw [htext, htake, List.append_assoc]
          congr 1
          unfold printed
          rw [List.filter_cons_of_pos (by simpa using hcount), List.flatMap_cons]
        · have := hlast h
          omega
    · have hskip : ∀ js, printed counts (i :: js) = printed counts js := fun js => by
        unfold printed
        rw [List.filter_cons_of_neg (by simpa using hcount)]
      rw [if_neg hcount]
      obtain ⟨w', mem', is₁, is₂, hsplit, hloop, hmem', htext, hlast⟩ := ih hrest hw hmem hwmem
      refine ⟨w', mem', i :: is₁, is₂, by rw [hsplit]; rfl, hloop, hmem', ?_, ?_⟩
      · rw [hskip]
        exact htext
      · rw [hskip]
        exact hlast

/-! ## What the lines tell -/

theorem numeral_ne {d : UInt8} (h : d ∈ Numeral.text 10 n) : d ≠ ch ':' ∧ d ≠ ch ' ' ∧ d ≠ ch '\n' := by
  obtain ⟨k, hk, rfl⟩ := Numeral.mem_text (by decide) h
  have hall : ∀ k < 10, Numeral.digit k ≠ ch ':' ∧ Numeral.digit k ≠ ch ' ' ∧ Numeral.digit k ≠ ch '\n' := by decide
  exact hall k hk

/-- A whole line in front of others. -/
theorem parseFrom_line (hs : ∀ d ∈ s, d ≠ ch '\n') :
    parseFrom line (s ++ ch '\n' :: t) = (parseLine (line ++ s)).bind fun e => (parseFrom [] t).map (e :: ·) := by
  induction s generalizing line with
  | nil =>
    rw [List.nil_append, List.append_nil, parseFrom, if_pos rfl]
    cases parseLine line with
    | none => rfl
    | some e =>
      cases parseFrom [] t with
      | none => rfl
      | some es => rfl
  | cons d s ih =>
    rw [List.cons_append, parseFrom, if_neg (hs d List.mem_cons_self), ih fun d' h => hs d' (List.mem_cons_of_mem _ h),
      List.append_assoc]
    rfl

/-- What a line with an interrupt and a colon tells. -/
theorem parseLine_numeral : parseLine (Numeral.text 10 i ++ ch ':' :: s) =
    (Numeral.value 10 (s.dropWhile (· = ch ' '))).map fun n => (i, n) := by
  have hdigits : ∀ d ∈ Numeral.text 10 i, decide (d ≠ ch ':') = true := fun d hd => decide_eq_true (numeral_ne hd).1
  unfold parseLine
  rw [List.dropWhile_append_of_pos hdigits, List.takeWhile_append_of_pos hdigits, List.dropWhile_cons_of_neg (by decide),
    List.takeWhile_cons_of_neg (by decide), List.append_nil]
  dsimp only
  rw [Numeral.value_text (by decide) (by decide)]
  cases Numeral.value 10 (s.dropWhile (· = ch ' ')) with
  | none => rfl
  | some n => rfl

/-- The line that is made tells nothing. -/
theorem parse_printedLine : parse (printedLine i ++ t) = none := by
  have hsplit : printedLine i ++ t = (Numeral.text 10 i ++ ch ':' :: [ch ' ', ch 'l', ch 'u']) ++ ch '\n' :: t := by
    unfold printedLine
    simp
  have hline : ∀ d ∈ Numeral.text 10 i ++ ch ':' :: [ch ' ', ch 'l', ch 'u'], d ≠ ch '\n' := by
    intro d hd
    obtain hd | hd := List.mem_append.mp hd
    · exact (numeral_ne hd).2.2
    · simp only [List.mem_cons, List.not_mem_nil, or_false] at hd
      obtain rfl | rfl | rfl | rfl := hd
      · decide
      · decide
      · decide
      · decide
  unfold parse
  rw [hsplit, parseFrom_line hline, List.nil_append, parseLine_numeral]
  rfl

/-- The line that is asked for tells its count. -/
theorem parse_wantedLine : parse (wantedLine i n ++ t) = (parse t).map ((i, n) :: ·) := by
  let blanks := ch ' ' :: List.replicate (8 - (Numeral.text 10 n).length) (ch ' ')
  have hsplit : wantedLine i n ++ t = (Numeral.text 10 i ++ ch ':' :: (blanks ++ Numeral.text 10 n)) ++ ch '\n' :: t := by
    simp [wantedLine, blanks]
  have hblank : ∀ d ∈ blanks, d = ch ' ' := by grind
  have hline : ∀ d ∈ Numeral.text 10 i ++ ch ':' :: (blanks ++ Numeral.text 10 n), d ≠ ch '\n' := by
    have hch : ch ':' ≠ ch '\n' ∧ ch ' ' ≠ ch '\n' := by decide
    grind [numeral_ne]
  have hcount : (blanks ++ Numeral.text 10 n).dropWhile (· = ch ' ') = Numeral.text 10 n := by
    rw [List.dropWhile_append_of_pos fun d hd => decide_eq_true (hblank d hd)]
    cases htext : Numeral.text 10 n with
    | nil => rfl
    | cons d s => simp [(numeral_ne (n := n) (htext ▸ List.mem_cons_self)).2.1]
  unfold parse
  rw [hsplit, parseFrom_line hline, List.nil_append, parseLine_numeral, hcount, Numeral.value_text (by decide) (by decide)]
  rfl

/-- The text that is asked for tells the counts. -/
theorem parse_wanted : parse (wanted counts) = some (entries counts (List.range 256)) := by
  unfold wanted
  induction entries counts (List.range 256) with
  | nil => rfl
  | cons e es ih => rw [List.flatMap_cons, parse_wantedLine, ih, Option.map_some]

/-! ## The text -/

theorem printed_eq_entries : printed counts is = (entries counts is).flatMap fun e => printedLine e.1 := by
  unfold printed entries
  rw [List.flatMap_map]

theorem entries_eq_nil_iff : entries counts is = [] ↔ ∀ i ∈ is, counts i = 0 := by
  unfold entries
  rw [List.map_eq_nil_iff, List.filter_eq_nil_iff]
  apply forall₂_congr
  intro i _
  rw [decide_eq_true_eq]
  exact ⟨fun h => UInt64.le_zero_iff.mp (UInt64.not_lt.mp h), fun h => by rw [h]; exact UInt64.lt_irrefl 0⟩

/-- The lines that are made are shorter than those that are asked for. -/
theorem length_printed_le (counts : Counts) : (printed counts (List.range 256)).length ≤ (wanted counts).length := by
  rw [printed_eq_entries]
  unfold wanted
  induction entries counts (List.range 256) with
  | nil => exact Nat.le_refl 0
  | cons e es ih =>
    rw [List.flatMap_cons, List.flatMap_cons, List.length_append, List.length_append, length_printedLine]
    have hline : (Numeral.text 10 e.1).length + 5 ≤ (wantedLine e.1 e.2).length := by
      unfold wantedLine
      simp only [List.length_append, List.length_cons, List.length_nil, List.length_replicate]
      omega
    omega

/-- A text with a line in it tells nothing. -/
theorem parse_printed (h : entries counts is ≠ []) : parse (printed counts is) = none := by
  rw [printed_eq_entries]
  cases hentries : entries counts is with
  | nil => exact absurd hentries h
  | cons e es =>
    rw [List.flatMap_cons]
    exact parse_printedLine

/-- How a call ends. -/
theorem generate_eq (counts : Counts) (hbuf : b.buf ≠ 0) (hsize : 0 < b.size) :
    ∃ (w : Nat) (mem : Str) (is₁ is₂ : List Nat), List.range 256 = is₁ ++ is₂ ∧
      generateProcInterruptsContent counts b.buf b.size = some ((w : Int), mem) ∧ mem.length ≤ b.size ∧ mem.take w = printed counts is₁ ∧
      (is₂ ≠ [] → b.size ≤ (printed counts (List.range 256)).length) := by
  have his : ∀ i ∈ List.range 256, i < 2 ^ 31 := fun i hi => by
    have := List.mem_range.mp hi
    omega
  obtain ⟨w, mem, is₁, is₂, hsplit, hloop, hmem, htext, hlast⟩ :=
    interruptLoop_spec counts (w := 0) his hsize (Nat.zero_le _) (Nat.le_refl (List.length []))
  refine ⟨w, mem, is₁, is₂, hsplit, ?_, hmem, htext, fun h => ?_⟩
  · unfold generateProcInterruptsContent
    rw [if_neg (by rw [not_or]; exact ⟨hbuf, by omega⟩), hloop]
    rfl
  · have := hlast h
    omega

/-- A call is correct if and only if no interrupt has been counted or the text does not fit. -/
theorem interrupts_correct_iff :
    (∃ r, generateProcInterruptsContent counts b.buf b.size = some r ∧ Correct counts b r) ↔
      (∀ i < 256, counts i = 0) ∨ b.size ≤ (wanted counts).length := by
  have hcounted : (∀ i < 256, counts i = 0) ↔ entries counts (List.range 256) = [] := by
    rw [entries_eq_nil_iff]
    simp only [List.mem_range]
  rw [hcounted]
  by_cases hnone : b.buf = 0 ∨ b.size = 0
  · have hcall : generateProcInterruptsContent counts b.buf b.size = some (-1, []) := by
      unfold generateProcInterruptsContent
      rw [if_pos (hnone.imp_right fun h => by omega)]
    rw [hcall]
    constructor
    · rintro ⟨r, hr, h⟩
      rw [← Option.some.inj hr] at h
      by_cases hfit : (wanted counts).length < b.size
      · exact .inl (Option.some.inj (h.tells hfit)).symm
      · exact .inr (Nat.not_lt.mp hfit)
    · intro h
      refine ⟨_, rfl, Nat.zero_le _, fun hfit => ?_⟩
      rw [h.resolve_right (Nat.not_le.mpr hfit)]
      rfl
  · obtain ⟨hbuf, hsize⟩ := not_or.mp hnone
    obtain ⟨w, mem, is₁, is₂, hsplit, hcall, hmem, htext, hlast⟩ := generate_eq counts hbuf (Nat.pos_of_ne_zero hsize)
    have htells : (wanted counts).length < b.size →
        (parse (mem.take w) = some (entries counts (List.range 256)) ↔ entries counts (List.range 256) = []) := by
      intro hfit
      have hall : is₂ = [] := by
        by_contra hrest
        have := hlast hrest
        have := length_printed_le counts
        omega
      rw [hall, List.append_nil] at hsplit
      rw [htext, ← hsplit]
      by_cases hentries : entries counts (List.range 256) = []
      · rw [printed_eq_entries, hentries]
        exact iff_of_true rfl rfl
      · rw [parse_printed hentries]
        exact iff_of_false nofun hentries
    rw [hcall]
    constructor
    · rintro ⟨r, hr, h⟩
      rw [← Option.some.inj hr] at h
      by_cases hfit : (wanted counts).length < b.size
      · exact .inl ((htells hfit).mp (h.tells hfit))
      · exact .inr (Nat.not_lt.mp hfit)
    · intro h
      refine ⟨_, rfl, hmem, fun hfit => ?_⟩
      exact (htells hfit).mpr (h.resolve_right (Nat.not_le.mpr hfit))

/-- One interrupt has been counted once: the text is `5: lu`. -/
theorem not_correct_counted :
    ¬∀ (counts : Counts) (b : Buffer),
      ∃ r, generateProcInterruptsContent counts b.buf b.size = some r ∧ Correct counts b r := by
  intro hall
  obtain ⟨r, hr, h⟩ := hall (fun i => if i = 5 then 1 else 0) ⟨4096, 64, by decide, by decide⟩
  have hrun : (generateProcInterruptsContent (fun i => if i = 5 then 1 else 0) 4096 (64 : Nat)).map
      (fun r => parse (r.2.take r.1.toNat)) = some none := by decide +kernel
  have hfit : (wanted fun i => if i = 5 then 1 else 0).length < 64 := by decide +kernel
  rw [hr, Option.map_some, h.tells hfit] at hrun
  nomatch hrun

end SC7.Interrupts
