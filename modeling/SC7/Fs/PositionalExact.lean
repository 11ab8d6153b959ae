-- SUMMARY: When a positional transfer is exact: for each of the four calls the condition on the file, the arguments and what happens below.
import SC7.Fs.Positional

/-!
# Exact transfers

A call is exact if the file position is what it was, and the bytes moved are those from the offset on, as many
as it returns. Exactness is decided piece by piece: a read or write has to report what it has moved, and to
start where the piece before it ended.
-/

namespace SC7.Positional

open Position (File Ext4File Chunk Target Coherent toInt SEEK_SET)

/-- The pieces that have bytes follow each other in the file, from `q` on. -/
def Contiguous : UInt64 → List Piece → Prop
  | _, [] => True
  | q, p :: ps => (p.bytes = 0 ∨ p.pos = some q) ∧ Contiguous (q + UInt64.ofNat p.bytes) ps

def total (ps : List Piece) : Nat := (ps.map (·.bytes)).sum

/-- Both positions are what they were. -/
def Same (f f' : File) : Prop := f'.fPos = f.fPos ∧ f'.ext4.fpos = f.ext4.fpos

/-- The file position is what it was, and the bytes that were moved are those at `[offset, offset + value)`. -/
structure Exact (f : File) (offset : UInt64) (r : Result) : Prop where
  position : Same f r.file
  contiguous : Contiguous offset r.pieces
  counted : (total r.pieces : Int) = max r.value 0

/-- A call that returns, and is exact. -/
def Correct (f : File) (offset : UInt64) (r : Option Result) : Prop := ∃ r', r = some r' ∧ Exact f offset r'

/-! ## When a transfer reports what it moves -/

/-- What the turns of a read of `n` bytes come to: whether the loop gets to its end, and what it delivers. -/
def scan (n : Int) (chunks : List Chunk) : Bool × UInt64 :=
  let r := (⟨0, 0⟩ : Ext4File).readLoop (UInt64.ofInt n) chunks 0
  (r.1, r.2.1)

/-- The bytes delivered are reported, and come from `q` if there are any. -/
def Delivers (q start : UInt64) (n : Int) (chunks : List Chunk) : Prop :=
  (scan n chunks).2.toNat < 2 ^ 31 ∧ ((scan n chunks).1 = true ∨ (scan n chunks).2 = 0) ∧
    ((scan n chunks).2 = 0 ∨ start = q)

/-- The text of a link is longer than an `int` can say. -/
def Link.Garbled (link : Link) : Prop :=
  (link.text.transfer (MAXPATH - 1)).status = 0 ∧ toInt (link.text.transfer (MAXPATH - 1)).moved < 0

/-- A read on `f` reports what it delivers, from `q` on. -/
def ReadFits (o : OpenFile) (f : File) (q : UInt64) (n : Int) (env : ReadEnv) : Prop :=
  o.flags &&& O_WRONLY ≠ 0 ∨
    match o.type with
    | .pipe | .fifo | .device => env.driver ≤ 0
    | .reg =>
      o.isDir = true ∨
        match env.link with
        | none => Delivers q f.ext4.fpos n env.chunks
        | some link =>
          link.Garbled ∨
            match link.target with
            | none => True
            | some (e, chunks) => Delivers q e.fpos n chunks
    | .socket | .busybox | .procfs => False

/-- What the pieces of a write of `n` bytes come to: how many are written as a whole, and what is moved. -/
def writeScan (n : Int) (env : WriteEnv) : Int × UInt64 :=
  let r := filewriteLoop n env 0 ⟨0, 0, 0⟩
  (r.1, r.2.ext4.fpos)

/-- A write on `f` writes everything, from `q` on, or nothing at all. -/
def WriteFits (flags : UInt32) (limit : UInt64) (f : File) (q : UInt64) (n : Int) (env : WriteEnv) : Prop :=
  (startWrite flags f).ext4.fpos + UInt64.ofInt n > limit ∨
    if (writeScan n env).1 = n then n = 0 ∨ (startWrite flags f).ext4.fpos = q else (writeScan n env).2 = 0

/-- The file after a seek. -/
def moveTo (f : File) (offset : UInt64) : File := ⟨offset, { f.ext4 with fpos := offset }⟩

/-- `sys_pread` refuses, or its read fits; after a read that returns an error the position has not changed by chance. -/
def PreadFits (o : OpenFile) (count offset : UInt64) (env : ReadEnv) : Prop :=
  preadChecks o offset ≠ none ∨
    o.type.HasVnode ∧ ReadFits o (moveTo o.file offset) offset (toInt count) env ∧
      ∀ r f p, fileread o (moveTo o.file offset) (toInt count) env = some (r, f, p) →
        if r < 0 then Same o.file f else Coherent o.file

/-- Each read of the loop fits, with `has` bytes delivered before it; they fit an `int`, and no read returns an error
behind them. -/
def PreadvLoopFits (o : OpenFile) : List (Iovec × ReadEnv) → UInt64 → File → UInt64 → Nat → Prop
  | [], _, _, _, _ => True
  | (iov, env) :: rest, fileSize, f, q, has =>
    fileSize = 0 ∨
      ReadFits o f q (toInt (min iov.len fileSize)) env ∧
        ∀ r f' p, fileread o f (toInt (min iov.len fileSize)) env = some (r, f', p) →
          if r < 0 then has = 0
          else has + r.toNat < 2 ^ 31 ∧
            PreadvLoopFits o rest (fileSize - UInt64.ofInt r) f' (q + UInt64.ofInt r) (has + r.toNat)

/-- `sys_preadv` refuses, or has room for the array and refuses or fits. -/
def PreadvFits (o : OpenFile) (v : UserArray) (iovcnt : Int) (offset fileSize : UInt64) (below : Nat → ReadEnv) : Prop :=
  preadvChecks o v iovcnt offset ≠ none ∨
    Int.bmod (16 * iovcnt) (2 ^ 32) = 16 * iovcnt ∧
      (((v.elements below iovcnt.toNat).findSome? fun x => preadvElement v x.1) ≠ none ∨
        o.type.HasVnode ∧ Coherent o.file ∧
          PreadvLoopFits o (v.elements below iovcnt.toNat) fileSize (moveTo o.file offset) offset 0)

/-- `sys_pwrite64` refuses; the offset looks like an error and is where the file stands; or the write fits. -/
def Pwrite64Fits (o : OpenFile) (limit : UInt64) (accessOk : UInt64 → Bool) (count offset : UInt64) (env : WriteEnv) : Prop :=
  pwriteChecks o accessOk count offset ≠ none ∨
    if toInt offset < 0 then Same o.file (moveTo o.file offset)
    else Coherent o.file ∧
      (accessOk (UInt64.ofInt (toInt count)) = false ∨
        WriteFits o.flags limit (moveTo o.file offset) offset (toInt count) env)

/-- Each write of the loop fits, and no write returns an error behind `has` bytes. -/
def PwritevLoopFits (flags : UInt32) (limit : UInt64) : List (Iovec × WriteEnv) → File → UInt64 → Nat → Prop
  | [], _, _, _ => True
  | (iov, env) :: rest, f, q, has =>
    if iov.len32 = 0 then PwritevLoopFits flags limit rest f q has
    else
      WriteFits flags limit f q iov.intLen env ∧
        if (filewrite flags limit f iov.intLen env).1 < 0 then has = 0
        else PwritevLoopFits flags limit rest (filewrite flags limit f iov.intLen env).2.1
          (q + UInt64.ofInt iov.intLen) (has + iov.intLen.toNat)

/-- `sys_pwritev` refuses; the offset looks like an error and is where the file stands; or the writes fit. -/
def PwritevFits (o : OpenFile) (limit : UInt64) (v : UserArray) (uiov iovcnt offset : UInt64) (below : Nat → WriteEnv) :
    Prop :=
  pwritevChecks o v uiov iovcnt offset ≠ none ∨
    ((v.elements below iovcnt.toNat).findSome? fun x => pwritevElement v x.1) ≠ none ∨
    if toInt offset < 0 then Same o.file (moveTo o.file offset)
    else Coherent o.file ∧
      PwritevLoopFits o.flags limit (v.elements below iovcnt.toNat) (moveTo o.file offset) offset 0

/-- What is returned is what was moved, from `q` on. -/
def Reports (q : UInt64) (r : Int) (p : Piece) : Prop := (p.bytes = 0 ∨ p.pos = some q) ∧ (p.bytes : Int) = max r 0

variable {o : OpenFile} {f f' g : File} {q offset : UInt64} {n r : Int} {p : Piece} {ps : List Piece} {e e' : Ext4File}

@[simp]
theorem total_nil : total [] = 0 := rfl

@[simp]
theorem total_cons : total (p :: ps) = p.bytes + total ps := by simp [total]

section Reads

theorem readLoop_same (size : UInt64) (chunks : List Chunk) (has : UInt64) (e e' : Ext4File) :
    (e.readLoop size chunks has).1 = (e'.readLoop size chunks has).1 ∧
    (e.readLoop size chunks has).2.1 = (e'.readLoop size chunks has).2.1 := by
  induction chunks generalizing has e e' with
  | nil => exact ⟨rfl, rfl⟩
  | cons c cs ih =>
    unfold Ext4File.readLoop
    dsimp only
    split
    · split
      · exact ⟨rfl, rfl⟩
      · split
        · exact ⟨rfl, rfl⟩
        · split
          · exact ⟨rfl, rfl⟩
          · exact ih _ _ _
    · exact ⟨rfl, rfl⟩

theorem toInt_le (x : UInt64) : toInt x ≤ x.toNat := by
  have := Int.bmod_le (x := (x.toNat : Int)) (m := 2 ^ 32) (by decide)
  unfold toInt
  rw [Int.bmod_def]
  split
  · omega
  · omega

theorem toInt_eq_iff (x : UInt64) : toInt x = x.toNat ↔ x.toNat < 2 ^ 31 := by
  unfold toInt
  rw [Int.bmod_def]
  split
  · omega
  · omega

/-- A read of the library on a file reports what it delivers exactly if its turns do. -/
theorem vfsExt4Read_reports_iff (f : File) (chunks : List Chunk) :
    Reports q (f.vfsExt4Read (UInt64.ofInt n) (.user chunks)).1
      ⟨some f.ext4.fpos, (f.ext4.readLoop (UInt64.ofInt n) chunks 0).2.1.toNat⟩ ↔
    Delivers q f.ext4.fpos n chunks := by
  obtain ⟨hok, hbytes⟩ := readLoop_same (UInt64.ofInt n) chunks 0 f.ext4 ⟨0, 0⟩
  unfold Reports Delivers scan File.vfsExt4Read File.readInto
  dsimp only
  rw [← hok, ← hbytes]
  obtain ⟨ok, b, e, hread⟩ : ∃ ok b e, f.ext4.readLoop (UInt64.ofInt n) chunks 0 = (ok, b, e) := ⟨_, _, _, rfl⟩
  rw [hread]
  have hzero : b.toNat = 0 ↔ b = 0 := by rw [← UInt64.toNat_inj]; rfl
  have hle := toInt_le b
  have heq := toInt_eq_iff b
  rw [hzero, Option.some.injEq]
  cases ok with
  | false =>
    simp only [Bool.false_eq_true, false_or]
    constructor
    · rintro ⟨hq, hcount⟩
      exact ⟨by omega, hzero.mp (by omega), hq⟩
    · rintro ⟨-, rfl, -⟩
      exact ⟨.inl rfl, rfl⟩
  | true =>
    simp only [true_or, true_and]
    constructor
    · rintro ⟨hq, hcount⟩
      exact ⟨by omega, hq⟩
    · rintro ⟨hlt, hq⟩
      exact ⟨hq, by omega⟩

theorem reports_empty (h : r ≤ 0) : Reports q r .empty := by
  refine ⟨.inl rfl, ?_⟩
  show ((0 : Nat) : Int) = max r 0
  omega

/-- The text of a link is read as it is, wherever the file stands. -/
theorem readLen_neg_iff (f : File) (link : Link) :
    (f.vfsExt4Read (MAXPATH - 1) (.kernel link.text)).1 < 0 ↔ link.Garbled := by
  unfold File.vfsExt4Read File.readInto Link.Garbled
  by_cases hstatus : (link.text.transfer (MAXPATH - 1)).status = 0
  · simp [hstatus]
  · simp [hstatus]

theorem readReg_reports_iff (f : File) (env : ReadEnv) :
    Reports q (readReg f n env).1 (readReg f n env).2.2 ↔
      match env.link with
      | none => Delivers q f.ext4.fpos n env.chunks
      | some link =>
        link.Garbled ∨
          match link.target with
          | none => True
          | some (e, chunks) => Delivers q e.fpos n chunks := by
  unfold readReg
  cases env.link with
  | none => exact vfsExt4Read_reports_iff f env.chunks
  | some link =>
    have hneg := readLen_neg_iff f link
    dsimp only
    by_cases hgarbled : link.Garbled
    · rw [if_pos (hneg.mpr hgarbled)]
      exact iff_of_true (reports_empty (Int.le_of_lt (hneg.mpr hgarbled))) (.inl hgarbled)
    · rw [if_neg (mt hneg.mp hgarbled)]
      simp only [hgarbled, false_or]
      cases link.target with
      | none => exact iff_of_true (reports_empty (r := -ENOENT) (by decide)) trivial
      | some target =>
        obtain ⟨e, chunks⟩ := target
        exact vfsExt4Read_reports_iff ⟨_, e⟩ chunks

/-- A read reports what it delivers exactly if what happens below fits. -/
theorem fileread_reports_iff (env : ReadEnv) :
    (∃ r f' p, fileread o f n env = some (r, f', p) ∧ Reports q r p) ↔ ReadFits o f q n env := by
  unfold fileread ReadFits
  by_cases hwronly : o.flags &&& O_WRONLY ≠ 0
  · rw [if_pos hwronly]
    exact iff_of_true ⟨_, _, _, rfl, reports_empty (by decide)⟩ (.inl hwronly)
  · rw [if_neg hwronly]
    simp only [hwronly, false_or]
    have hdriver : (∃ r f' p, some (env.driver, f, (⟨none, env.driver.toNat⟩ : Piece)) = some (r, f', p) ∧ Reports q r p) ↔
        env.driver ≤ 0 := by
      constructor
      · rintro ⟨r, f', p, heq, hpos | hpos, -⟩
        · cases heq
          exact Int.toNat_eq_zero.mp hpos
        · cases heq
          cases hpos
      · intro hle
        refine ⟨_, _, _, rfl, .inl (Int.toNat_of_nonpos hle), ?_⟩
        dsimp only
        omega
    cases o.type with
    | pipe => exact hdriver
    | fifo => exact hdriver
    | device => exact hdriver
    | reg =>
      cases o.isDir with
      | true =>
        simp only [if_true, true_or]
        exact iff_of_true ⟨_, _, _, rfl, reports_empty (by decide)⟩ trivial
      | false =>
        simp only [Bool.false_eq_true, if_false, false_or]
        rw [← readReg_reports_iff]
        constructor
        · rintro ⟨r, f', p, heq, hreports⟩
          rw [Option.some.injEq] at heq
          rw [heq]
          exact hreports
        · exact fun hreports => ⟨_, _, _, rfl, hreports⟩
    | socket => simp
    | busybox => simp
    | procfs => simp

theorem vfsExt4Read_le (f : File) (size : UInt64) (chunks : List Chunk) :
    max (f.vfsExt4Read size (.user chunks)).1 0 ≤ ((f.ext4.readLoop size chunks 0).2.1.toNat : Int) := by
  unfold File.vfsExt4Read File.readInto
  dsimp only
  obtain ⟨ok, b, e, hloop⟩ : ∃ ok b e, f.ext4.readLoop size chunks 0 = (ok, b, e) := ⟨_, _, _, rfl⟩
  rw [hloop]
  have hle := toInt_le b
  cases ok with
  | false =>
    dsimp only
    omega
  | true =>
    dsimp only
    omega

theorem empty_le (h : r ≤ 0) : max r 0 ≤ (Piece.empty.bytes : Int) := by
  show max r 0 ≤ ((0 : Nat) : Int)
  omega

theorem readReg_le (f : File) (env : ReadEnv) : max (readReg f n env).1 0 ≤ ((readReg f n env).2.2.bytes : Int) := by
  unfold readReg
  cases env.link with
  | none => exact vfsExt4Read_le f _ env.chunks
  | some link =>
    dsimp only
    by_cases hneg : (f.vfsExt4Read (MAXPATH - 1) (.kernel link.text)).1 < 0
    · rw [if_pos hneg]
      exact empty_le (Int.le_of_lt hneg)
    · rw [if_neg hneg]
      cases link.target with
      | none => exact empty_le (r := -ENOENT) (by decide)
      | some target => exact vfsExt4Read_le ⟨_, target.1⟩ _ target.2

/-- No read returns more than it has delivered. -/
theorem fileread_le {env : ReadEnv} (h : fileread o f n env = some (r, f', p)) : max r 0 ≤ (p.bytes : Int) := by
  unfold fileread at h
  split at h
  · cases h
    exact empty_le (by decide)
  · split at h
    · cases h
      exact Int.le_of_eq (Int.toNat_eq_max _).symm
    · cases h
      exact Int.le_of_eq (Int.toNat_eq_max _).symm
    · cases h
      exact Int.le_of_eq (Int.toNat_eq_max _).symm
    · split at h
      · cases h
        exact empty_le (by decide)
      · rw [Option.some.injEq] at h
        have hle := readReg_le (n := n) f env
        rw [h] at hle
        exact hle
    · cases h
    · cases h
    · cases h

end Reads

section Writes

variable {turns : List Turn} {env : WriteEnv} {size has : UInt64} {i : Int} {flags : UInt32} {limit : UInt64}

/-- The turns of a write do the same wherever the file stands. -/
theorem writeLoop_same (size : UInt64) (chunks : List Chunk) (has : UInt64) (e e' : Ext4File) :
    (e.writeLoop size chunks has).1 = (e'.writeLoop size chunks has).1 ∧
    (e.writeLoop size chunks has).2.1 = (e'.writeLoop size chunks has).2.1 ∧
    (e.writeLoop size chunks has).2.2.fpos - e.fpos = (e'.writeLoop size chunks has).2.2.fpos - e'.fpos := by
  induction chunks generalizing has e e' with
  | nil => exact ⟨rfl, rfl, by simp [Ext4File.writeLoop]⟩
  | cons c cs ih =>
    have hmoved : ∀ m : UInt64, e.fpos + m - e.fpos = e'.fpos + m - e'.fpos := by
      intro m
      grind
    unfold Ext4File.writeLoop
    dsimp only
    split
    · split
      · exact ⟨rfl, rfl, by simp⟩
      · split
        · exact ⟨rfl, rfl, hmoved _⟩
        · split
          · exact ⟨rfl, rfl, hmoved _⟩
          · obtain ⟨hok, hbytes, hpos⟩ := ih (has + (c.transfer (min (size - has) Position.PGSIZE)).moved)
              ⟨e.fpos + (c.transfer (min (size - has) Position.PGSIZE)).moved, (c.transfer (min (size - has) Position.PGSIZE)).fsize⟩
              ⟨e'.fpos + (c.transfer (min (size - has) Position.PGSIZE)).moved, (c.transfer (min (size - has) Position.PGSIZE)).fsize⟩
            refine ⟨hok, hbytes, ?_⟩
            dsimp only at hpos
            grind
    · exact ⟨rfl, rfl, by simp⟩

/-- A loop that gets to its end has moved what it has written, and no more than it was asked for. -/
theorem writeLoop_ok (e : Ext4File) (size : UInt64) (turns : List Turn) (has : UInt64)
    (h : (e.writeLoop size (turns.map (·.chunk)) has).1 = true) (hle : has ≤ size) :
    (e.writeLoop size (turns.map (·.chunk)) has).2.2.fpos - e.fpos =
      (e.writeLoop size (turns.map (·.chunk)) has).2.1 - has ∧
    (e.writeLoop size (turns.map (·.chunk)) has).2.1 ≤ size := by
  induction turns generalizing has e with
  | nil => exact ⟨by simp [Ext4File.writeLoop], hle⟩
  | cons t ts ih =>
    rw [List.map_cons] at h ⊢
    unfold Ext4File.writeLoop at h ⊢
    dsimp only at h ⊢
    split at h
    · rename_i hmore
      rw [if_pos hmore]
      split at h
      · cases h
      · rename_i hcopied
        rw [if_neg hcopied]
        split at h
        · cases h
        · rename_i hstatus
          rw [if_neg hstatus]
          split at h
          · rename_i hzero
            rw [if_pos hzero]
            refine ⟨?_, hle⟩
            dsimp only
            rw [hzero]
            simp
          · rename_i hzero
            rw [if_neg hzero]
            have hbound : has + (t.chunk.transfer (min (size - has) Position.PGSIZE)).moved ≤ size := by
              have hm := UInt64.le_trans (t.bounded (min (size - has) Position.PGSIZE)) Std.min_le_left
              rw [UInt64.le_iff_toNat_le] at hm hle ⊢
              rw [UInt64.toNat_sub_of_le _ _ (UInt64.le_iff_toNat_le.mpr hle)] at hm
              rw [UInt64.toNat_add]
              have := size.toNat_lt
              omega
            obtain ⟨hpos, hlast⟩ := ih _ _ h hbound
            refine ⟨?_, hlast⟩
            dsimp only at hpos
            grind
    · rename_i hmore
      rw [if_neg hmore]
      exact ⟨by simp, hle⟩

theorem toNat_ofInt (h0 : 0 ≤ n) (hn : n < 2 ^ 64) : ((UInt64.ofInt n).toNat : Int) = n := by
  unfold UInt64.ofInt
  rw [UInt64.toNat_ofNat']
  omega

theorem ofInt_natCast (m : Nat) : UInt64.ofInt m = UInt64.ofNat m := by
  rw [← UInt64.toNat_inj, UInt64.ofInt, UInt64.toNat_ofNat', UInt64.toNat_ofNat']
  omega

theorem ofInt_sub_add (n i k : Int) : UInt64.ofInt (n - i) = UInt64.ofInt k + UInt64.ofInt (n - (i + k)) := by
  rw [← UInt64.ofInt_add]
  congr 1
  omega

theorem writePiece_same (n : Int) (turns : List Turn) (f g : File) :
    (writePiece f n turns).1 = (writePiece g n turns).1 ∧
    (writePiece f n turns).2.ext4.fpos - f.ext4.fpos = (writePiece g n turns).2.ext4.fpos - g.ext4.fpos := by
  obtain ⟨hok, hbytes, hpos⟩ := writeLoop_same (UInt64.ofInt n) (turns.map (·.chunk)) 0 f.ext4 g.ext4
  unfold writePiece File.vfsExt4Write
  dsimp only
  revert hok hbytes hpos
  generalize f.ext4.writeLoop (UInt64.ofInt n) (turns.map (·.chunk)) 0 = x
  generalize g.ext4.writeLoop (UInt64.ofInt n) (turns.map (·.chunk)) 0 = y
  obtain ⟨ok, b, e⟩ := x
  obtain ⟨ok', b', e'⟩ := y
  rintro ⟨⟩ ⟨⟩ hpos
  cases ok with
  | false => exact ⟨rfl, hpos⟩
  | true => exact ⟨rfl, hpos⟩

/-- A piece that is written as a whole has been moved as a whole. -/
theorem writePiece_whole (h0 : 0 < n) (hn : n < 2 ^ 31) (h : (writePiece f n turns).1 = n) :
    (writePiece f n turns).2.ext4.fpos - f.ext4.fpos = UInt64.ofInt n := by
  have hsize := toNat_ofInt (n := n) (by omega) (by omega)
  have hwrite := writeLoop_ok f.ext4 (UInt64.ofInt n) turns 0
  unfold writePiece File.vfsExt4Write at h ⊢
  dsimp only at h ⊢
  revert h hwrite
  generalize f.ext4.writeLoop (UInt64.ofInt n) (turns.map (·.chunk)) 0 = x
  obtain ⟨ok, b, e⟩ := x
  cases ok with
  | false =>
    intro h _
    exact absurd h (by dsimp only; omega)
  | true =>
    intro h hwrite
    obtain ⟨hpos, hle⟩ := hwrite rfl (by rw [UInt64.le_iff_toNat_le]; exact Nat.zero_le _)
    dsimp only at h hpos hle ⊢
    have hb := toInt_le b
    rw [UInt64.le_iff_toNat_le] at hle
    rw [hpos, UInt64.sub_zero, ← UInt64.toNat_inj]
    omega

theorem filewriteLoop_same (n : Int) (env : WriteEnv) (i : Int) (f g : File) :
    (filewriteLoop n env i f).1 = (filewriteLoop n env i g).1 ∧
    (filewriteLoop n env i f).2.ext4.fpos - f.ext4.fpos = (filewriteLoop n env i g).2.ext4.fpos - g.ext4.fpos := by
  induction env generalizing i f g with
  | nil =>
    unfold filewriteLoop
    split
    · exact ⟨rfl, (writePiece_same (min (n - i) maxWrite) [] f g).2⟩
    · exact ⟨rfl, by simp⟩
  | cons turns env ih =>
    obtain ⟨hvalue, hpos⟩ := writePiece_same (min (n - i) maxWrite) turns f g
    unfold filewriteLoop
    dsimp only
    rw [← hvalue]
    split
    · split
      · exact ⟨rfl, hpos⟩
      · obtain ⟨hi, hrest⟩ := ih (i + (writePiece f (min (n - i) maxWrite) turns).1)
          (writePiece f (min (n - i) maxWrite) turns).2 (writePiece g (min (n - i) maxWrite) turns).2
        exact ⟨hi, by grind⟩
    · exact ⟨rfl, by simp⟩

/-- If all the bytes are written, they have been moved. -/
theorem filewriteLoop_whole (hi : i ≤ n) (hn : n - i < 2 ^ 31) (h : (filewriteLoop n env i f).1 = n) :
    (filewriteLoop n env i f).2.ext4.fpos - f.ext4.fpos = UInt64.ofInt (n - i) := by
  induction env generalizing i f with
  | nil =>
    unfold filewriteLoop at h ⊢
    split at h
    · omega
    · rename_i hge
      rw [if_neg hge, UInt64.sub_self, show n - i = 0 by omega]
      rfl
  | cons turns env ih =>
    unfold filewriteLoop at h ⊢
    dsimp only at h ⊢
    split at h
    · rename_i hlt
      rw [if_pos hlt]
      split at h
      · omega
      · rename_i hpiece
        rw [if_neg hpiece]
        have hpiece := Decidable.not_not.mp hpiece
        have hpos := writePiece_whole (by unfold maxWrite; omega) (by omega) hpiece
        rw [hpiece] at h ⊢
        have hrest := ih (by omega) (by unfold maxWrite; omega) h
        rw [ofInt_sub_add n i (min (n - i) maxWrite), ← hrest, ← hpos]
        grind
    · rename_i hge
      rw [if_neg hge, UInt64.sub_self, show n - i = 0 by omega]
      rfl

/-- A write reports what it moves exactly if what happens below fits. -/
theorem filewrite_reports_iff (h0 : 0 ≤ n) (hn : n < 2 ^ 31) :
    Reports q (filewrite flags limit f n env).1 (filewrite flags limit f n env).2.2 ↔ WriteFits flags limit f q n env := by
  unfold filewrite WriteFits writeScan
  dsimp only
  by_cases hlimit : (startWrite flags f).ext4.fpos + UInt64.ofInt n > limit
  · rw [if_pos hlimit]
    exact iff_of_true (reports_empty (r := -EFBIG) (by decide)) (.inl hlimit)
  · rw [if_neg hlimit]
    obtain ⟨hi, hpos⟩ := filewriteLoop_same n env 0 (startWrite flags f) ⟨0, 0, 0⟩
    rw [UInt64.sub_zero] at hpos
    have hzero : ∀ x : UInt64, x.toNat = 0 ↔ x = 0 := by
      intro x
      rw [← UInt64.toNat_inj]
      rfl
    simp only [hlimit, false_or, ← hi, ← hpos, Reports, hzero, Option.some.injEq]
    by_cases hwhole : (filewriteLoop n env 0 (startWrite flags f)).1 = n
    · have hmoved := filewriteLoop_whole h0 (by omega) hwhole
      rw [Int.sub_zero] at hmoved
      have hsize := toNat_ofInt h0 (by omega)
      rw [if_pos hwhole, if_pos hwhole, hmoved, ← hzero]
      constructor
      · rintro ⟨h | h, -⟩
        · exact .inl (by omega)
        · exact .inr h
      · intro h
        exact ⟨h.imp_left fun h => by omega, by omega⟩
    · rw [if_neg hwhole, if_neg hwhole]
      constructor
      · rintro ⟨-, hcount⟩
        rw [show max (-EINVAL) 0 = 0 by decide] at hcount
        rw [← hzero]
        omega
      · intro h
        rw [h]
        exact ⟨.inl rfl, by decide⟩

end Writes

/-! ## The calls -/

section Calls

variable {count fileSize limit : UInt64} {v : UserArray} {iovcnt : Int} {has : Nat} {flags : UInt32} {α : Type}
  {iov : Iovec} {accessOk : UInt64 → Bool}

@[simp]
theorem vfsExt4Lseek_set (f : File) (offset : UInt64) : f.vfsExt4Lseek offset SEEK_SET = (toInt offset, moveTo f offset) :=
  rfl

/-- A call that refuses has moved nothing. -/
theorem exact_refused (h : r ≤ 0) : Exact f offset ⟨r, f, []⟩ := by
  refine ⟨⟨rfl, rfl⟩, trivial, ?_⟩
  rw [total_nil]
  dsimp only
  omega

theorem contiguous_single : Contiguous q [p] ↔ p.bytes = 0 ∨ p.pos = some q := and_iff_left trivial

/-- A call that makes one transfer. -/
theorem exact_single_iff : Exact f offset ⟨r, f', [p]⟩ ↔ Same f f' ∧ Reports offset r p := by
  constructor
  · rintro ⟨hsame, hcont, hcount⟩
    rw [total_cons, total_nil, Nat.add_zero] at hcount
    exact ⟨hsame, contiguous_single.mp hcont, hcount⟩
  · rintro ⟨hsame, hpos, hcount⟩
    refine ⟨hsame, contiguous_single.mpr hpos, ?_⟩
    rw [total_cons, total_nil, Nat.add_zero]
    exact hcount

/-- Going back to `f_pos` restores the position if both positions were the same. -/
theorem same_moveTo_iff : Same f (moveTo g f.fPos) ↔ Coherent f := by
  unfold Same moveTo Coherent
  exact and_iff_right rfl

/-- A check that fails answers with its code, or those after it answer. -/
theorem nonpos_ite {p : Prop} [Decidable p] {e r : Int} {rest : Option Int} (he : e ≤ 0)
    (hrest : rest = some r → r ≤ 0) : (if p then some e else rest) = some r → r ≤ 0 := by
  intro h
  split at h
  · exact Option.some.inj h ▸ he
  · exact hrest h

theorem preadChecks_nonpos (h : preadChecks o offset = some r) : r ≤ 0 := by
  unfold preadChecks at h
  revert h
  repeat refine nonpos_ite (by decide) ?_
  exact nofun

theorem preadChecks_none (h : preadChecks o offset = none) : ¬toInt offset < 0 := by
  intro hneg
  rw [preadChecks, if_pos hneg] at h
  cases h

theorem lseek_eq (o : OpenFile) (f : File) (offset : UInt64) :
    lseek o f offset = if o.type.HasVnode then some (toInt offset, moveTo f offset) else none := rfl

@[simp]
theorem checked_some (e : Int) (refuse : Int → α) (go : α) : checked (some e) refuse go = refuse e := rfl

@[simp]
theorem checked_none (refuse : Int → α) (go : α) : checked none refuse go = go := rfl

/-- A read behind the checks. -/
theorem sysPread_eq (env : ReadEnv) (hchecks : preadChecks o offset = none) (hvnode : o.type.HasVnode) :
    sysPread o count offset env = (fileread o (moveTo o.file offset) (toInt count) env).map fun x =>
      ⟨x.1, if x.1 < 0 then x.2.1 else moveTo x.2.1 o.file.fPos, [x.2.2]⟩ := by
  unfold sysPread
  rw [hchecks, checked_none, lseek_eq, if_pos hvnode, Option.bind_eq_bind, Option.bind_some]
  dsimp only
  rw [if_neg (preadChecks_none hchecks)]
  cases fileread o (moveTo o.file offset) (toInt count) env with
  | none => rfl
  | some x =>
    rw [Option.bind_eq_bind, Option.bind_some, Option.map_some]
    by_cases hneg : x.1 < 0
    · rw [if_pos hneg, if_pos hneg]
      rfl
    · rw [if_neg hneg, if_neg hneg, lseek_eq, if_pos hvnode]
      rfl

/-- No seek, no read. -/
theorem sysPread_none (env : ReadEnv) (hchecks : preadChecks o offset = none) (hvnode : ¬o.type.HasVnode) :
    sysPread o count offset env = none := by
  unfold sysPread
  rw [hchecks, checked_none, lseek_eq, if_neg hvnode]
  rfl

theorem pread_iff (env : ReadEnv) :
    Correct o.file offset (sysPread o count offset env) ↔ PreadFits o count offset env := by
  unfold PreadFits Correct
  cases hchecks : preadChecks o offset with
  | some e =>
    refine iff_of_true ⟨⟨e, o.file, []⟩, ?_, exact_refused (preadChecks_nonpos hchecks)⟩ (.inl nofun)
    rw [sysPread, hchecks, checked_some]
  | none =>
    rw [or_iff_right (fun h => h rfl)]
    by_cases hvnode : o.type.HasVnode
    · rw [and_iff_right hvnode, sysPread_eq env hchecks hvnode, ← fileread_reports_iff]
      constructor
      · rintro ⟨result, hresult, hexact⟩
        obtain ⟨⟨r, f, p⟩, hread, rfl⟩ := Option.map_eq_some_iff.mp hresult
        obtain ⟨hsame, hreports⟩ := exact_single_iff.mp hexact
        refine ⟨⟨r, f, p, hread, hreports⟩, ?_⟩
        intro r' f' p' hread'
        rw [hread] at hread'
        cases hread'
        dsimp only at hsame
        by_cases hneg : r < 0
        · rw [if_pos hneg] at hsame ⊢
          exact hsame
        · rw [if_neg hneg] at hsame ⊢
          exact same_moveTo_iff.mp hsame
      · rintro ⟨⟨r, f, p, hread, hreports⟩, hpos⟩
        have hkept := hpos r f p hread
        rw [hread, Option.map_some]
        refine ⟨_, rfl, exact_single_iff.mpr ⟨?_, hreports⟩⟩
        dsimp only
        by_cases hneg : r < 0
        · rw [if_pos hneg] at hkept ⊢
          exact hkept
        · rw [if_neg hneg] at hkept ⊢
          exact same_moveTo_iff.mpr hkept
    · rw [sysPread_none env hchecks hvnode]
      refine iff_of_false ?_ fun h => hvnode h.1
      rintro ⟨result, hresult, -⟩
      cases hresult

theorem bmod_range (x : Int) : -2 ^ 31 ≤ Int.bmod x (2 ^ 32) ∧ Int.bmod x (2 ^ 32) < 2 ^ 31 := by
  rw [Int.bmod_def]
  split
  · omega
  · omega

/-- A loop that went through with a read and what comes behind it. -/
def Summed (q : UInt64) (has : Nat) (result : Option (Int × File × List Piece)) : Prop :=
  ∃ value f ps, result = some (value, f, ps) ∧ Contiguous q ps ∧ (has + total ps : Int) = max value 0

theorem summed_done : Summed q has (some (has, f, [])) := by
  refine ⟨_, _, _, rfl, trivial, ?_⟩
  rw [total_nil]
  omega

/-- A read that returns no error is exact with what comes behind it exactly if it reports what it delivers, and the
sum fits an `int`. -/
theorem summed_next_iff {behind : Option (Int × File × List Piece)} {Fits : Prop} (h0 : 0 ≤ r) (hhas : has < 2 ^ 31)
    (hle : max r 0 ≤ (p.bytes : Int))
    (hbound : ∀ value f ps, behind = some (value, f, ps) →
      max value 0 ≤ max (Int.bmod (has + r) (2 ^ 32)) 0 + total ps)
    (hiff : has + r.toNat < 2 ^ 31 → Int.bmod (has + r) (2 ^ 32) = ((has + r.toNat : Nat) : Int) →
      (Summed (q + UInt64.ofInt r) (has + r.toNat) behind ↔ Fits)) :
    Summed q has (behind.map fun x => (x.1, x.2.1, p :: x.2.2)) ↔ Reports q r p ∧ has + r.toNat < 2 ^ 31 ∧ Fits := by
  have hbmod : max (Int.bmod (has + r) (2 ^ 32)) 0 ≤ has + r ∧
      (Int.bmod (has + r) (2 ^ 32) = has + r ∨ max (Int.bmod (has + r) (2 ^ 32)) 0 < has + r) := by
    rw [Int.bmod_def]
    split
    · omega
    · omega
  constructor
  · rintro ⟨value, f, ps, hmap, hcont, hcount⟩
    obtain ⟨⟨value, f, ps⟩, hbehind, heq⟩ := Option.map_eq_some_iff.mp hmap
    cases heq
    have hle' := hbound value f ps hbehind
    rw [total_cons] at hcount
    dsimp only at hcount
    have hbytes : (p.bytes : Int) = r := by omega
    have hfits : has + r.toNat < 2 ^ 31 := by
      have := bmod_range (has + r)
      omega
    refine ⟨⟨hcont.1, by omega⟩, hfits, (hiff hfits (by omega)).mp ⟨value, f, ps, hbehind, ?_, by omega⟩⟩
    have := hcont.2
    rwa [← hbytes, ofInt_natCast]
  · rintro ⟨⟨hpos, hbytes⟩, hfits, hrest⟩
    have hsame : Int.bmod (has + r) (2 ^ 32) = ((has + r.toNat : Nat) : Int) := by
      rw [Int.bmod_def]
      split
      · omega
      · omega
    obtain ⟨value, f, ps, hbehind, hcont, hcount⟩ := (hiff hfits hsame).mpr hrest
    refine ⟨value, f, p :: ps, by rw [hbehind]; rfl, ⟨hpos, ?_⟩, ?_⟩
    · have hr : r = (p.bytes : Int) := by omega
      rwa [hr, ofInt_natCast] at hcont
    · rw [total_cons]
      omega

/-- One read of the loop. -/
theorem preadvLoop_cons (iov : Iovec) (env : ReadEnv) (rest : List (Iovec × ReadEnv)) (readbytes : Int)
    (hsize : fileSize ≠ 0) (hread : fileread o f (toInt (min iov.len fileSize)) env = some (r, f', p)) :
    preadvLoop o ((iov, env) :: rest) fileSize readbytes f =
      if r < 0 then some (r, f', [p])
      else (preadvLoop o rest (fileSize - UInt64.ofInt r) (Int.bmod (readbytes + r) (2 ^ 32)) f').map fun x =>
        (x.1, x.2.1, p :: x.2.2) := by
  rw [preadvLoop, if_neg hsize, hread, Option.bind_eq_bind, Option.bind_some]
  dsimp only
  by_cases hneg : r < 0
  · rw [if_pos hneg, if_pos hneg]
    rfl
  · rw [if_neg hneg, if_neg hneg]
    cases preadvLoop o rest (fileSize - UInt64.ofInt r) (Int.bmod (readbytes + r) (2 ^ 32)) f' with
    | none => rfl
    | some x => rfl

/-- The sum of what is reported is not above what is delivered, also when it does not fit an `int`. -/
theorem preadvLoop_le {elements : List (Iovec × ReadEnv)} {readbytes value : Int}
    (h : preadvLoop o elements fileSize readbytes f = some (value, f', ps)) (hrange : -2 ^ 31 ≤ readbytes) :
    max value 0 ≤ max readbytes 0 + total ps := by
  induction elements generalizing fileSize readbytes f ps with
  | nil =>
    cases h
    rw [total_nil]
    omega
  | cons x rest ih =>
    obtain ⟨iov, env⟩ := x
    by_cases hsize : fileSize = 0
    · rw [preadvLoop, if_pos hsize] at h
      cases h
      rw [total_nil]
      omega
    · cases hread : fileread o f (toInt (min iov.len fileSize)) env with
      | none =>
        rw [preadvLoop, if_neg hsize, hread] at h
        cases h
      | some x =>
        obtain ⟨r, f₁, p⟩ := x
        have hle := fileread_le hread
        rw [preadvLoop_cons iov env rest readbytes hsize hread] at h
        split at h
        · cases h
          omega
        · obtain ⟨⟨value', f₂, ps'⟩, hloop, heq⟩ := Option.map_eq_some_iff.mp h
          cases heq
          have hsum := ih hloop (bmod_range _).1
          have hbmod : max (Int.bmod (readbytes + r) (2 ^ 32)) 0 ≤ max readbytes 0 + max r 0 := by
            rw [Int.bmod_def]
            split
            · omega
            · omega
          rw [total_cons]
          dsimp only
          omega

/-- A loop is exact exactly if its reads fit; `has` bytes were delivered before it. -/
theorem preadvLoop_iff (o : OpenFile) (elements : List (Iovec × ReadEnv)) (hhas : has < 2 ^ 31) :
    Summed q has (preadvLoop o elements fileSize has f) ↔ PreadvLoopFits o elements fileSize f q has := by
  induction elements generalizing fileSize f q has with
  | nil => exact iff_of_true summed_done trivial
  | cons x rest ih =>
    obtain ⟨iov, env⟩ := x
    unfold PreadvLoopFits
    by_cases hsize : fileSize = 0
    · rw [preadvLoop, if_pos hsize]
      exact iff_of_true summed_done (.inl hsize)
    · rw [or_iff_right hsize, ← fileread_reports_iff]
      cases hread : fileread o f (toInt (min iov.len fileSize)) env with
      | none =>
        rw [preadvLoop, if_neg hsize, hread]
        refine iff_of_false ?_ ?_
        · rintro ⟨value, f', ps, heq, -⟩
          cases heq
        · rintro ⟨⟨r, f', p, heq, -⟩, -⟩
          cases heq
      | some x =>
        obtain ⟨r, f₁, p⟩ := x
        rw [preadvLoop_cons iov env rest has hsize hread]
        have hread_iff : ((∃ r' f' p', some (r, f₁, p) = some (r', f', p') ∧ Reports q r' p') ↔ Reports q r p) := by
          constructor
          · rintro ⟨r', f', p', ⟨⟩, hreports⟩
            exact hreports
          · exact fun hreports => ⟨_, _, _, rfl, hreports⟩
        rw [hread_iff]
        by_cases hneg : r < 0
        · rw [if_pos hneg]
          constructor
          · rintro ⟨value, f', ps, ⟨⟩, hcont, hcount⟩
            rw [total_cons, total_nil] at hcount
            refine ⟨⟨contiguous_single.mp hcont, by omega⟩, ?_⟩
            rintro r' f₁' p' ⟨⟩
            rw [if_pos hneg]
            omega
          · rintro ⟨⟨hpos, hbytes⟩, hnext⟩
            have hzero := hnext r f₁ p rfl
            rw [if_pos hneg] at hzero
            refine ⟨_, _, _, rfl, contiguous_single.mpr hpos, ?_⟩
            rw [total_cons, total_nil]
            omega
        · rw [if_neg hneg, summed_next_iff (Int.not_lt.mp hneg) hhas (fileread_le hread)
            (fun value f' ps hloop => preadvLoop_le hloop (bmod_range _).1)]
          · refine and_congr_right fun _ => ⟨?_, ?_⟩
            · rintro hnext r' f₁' p' ⟨⟩
              rw [if_neg hneg]
              exact hnext
            · intro hnext
              have := hnext r f₁ p rfl
              rwa [if_neg hneg] at this
          · intro hfits hsame
            rw [hsame]
            exact ih hfits

theorem preadvChecks_nonpos (h : preadvChecks o v iovcnt offset = some r) : r ≤ 0 := by
  unfold preadvChecks at h
  revert h
  repeat refine nonpos_ite (by decide) ?_
  exact nofun

theorem preadvChecks_none (h : preadvChecks o v iovcnt offset = none) : ¬toInt offset < 0 := by
  intro hneg
  rw [preadvChecks, if_pos hneg] at h
  cases h

theorem preadvElement_nonpos (h : preadvElement v iov = some r) : r ≤ 0 := by
  unfold preadvElement at h
  revert h
  repeat refine nonpos_ite (by decide) ?_
  exact nofun

/-- The reads behind the checks. -/
theorem sysPreadv_eq (below : Nat → ReadEnv) (hchecks : preadvChecks o v iovcnt offset = none)
    (hroom : Int.bmod (16 * iovcnt) (2 ^ 32) = 16 * iovcnt)
    (helements : ((v.elements below iovcnt.toNat).findSome? fun x => preadvElement v x.1) = none) :
    sysPreadv o v iovcnt offset fileSize below =
      if o.type.HasVnode then
        (preadvLoop o (v.elements below iovcnt.toNat) fileSize 0 (moveTo o.file offset)).map fun x =>
          ⟨x.1, moveTo x.2.1 o.file.fPos, x.2.2⟩
      else none := by
  unfold sysPreadv
  rw [hchecks, checked_none, if_neg (fun h => h hroom)]
  dsimp only
  rw [helements, checked_none, lseek_eq]
  by_cases hvnode : o.type.HasVnode
  · rw [if_pos hvnode, if_pos hvnode, Option.bind_eq_bind, Option.bind_some]
    dsimp only
    rw [if_neg (preadvChecks_none hchecks)]
    cases preadvLoop o (v.elements below iovcnt.toNat) fileSize 0 (moveTo o.file offset) with
    | none => rfl
    | some x =>
      rw [Option.bind_eq_bind, Option.bind_some, Option.map_some, lseek_eq, if_pos hvnode]
      rfl
  · rw [if_neg hvnode, if_neg hvnode]
    rfl

theorem preadv_iff (below : Nat → ReadEnv) :
    Correct o.file offset (sysPreadv o v iovcnt offset fileSize below) ↔ PreadvFits o v iovcnt offset fileSize below := by
  unfold PreadvFits Correct
  cases hchecks : preadvChecks o v iovcnt offset with
  | some e =>
    refine iff_of_true ⟨⟨e, o.file, []⟩, ?_, exact_refused (preadvChecks_nonpos hchecks)⟩ (.inl nofun)
    rw [sysPreadv, hchecks, checked_some]
  | none =>
    rw [or_iff_right (fun h => h rfl)]
    by_cases hroom : Int.bmod (16 * iovcnt) (2 ^ 32) = 16 * iovcnt
    · rw [and_iff_right hroom]
      cases helements : (v.elements below iovcnt.toNat).findSome? fun x => preadvElement v x.1 with
      | some e =>
        obtain ⟨x, -, hx⟩ := List.exists_of_findSome?_eq_some helements
        refine iff_of_true ⟨⟨e, o.file, []⟩, ?_, exact_refused (preadvElement_nonpos hx)⟩ (.inl nofun)
        rw [sysPreadv, hchecks, checked_none, if_neg (fun h => h hroom)]
        dsimp only
        rw [helements, checked_some]
      | none =>
        rw [or_iff_right (fun h => h rfl), sysPreadv_eq below hchecks hroom helements]
        by_cases hvnode : o.type.HasVnode
        · rw [if_pos hvnode, and_iff_right hvnode, ← preadvLoop_iff o _ (by decide : 0 < 2 ^ 31), Summed]
          constructor
          · rintro ⟨result, hresult, hexact⟩
            obtain ⟨⟨value, f, ps⟩, hloop, rfl⟩ := Option.map_eq_some_iff.mp hresult
            refine ⟨same_moveTo_iff.mp hexact.position, value, f, ps, hloop, hexact.contiguous, ?_⟩
            have := hexact.counted
            dsimp only at this
            omega
          · rintro ⟨hcoh, value, f, ps, hloop, hcont, hcount⟩
            refine ⟨_, Option.map_eq_some_iff.mpr ⟨_, hloop, rfl⟩, same_moveTo_iff.mpr hcoh, hcont, ?_⟩
            dsimp only
            omega
        · rw [if_neg hvnode]
          refine iff_of_false ?_ fun h => hvnode h.1
          rintro ⟨result, hresult, -⟩
          cases hresult
    · refine iff_of_false ?_ fun h => hroom h.1
      rintro ⟨result, hresult, -⟩
      rw [sysPreadv, hchecks, checked_none, if_pos hroom] at hresult
      cases hresult

theorem writeChecks_nonpos (h : writeChecks o offset = some r) : r ≤ 0 := by
  unfold writeChecks at h
  revert h
  repeat refine nonpos_ite (by decide) ?_
  exact nofun

theorem pwriteChecks_nonpos (h : pwriteChecks o accessOk count offset = some r) : r ≤ 0 := by
  unfold pwriteChecks at h
  cases hchecks : writeChecks o offset with
  | some e =>
    rw [hchecks, checked_some, Option.some.injEq] at h
    exact h ▸ writeChecks_nonpos hchecks
  | none =>
    rw [hchecks, checked_none] at h
    revert h
    repeat refine nonpos_ite (by decide) ?_
    exact nofun

/-- The checks leave a length that is not negative. -/
theorem pwriteChecks_none (h : pwriteChecks o accessOk count offset = none) : 0 ≤ toInt count := by
  unfold pwriteChecks at h
  cases hchecks : writeChecks o offset with
  | some e =>
    rw [hchecks, checked_some] at h
    cases h
  | none =>
    rw [hchecks, checked_none] at h
    split at h
    · cases h
    · omega

theorem pwritevChecks_nonpos {uiov : UInt64} {cnt : UInt64} (h : pwritevChecks o v uiov cnt offset = some r) : r ≤ 0 := by
  unfold pwritevChecks at h
  cases hchecks : writeChecks o offset with
  | some e =>
    rw [hchecks, checked_some, Option.some.injEq] at h
    exact h ▸ writeChecks_nonpos hchecks
  | none =>
    rw [hchecks, checked_none] at h
    revert h
    repeat refine nonpos_ite (by decide) ?_
    exact nofun

theorem pwritevElement_nonpos (h : pwritevElement v iov = some r) : r ≤ 0 := by
  unfold pwritevElement at h
  split at h
  · cases h
    decide
  · split at h
    · cases h
    · split at h
      · cases h
        decide
      · split at h
        · cases h
          decide
        · cases h

theorem pwritevElement_none (h : pwritevElement v iov = none) : 0 ≤ iov.intLen := by
  unfold pwritevElement at h
  split at h
  · cases h
  · omega

theorem sysLseek_eq (f : File) (offset : UInt64) :
    sysLseek f offset = (if toInt offset < 0 then -ESPIPE else toInt offset, moveTo f offset) := by
  unfold sysLseek
  rw [vfsExt4Lseek_set]

/-- A seek to an offset that looks like an error. -/
theorem exact_seek_iff (h : r < 0) : Exact f offset ⟨r, f', []⟩ ↔ Same f f' := by
  constructor
  · exact fun hexact => hexact.position
  · intro hsame
    refine ⟨hsame, trivial, ?_⟩
    rw [total_nil]
    dsimp only
    omega

theorem pwrite64_iff (accessOk : UInt64 → Bool) (env : WriteEnv) :
    Exact o.file offset (sysPwrite64 o limit accessOk count offset env) ↔ Pwrite64Fits o limit accessOk count offset env := by
  unfold Pwrite64Fits sysPwrite64
  cases hchecks : pwriteChecks o accessOk count offset with
  | some e =>
    rw [checked_some]
    exact iff_of_true (exact_refused (pwriteChecks_nonpos hchecks)) (.inl nofun)
  | none =>
    have h0 := pwriteChecks_none hchecks
    have hn : toInt count < 2 ^ 31 := (bmod_range _).2
    rw [checked_none, or_iff_right (fun h => h rfl), sysLseek_eq]
    dsimp only
    by_cases hneg : toInt offset < 0
    · rw [if_pos hneg, if_pos hneg, if_pos (by decide)]
      exact exact_seek_iff (by decide)
    · rw [if_neg hneg, if_neg hneg, if_neg hneg]
      by_cases haccess : accessOk (UInt64.ofInt (toInt count)) = false
      · rw [if_pos haccess, sysLseek_eq, exact_single_iff, same_moveTo_iff]
        exact and_congr_right fun _ => iff_of_true (reports_empty (r := -EFAULT) (by decide)) (.inl haccess)
      · rw [if_neg haccess, or_iff_right haccess, sysLseek_eq, exact_single_iff, same_moveTo_iff,
          filewrite_reports_iff h0 hn]

/-- A write returns what it was asked for, or an error. -/
theorem filewrite_value (flags : UInt32) (limit : UInt64) (f : File) (n : Int) (env : WriteEnv) :
    (filewrite flags limit f n env).1 = n ∨ (filewrite flags limit f n env).1 < 0 := by
  unfold filewrite
  dsimp only
  split
  · exact .inr (show -EFBIG < 0 by decide)
  · dsimp only
    split
    · exact .inl rfl
    · exact .inr (by decide)

/-- A write that returns what it was asked for has moved it. -/
theorem filewrite_bytes (flags : UInt32) (limit : UInt64) (f : File) (env : WriteEnv) (h0 : 0 ≤ n) (hn : n < 2 ^ 31) (h : (filewrite flags limit f n env).1 = n) :
    ((filewrite flags limit f n env).2.2.bytes : Int) = n := by
  unfold filewrite at h ⊢
  dsimp only at h ⊢
  split at h
  · exact absurd h (show -EFBIG ≠ n by unfold EFBIG; omega)
  · rename_i hlimit
    rw [if_neg hlimit]
    dsimp only at h ⊢
    split at h
    · rename_i hwhole
      rw [filewriteLoop_whole h0 (by omega) hwhole, Int.sub_zero]
      exact toNat_ofInt h0 (by omega)
    · exact absurd h (show -EINVAL ≠ n by unfold EINVAL; omega)

theorem intLen_eq (h : iov.len32 ≠ 0) (h0 : 0 ≤ iov.intLen) : iov.intLen = iov.len32.toNat ∧ 0 < iov.len32.toNat := by
  have hlt := iov.len32.toNat_lt
  have hne : iov.len32.toNat ≠ 0 := fun hzero => h (by rw [← UInt32.toNat_inj, hzero]; rfl)
  unfold Iovec.intLen at h0 ⊢
  rw [Int.bmod_def] at h0 ⊢
  split at h0
  · rename_i hhalf
    rw [if_pos hhalf]
    omega
  · omega

/-- A loop is exact exactly if its writes fit; `has` bytes were written before it. -/
theorem pwritevLoop_iff (flags : UInt32) (limit : UInt64) (elements : List (Iovec × WriteEnv))
    (h : ∀ x ∈ elements, 0 ≤ x.1.intLen) :
    (Contiguous q (pwritevLoop flags limit elements has f).2.2 ∧
      (has + total (pwritevLoop flags limit elements has f).2.2 : Int) =
        max (pwritevLoop flags limit elements has f).1 0) ↔
      PwritevLoopFits flags limit elements f q has := by
  induction elements generalizing f q has with
  | nil =>
    refine iff_of_true ⟨trivial, ?_⟩ trivial
    unfold pwritevLoop
    rw [total_nil]
    dsimp only
    omega
  | cons x rest ih =>
    obtain ⟨iov, env⟩ := x
    have hrest := fun x hx => h x (List.mem_cons_of_mem _ hx)
    have h0 := h (iov, env) List.mem_cons_self
    unfold pwritevLoop PwritevLoopFits
    by_cases hzero : iov.len32 = 0
    · rw [if_pos hzero, if_pos hzero]
      exact ih hrest
    · rw [if_neg hzero, if_neg hzero]
      obtain ⟨hlen, hpos⟩ := intLen_eq hzero h0
      have hvalue := filewrite_value flags limit f iov.intLen env
      have hmoved := filewrite_bytes flags limit f env h0 (bmod_range _).2
      rw [← filewrite_reports_iff h0 (bmod_range _).2]
      revert hvalue hmoved
      generalize filewrite flags limit f iov.intLen env = result
      intro hvalue hmoved
      unfold pwritevNext
      by_cases hneg : result.1 < 0
      · rw [if_pos hneg, if_pos hneg, contiguous_single, total_cons, total_nil]
        constructor
        · rintro ⟨hcont, hcount⟩
          exact ⟨⟨hcont, by omega⟩, by omega⟩
        · rintro ⟨⟨hcont, hbytes⟩, hhas⟩
          exact ⟨hcont, by omega⟩
      · have hr := hvalue.resolve_right hneg
        have hsum : (has : Int) + result.1 = ((has + iov.intLen.toNat : Nat) : Int) := by omega
        have hbytes := hmoved hr
        rw [if_neg hneg, if_neg hneg, if_neg (by omega), hsum, ← ih hrest, total_cons]
        have hq : UInt64.ofInt iov.intLen = UInt64.ofNat result.2.2.bytes := by
          rw [← hbytes, ofInt_natCast]
        have hreported : (result.2.2.bytes : Int) = max result.1 0 := by
          rw [hbytes, hr, Int.max_eq_left h0]
        rw [hq]
        generalize pwritevLoop flags limit rest ((has + iov.intLen.toNat : Nat) : Int) result.2.1 = behind
        have htotal : (has : Int) + ((result.2.2.bytes + total behind.2.2 : Nat) : Int) =
            ((has + iov.intLen.toNat : Nat) : Int) + total behind.2.2 := by omega
        dsimp only
        rw [htotal]
        exact ⟨fun h => ⟨⟨h.1.1, hreported⟩, h.1.2, h.2⟩, fun h => ⟨⟨h.1.1, h.2.1⟩, h.2.2⟩⟩

theorem pwritev_iff (o : OpenFile) (uiov cnt : UInt64) (below : Nat → WriteEnv) :
    Exact o.file offset (sysPwritev o limit v uiov cnt offset below) ↔ PwritevFits o limit v uiov cnt offset below := by
  unfold PwritevFits sysPwritev
  cases hchecks : pwritevChecks o v uiov cnt offset with
  | some e =>
    rw [checked_some]
    exact iff_of_true (exact_refused (pwritevChecks_nonpos hchecks)) (.inl nofun)
  | none =>
    rw [checked_none, or_iff_right (fun h => h rfl)]
    dsimp only
    cases helements : (v.elements below cnt.toNat).findSome? fun x => pwritevElement v x.1 with
    | some e =>
      obtain ⟨x, -, hx⟩ := List.exists_of_findSome?_eq_some helements
      rw [checked_some]
      exact iff_of_true (exact_refused (pwritevElement_nonpos hx)) (.inl nofun)
    | none =>
      have h0 : ∀ x ∈ v.elements below cnt.toNat, 0 ≤ x.1.intLen :=
        fun x hx => pwritevElement_none (List.findSome?_eq_none_iff.mp helements x hx)
      rw [checked_none, or_iff_right (fun h => h rfl), sysLseek_eq]
      dsimp only
      by_cases hneg : toInt offset < 0
      · rw [if_pos hneg, if_pos hneg, if_pos (by decide)]
        exact exact_seek_iff (by decide)
      · rw [if_neg hneg, if_neg hneg, if_neg hneg, sysLseek_eq, ← pwritevLoop_iff o.flags limit _ h0]
        constructor
        · intro hexact
          have hcount := hexact.counted
          exact ⟨same_moveTo_iff.mp hexact.position, hexact.contiguous, by rw [Int.natCast_zero, Int.zero_add]; exact hcount⟩
        · rintro ⟨hcoh, hcont, hcount⟩
          rw [Int.natCast_zero, Int.zero_add] at hcount
          exact ⟨same_moveTo_iff.mpr hcoh, hcont, hcount⟩

end Calls

/-- A positional call, with what is answered below it. -/
inductive Call where
  | pread (count offset : UInt64) (env : ReadEnv)
  | preadv (v : UserArray) (iovcnt : Int) (offset fileSize : UInt64) (below : Nat → ReadEnv)
  | pwrite64 (limit : UInt64) (accessOk : UInt64 → Bool) (count offset : UInt64) (env : WriteEnv)
  | pwritev (limit : UInt64) (v : UserArray) (uiov iovcnt offset : UInt64) (below : Nat → WriteEnv)

namespace Call

/-- The offset it is for. -/
def startPos : Call → UInt64
  | .pread _ offset _ => offset
  | .preadv _ _ offset _ _ => offset
  | .pwrite64 _ _ _ offset _ => offset
  | .pwritev _ _ _ _ offset _ => offset

def run (o : OpenFile) : Call → Option Result
  | .pread count offset env => sysPread o count offset env
  | .preadv v iovcnt offset fileSize below => sysPreadv o v iovcnt offset fileSize below
  | .pwrite64 limit accessOk count offset env => some (sysPwrite64 o limit accessOk count offset env)
  | .pwritev limit v uiov iovcnt offset below => some (sysPwritev o limit v uiov iovcnt offset below)

def Fits (o : OpenFile) : Call → Prop
  | .pread count offset env => PreadFits o count offset env
  | .preadv v iovcnt offset fileSize below => PreadvFits o v iovcnt offset fileSize below
  | .pwrite64 limit accessOk count offset env => Pwrite64Fits o limit accessOk count offset env
  | .pwritev limit v uiov iovcnt offset below => PwritevFits o limit v uiov iovcnt offset below

end Call

theorem correct_some_iff {result : Result} : Correct f offset (some result) ↔ Exact f offset result := by
  constructor
  · rintro ⟨r', hr, hexact⟩
    cases hr
    exact hexact
  · exact fun hexact => ⟨result, rfl, hexact⟩

/-- A file of 200 bytes that was opened for writing. -/
def writeOnly : OpenFile := ⟨.reg, O_WRONLY, false, ⟨0, 0, 200⟩⟩

end SC7.Positional
