-- SUMMARY: The two file positions of an open ext4 file (`vfs_ext4.c`): which calls keep `f_pos` and the position of the `ext4_file` together.
import SC7.Base.Run
import Mathlib.Algebra.Group.Int.Defs
import Mathlib.Algebra.Group.Nat.Defs

/-!
# File positions

The position of an open file is kept twice: in `f->f_pos` and in the `ext4_file` below it, where the
ext4 library reads and writes. Each call of the file system layer copies one to the other at its end,
but returns early when something fails.

What the ext4 library and the user copies do is given for each turn of a transfer loop. `ext4_fread` and
`ext4_fwrite` move the position by the bytes they have moved, also when they then report an error. Numbers
are 64-bit words, as the C code converts them before it uses them.
-/

namespace SC7.Position

def PGSIZE : UInt64 := 4096
def EINVAL : Int := 22
def SEEK_SET : UInt32 := 0
def SEEK_CUR : UInt32 := 1
def SEEK_END : UInt32 := 2

/-- `ext4_file`. -/
structure Ext4File where
  fpos : UInt64
  fsize : UInt64
  deriving DecidableEq, Repr

/-- `struct file`. -/
structure File where
  fPos : UInt64
  ext4 : Ext4File
  deriving DecidableEq, Repr

/-- What one call of `ext4_fread` or `ext4_fwrite` does; `fsize` is the size that a write leaves. -/
structure Transfer where
  status : Int
  moved : UInt64
  fsize : UInt64
  deriving DecidableEq, Repr

/-- One turn of a transfer loop: the library call, for the size it is asked for, and whether the user
copy succeeds. -/
structure Chunk where
  transfer : UInt64 → Transfer
  copied : Bool

/-- Where the bytes go to or come from. Behind the last chunk of a list the library moves nothing. -/
inductive Target where
  | user (chunks : List Chunk)
  | kernel (chunk : Chunk)

/-- The `int` that a caller gets. -/
def toInt (x : UInt64) : Int := Int.bmod x.toNat (2 ^ 32)

namespace Ext4File

/-- `ext4_fseek`. -/
def fseek (e : Ext4File) (offset : UInt64) (origin : UInt32) : Int × Ext4File :=
  if origin = SEEK_SET then (0, { e with fpos := offset })
  else if origin = SEEK_CUR then (0, { e with fpos := e.fpos + offset })
  else if origin = SEEK_END then (0, { e with fpos := e.fsize + offset })
  else (EINVAL, e)

/-- The loop of a read: whether it came to its end, the bytes read and the file. -/
def readLoop (n : UInt64) : List Chunk → UInt64 → Ext4File → Bool × UInt64 × Ext4File
  | [], byteread, e => (true, byteread, e)
  | c :: cs, byteread, e =>
    if byteread < n then
      let t := c.transfer (min (n - byteread) PGSIZE)
      let e := { e with fpos := e.fpos + t.moved }
      if t.status ≠ 0 then (false, byteread, e)
      else if t.moved = 0 then (true, byteread, e)
      else if c.copied = false then (false, byteread, e)
      else readLoop n cs (byteread + t.moved) e
    else (true, byteread, e)

/-- The loop of a write. -/
def writeLoop (n : UInt64) : List Chunk → UInt64 → Ext4File → Bool × UInt64 × Ext4File
  | [], bytewrite, e => (true, bytewrite, e)
  | c :: cs, bytewrite, e =>
    if bytewrite < n then
      if c.copied = false then (false, bytewrite, e)
      else
        let t := c.transfer (min (n - bytewrite) PGSIZE)
        let e := { fpos := e.fpos + t.moved, fsize := t.fsize }
        if t.status ≠ 0 then (false, bytewrite, e)
        else if t.moved = 0 then (true, bytewrite, e)
        else writeLoop n cs (bytewrite + t.moved) e
    else (true, bytewrite, e)

end Ext4File

namespace File

variable (f : File)

/-- The transfer of `vfs_ext4_read` and `vfs_ext4_readat`. -/
def readInto (n : UInt64) (target : Target) : Bool × UInt64 × Ext4File :=
  match target with
  | .user chunks => f.ext4.readLoop n chunks 0
  | .kernel c =>
    let t := c.transfer n
    (t.status = 0, t.moved, { f.ext4 with fpos := f.ext4.fpos + t.moved })

def vfsExt4Read (n : UInt64) (target : Target) : Int × File :=
  match f.readInto n target with
  | (false, _, e) => (0, { f with ext4 := e })
  | (true, byteread, e) => (toInt byteread, ⟨e.fpos, e⟩)

def vfsExt4Readat (n offset : UInt64) (target : Target) : Int × File :=
  match f.ext4.fseek offset SEEK_SET with
  | (status, e) =>
    let f := { f with ext4 := e }
    if status ≠ 0 then (-1, f)
    else
      match f.readInto n target with
      | (false, _, e) => (0, { f with ext4 := e })
      | (true, byteread, e) =>
        match e.fseek f.fPos SEEK_SET with
        | (status, e) => (if status ≠ 0 then -1 else toInt byteread, { f with ext4 := e })

def vfsExt4Write (n : UInt64) (target : Target) : Int × File :=
  match target with
  | .user chunks =>
    match f.ext4.writeLoop n chunks 0 with
    | (false, _, e) => (0, { f with ext4 := e })
    | (true, bytewrite, e) => (toInt bytewrite, ⟨e.fpos, e⟩)
  | .kernel c =>
    let t := c.transfer n
    let e : Ext4File := { fpos := f.ext4.fpos + t.moved, fsize := t.fsize }
    if t.status ≠ 0 then (-t.status, { f with ext4 := e }) else (toInt t.moved, ⟨e.fpos, e⟩)

def vfsExt4Lseek (offset : UInt64) (startflag : UInt32) : Int × File :=
  match f.ext4.fseek offset startflag with
  | (status, e) => if status ≠ 0 then (-status, { f with ext4 := e }) else (toInt e.fpos, ⟨e.fpos, e⟩)

end File

/-- A call on the open file, with what happens below it. -/
inductive Call where
  | read (n : UInt64) (target : Target)
  | readat (n offset : UInt64) (target : Target)
  | write (n : UInt64) (target : Target)
  | lseek (offset : UInt64) (startflag : UInt32)

def Call.run (f : File) : Call → Int × File
  | .read n target => f.vfsExt4Read n target
  | .readat n offset target => f.vfsExt4Readat n offset target
  | .write n target => f.vfsExt4Write n target
  | .lseek offset startflag => f.vfsExt4Lseek offset startflag

/-! ## The calls that keep the positions together -/

/-- Both positions are the same, so the next read or write of the library starts at `f_pos`. -/
def Coherent (f : File) : Prop := f.fPos = f.ext4.fpos

/-- What is asked of a call: the positions are the same after it, and `readat` has not moved them. -/
def Keeps (f : File) (c : Call) : Prop :=
  Coherent (c.run f).2 ∧
    ∀ n offset target, c = .readat n offset target → (c.run f).2.fPos = f.fPos ∧ (c.run f).2.ext4.fpos = f.ext4.fpos

/-- If a read loop fails, the bytes that the library has moved by then. A user copy comes behind the
library call that moved its bytes. -/
def readFails (n : UInt64) : List Chunk → UInt64 → Option UInt64
  | [], _ => none
  | c :: cs, byteread =>
    if byteread < n then
      let t := c.transfer (min (n - byteread) PGSIZE)
      if t.status ≠ 0 then some (byteread + t.moved)
      else if t.moved = 0 then none
      else if c.copied = false then some (byteread + t.moved)
      else readFails n cs (byteread + t.moved)
    else none

/-- The same for a write, where the user copy comes first. -/
def writeFails (n : UInt64) : List Chunk → UInt64 → Option UInt64
  | [], _ => none
  | c :: cs, bytewrite =>
    if bytewrite < n then
      if c.copied = false then some bytewrite
      else
        let t := c.transfer (min (n - bytewrite) PGSIZE)
        if t.status ≠ 0 then some (bytewrite + t.moved)
        else if t.moved = 0 then none
        else writeFails n cs (bytewrite + t.moved)
    else none

/-- The bytes moved when a transfer fails. -/
def Target.fails (loop : UInt64 → List Chunk → UInt64 → Option UInt64) (n : UInt64) : Target → Option UInt64
  | .user chunks => loop n chunks 0
  | .kernel c => if (c.transfer n).status ≠ 0 then some (c.transfer n).moved else none

/-- A read or a write may only fail before it has moved anything, and a `readat` only where it ends at
`f_pos`. -/
def Fits (f : File) : Call → Prop
  | .read n target => ∀ m ∈ target.fails readFails n, m = 0
  | .readat n offset target => ∀ m ∈ target.fails readFails n, offset + m = f.fPos
  | .write n target => ∀ m ∈ target.fails writeFails n, m = 0
  | .lseek _ _ => True

instance (f : File) (c : Call) : Decidable (Fits f c) :=
  match c with
  | .read n target => (target.fails readFails n).decidableForallMem
  | .readat n _ target => (target.fails readFails n).decidableForallMem
  | .write n target => (target.fails writeFails n).decidableForallMem
  | .lseek _ _ => inferInstanceAs (Decidable True)

variable {f f' : File} {e : Ext4File} {n m has : UInt64} {chunks : List Chunk} {target : Target} {c : Call}

section Loops

/-- What a loop from position `pos` returns with `has` bytes behind it: if it fails at `m`, the position has
moved by the bytes moved. -/
def Ends (pos has : UInt64) (r : Bool × UInt64 × Ext4File) : Option UInt64 → Prop
  | none => r.1 = true
  | some m => r.1 = false ∧ r.2.2.fpos + has = pos + m

variable {pos k fsize : UInt64} {r : Bool × UInt64 × Ext4File} {fails : Option UInt64}

theorem Ends.here : Ends pos has (false, has, ⟨pos + k, fsize⟩) (some (has + k)) :=
  ⟨rfl, by dsimp only; rw [UInt64.add_assoc, UInt64.add_comm _ has]⟩

/-- A round that moves `k` bytes, and the loop from there. -/
theorem Ends.rest (h : Ends (pos + k) (has + k) r fails) : Ends pos has r fails := by
  cases fails with
  | none => exact h
  | some m =>
    have hmoved := h.2
    exact ⟨h.1, by grind⟩

theorem readLoop_spec (n : UInt64) (chunks : List Chunk) (has : UInt64) (e : Ext4File) :
    Ends e.fpos has (e.readLoop n chunks has) (readFails n chunks has) := by
  induction chunks generalizing has e with
  | nil => rfl
  | cons c cs ih =>
    rw [readFails, Ext4File.readLoop]
    by_cases hmore : has < n
    · simp only [if_pos hmore]
      by_cases hstatus : (c.transfer (min (n - has) PGSIZE)).status ≠ 0
      · simp only [if_pos hstatus]
        exact .here
      · simp only [if_neg hstatus]
        by_cases hzero : (c.transfer (min (n - has) PGSIZE)).moved = 0
        · simp only [if_pos hzero]
          rfl
        · simp only [if_neg hzero]
          by_cases hcopied : c.copied = false
          · simp only [if_pos hcopied]
            exact .here
          · simp only [if_neg hcopied]
            exact .rest (ih _ _)
    · simp only [if_neg hmore]
      rfl

theorem writeLoop_spec (n : UInt64) (chunks : List Chunk) (has : UInt64) (e : Ext4File) :
    Ends e.fpos has (e.writeLoop n chunks has) (writeFails n chunks has) := by
  induction chunks generalizing has e with
  | nil => rfl
  | cons c cs ih =>
    rw [writeFails, Ext4File.writeLoop]
    by_cases hmore : has < n
    · simp only [if_pos hmore]
      by_cases hcopied : c.copied = false
      · simp only [if_pos hcopied]
        exact ⟨rfl, rfl⟩
      · simp only [if_neg hcopied]
        by_cases hstatus : (c.transfer (min (n - has) PGSIZE)).status ≠ 0
        · simp only [if_pos hstatus]
          exact .here
        · simp only [if_neg hstatus]
          by_cases hzero : (c.transfer (min (n - has) PGSIZE)).moved = 0
          · simp only [if_pos hzero]
            rfl
          · simp only [if_neg hzero]
            exact .rest (ih _ _)
    · simp only [if_neg hmore]
      rfl

theorem readInto_spec (f : File) (n : UInt64) (target : Target) :
    Ends f.ext4.fpos 0 (f.readInto n target) (target.fails readFails n) := by
  cases target with
  | user chunks => exact readLoop_spec n chunks 0 f.ext4
  | kernel c =>
    rw [Target.fails, File.readInto]
    by_cases hstatus : (c.transfer n).status = 0
    · simp [hstatus, Ends]
    · simp [hstatus, Ends]

end Loops

section Calls

theorem coherent_moved_iff (h : Coherent f) (hpos : e.fpos + 0 = f.ext4.fpos + m) : Coherent ⟨f.fPos, e⟩ ↔ m = 0 := by
  rw [UInt64.add_zero] at hpos
  rw [Coherent] at h ⊢
  dsimp only
  rw [hpos, h]
  grind

/-- A read that fails leaves the positions apart exactly if it has moved something. -/
theorem read_keeps_iff (h : Coherent f) (n : UInt64) (target : Target) :
    Keeps f (.read n target) ↔ Fits f (.read n target) := by
  have hspec := readInto_spec f n target
  rw [Keeps, Fits, Call.run, File.vfsExt4Read]
  obtain ⟨ok, byteread, e, hread⟩ : ∃ ok byteread e, f.readInto n target = (ok, byteread, e) := ⟨_, _, _, rfl⟩
  rw [hread] at hspec ⊢
  cases hfails : target.fails readFails n with
  | none =>
    rw [hfails] at hspec
    obtain rfl : ok = true := hspec
    exact iff_of_true ⟨rfl, nofun⟩ nofun
  | some m =>
    rw [hfails] at hspec
    obtain ⟨rfl, hpos⟩ : ok = false ∧ e.fpos + 0 = f.ext4.fpos + m := hspec
    constructor
    · intro hkeeps m' hm'
      rw [← Option.some.inj hm']
      exact (coherent_moved_iff h hpos).mp hkeeps.1
    · exact fun hfits => ⟨(coherent_moved_iff h hpos).mpr (hfits m rfl), nofun⟩

theorem readat_keeps_iff (h : Coherent f) (n offset : UInt64) (target : Target) :
    Keeps f (.readat n offset target) ↔ Fits f (.readat n offset target) := by
  have hspec := readInto_spec { f with ext4 := { f.ext4 with fpos := offset } } n target
  have hseek : f.ext4.fseek offset SEEK_SET = (0, { f.ext4 with fpos := offset }) := rfl
  rw [Keeps, Fits, Call.run, File.vfsExt4Readat, hseek]
  dsimp only
  rw [if_neg (by simp)]
  obtain ⟨ok, byteread, e, hread⟩ : ∃ ok byteread e,
      File.readInto { f with ext4 := { f.ext4 with fpos := offset } } n target = (ok, byteread, e) := ⟨_, _, _, rfl⟩
  rw [hread] at hspec ⊢
  cases hfails : target.fails readFails n with
  | none =>
    rw [hfails] at hspec
    obtain rfl : ok = true := hspec
    exact iff_of_true ⟨rfl, fun _ _ _ _ => ⟨rfl, h⟩⟩ nofun
  | some m =>
    rw [hfails] at hspec
    obtain ⟨rfl, hpos⟩ : ok = false ∧ e.fpos + 0 = offset + m := hspec
    rw [UInt64.add_zero] at hpos
    constructor
    · intro hkeeps m' hm'
      rw [← Option.some.inj hm', ← hpos]
      exact hkeeps.1.symm
    · intro hfits
      have hend : e.fpos = f.fPos := hpos.trans (hfits m rfl)
      exact ⟨hend.symm, fun _ _ _ _ => ⟨rfl, hend.trans h⟩⟩

theorem write_keeps_iff (h : Coherent f) (n : UInt64) (target : Target) :
    Keeps f (.write n target) ↔ Fits f (.write n target) := by
  rw [Keeps, Fits, Call.run]
  cases target with
  | user chunks =>
    have hspec := writeLoop_spec n chunks 0 f.ext4
    rw [Target.fails, File.vfsExt4Write]
    obtain ⟨ok, bytewrite, e, hwrite⟩ : ∃ ok bytewrite e, f.ext4.writeLoop n chunks 0 = (ok, bytewrite, e) :=
      ⟨_, _, _, rfl⟩
    rw [hwrite] at hspec ⊢
    cases hfails : writeFails n chunks 0 with
    | none =>
      rw [hfails] at hspec
      obtain rfl : ok = true := hspec
      exact iff_of_true ⟨rfl, nofun⟩ nofun
    | some m =>
      rw [hfails] at hspec
      obtain ⟨rfl, hpos⟩ : ok = false ∧ e.fpos + 0 = f.ext4.fpos + m := hspec
      constructor
      · intro hkeeps m' hm'
        rw [← Option.some.inj hm']
        exact (coherent_moved_iff h hpos).mp hkeeps.1
      · exact fun hfits => ⟨(coherent_moved_iff h hpos).mpr (hfits m rfl), nofun⟩
  | kernel c =>
    rw [Target.fails, File.vfsExt4Write]
    dsimp only
    by_cases hstatus : (c.transfer n).status ≠ 0
    · rw [if_pos hstatus, if_pos hstatus]
      have hmoved := coherent_moved_iff (e := ⟨f.ext4.fpos + (c.transfer n).moved, (c.transfer n).fsize⟩) h
        (UInt64.add_zero _)
      constructor
      · intro hkeeps m' hm'
        rw [← Option.some.inj hm']
        exact hmoved.mp hkeeps.1
      · exact fun hfits => ⟨hmoved.mpr (hfits _ rfl), nofun⟩
    · rw [if_neg hstatus, if_neg hstatus]
      exact iff_of_true ⟨rfl, nofun⟩ nofun

theorem lseek_keeps (h : Coherent f) (offset : UInt64) (startflag : UInt32) : Keeps f (.lseek offset startflag) := by
  refine ⟨?_, nofun⟩
  rw [Call.run, File.vfsExt4Lseek, Ext4File.fseek]
  by_cases hset : startflag = SEEK_SET
  · rw [if_pos hset]
    rfl
  · rw [if_neg hset]
    by_cases hcur : startflag = SEEK_CUR
    · rw [if_pos hcur]
      rfl
    · rw [if_neg hcur]
      by_cases hend : startflag = SEEK_END
      · rw [if_pos hend]
        rfl
      · -- an unknown origin changes neither of the two
        rw [if_neg hend]
        exact h

theorem keeps_iff (h : Coherent f) (c : Call) : Keeps f c ↔ Fits f c := by
  cases c with
  | read n target => exact read_keeps_iff h n target
  | readat n offset target => exact readat_keeps_iff h n offset target
  | write n target => exact write_keeps_iff h n target
  | lseek offset startflag => exact iff_of_true (lseek_keeps h offset startflag) trivial

end Calls

/-! ## Runs -/

/-- A call that fits. -/
def FittingStep (f f' : File) : Prop := ∃ c, Fits f c ∧ f' = (c.run f).2

/-- In a run of calls that fit on a file that was opened with its positions together, they are together
in every state, whatever the calls returned; from there on a call keeps them, and `readat` leaves them,
exactly if it fits. -/
theorem positions_coherent (hopen : Coherent f) (hrun : Reaches FittingStep f f') :
    Coherent f' ∧ ∀ c, Keeps f' c ↔ Fits f' c := by
  have hcoherent : Coherent f' := by
    refine hrun.invariant hopen fun g g' hg hstep => ?_
    obtain ⟨c, hfits, rfl⟩ := hstep
    exact ((keeps_iff hg c).mpr hfits).1
  exact ⟨hcoherent, keeps_iff hcoherent⟩

/-- A file of 200 bytes that has just been opened. -/
def opened : File := ⟨0, 0, 200⟩

/-- The library reads what is asked for, and the user copy succeeds or not. -/
def chunkOf (copied : Bool) : Chunk := ⟨fun size => ⟨0, size, 0⟩, copied⟩

/-- Read 100 bytes, look at 10 others, then write 20. -/
theorem positions_coherent_read_readat_write :
    Reaches FittingStep opened ⟨120, 120, 0⟩ ∧ Coherent ⟨120, 120, 0⟩ := by
  have hread : FittingStep opened ⟨100, 100, 200⟩ := ⟨.read 100 (.user [chunkOf true]), by decide, by decide⟩
  have hreadat : FittingStep ⟨100, 100, 200⟩ ⟨100, 100, 200⟩ :=
    ⟨.readat 10 150 (.user [chunkOf true]), by decide, by decide⟩
  have hwrite : FittingStep ⟨100, 100, 200⟩ ⟨120, 120, 0⟩ := ⟨.write 20 (.user [chunkOf true]), by decide, by decide⟩
  have hrun : Reaches FittingStep opened ⟨120, 120, 0⟩ := .tail (.tail (.single hread) hreadat) hwrite
  exact ⟨hrun, (positions_coherent (f := opened) rfl hrun).1⟩

/-- A read of 100 bytes to an address that is not mapped returns 0 and leaves the positions apart. -/
theorem failed_copyout_moves_fpos :
    (Call.read 100 (.user [chunkOf false])).run opened = (0, ⟨0, 100, 200⟩) ∧
      ¬Coherent ((Call.read 100 (.user [chunkOf false])).run opened).2 := by
  constructor
  · rfl
  · show ¬Coherent ⟨0, 100, 200⟩
    rw [Coherent]
    decide

end SC7.Position
