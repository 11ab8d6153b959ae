-- SUMMARY: Copies between two regular files (`sys_copy_file_range`): the call with its loop over the chunks, the zero fill, and the positions and pointers that it updates.
import SC7.Base.Window
import SC7.Fs.Positional
import SC7.Fs.Stat

/-!
# copy_file_range

The descriptors lead to open files, two descriptors perhaps to the same one, and open files to inodes, two open
files perhaps to the same one. What the ext4 library, the allocator and the user copies answer is given with
the call, turn by turn of its loop. A call that does not return, or divides by zero, is `none`.

The two pointers are the same or do not overlap.
-/

namespace SC7.CopyRange

open Function (update)
open Position (File Transfer toInt PGSIZE SEEK_SET SEEK_CUR)
open Positional (FType EBADF ENOMEM EFAULT EINVAL)

abbrev NOFILE : Int := 256
abbrev EIO : Int := 5

/-- The bytes of a file; behind its end they are zero. -/
structure Content where
  size : Nat
  byte : UInt64 → UInt8
  zero_behind : ∀ p, size ≤ p.toNat → byte p = 0

/-- The library has written `w` bytes from `p` on. -/
def Content.write (c : Content) (p w : UInt64) (data : UInt64 → UInt8) : Content where
  size := if w = 0 then c.size else max c.size (p.toNat + w.toNat)
  byte := overlay c.byte p w data
  zero_behind q hq := by
    have hout : ¬q - p < w := by
      intro hin
      rw [UInt64.lt_iff_toNat_lt, UInt64.toNat_sub] at hin
      have := q.toNat_lt
      by_cases hw : w = 0
      · rw [hw] at hin
        simp at hin
      · rw [if_neg hw] at hq
        omega
    rw [overlay_of_not_lt hout]
    apply c.zero_behind
    split at hq <;> omega

/-- What the library answers to a transfer. It does not move more than it is asked for, and its errors are
positive. -/
structure Answer where
  transfer : UInt64 → Transfer
  bounded : ∀ size, (transfer size).moved ≤ size
  positive : ∀ size, 0 ≤ (transfer size).status

/-- What the library finds for `vfs_ext4_fstat` on a file of some size, and what is in the structure before. -/
structure StatAnswer where
  lookup : Nat → Stat.Lookup
  sized : ∀ size number inode, (lookup size).file = .ok (number, inode) → inode.sizeLo = UInt32.ofNat size
  st : Stat.Kstat

/-- The return value of `vfs_ext4_fstat`, and `st_size`. -/
def StatAnswer.fstat (a : StatAnswer) (size : Nat) : Option (Int × UInt64) :=
  (Stat.vfsExt4Fstat (a.lookup size) a.st).map fun r => (r.1, r.2.size)

/-- What happens in a turn of the loop. The library delivers the bytes of the file, and `beyond` for positions
that are not in it. -/
structure Turn where
  read : Answer
  beyond : UInt64 → UInt8
  stat : StatAnswer
  zeroPage : Bool
  zeros : List Answer
  write : Answer

/-- An `off_t` in user memory, and which of the accesses to it succeed. -/
structure Pointer where
  value : UInt64
  accessOk : Bool
  copiedIn : Bool
  copiedOut : Bool

structure Call where
  fdIn : Int
  offIn : Option Pointer
  fdOut : Int
  offOut : Option Pointer
  len : UInt64
  flags : UInt32

/-- What happens below a call; `garbage` is what `saved_out_pos` holds where it is not initialised. -/
structure Env where
  garbage : Int
  page : Bool
  stat : StatAnswer
  turns : List Turn

/-- An open file, its type and its inode. -/
structure Open where
  id : Nat
  type : FType
  ino : Nat

/-- The positions of the open files, and the bytes of the inodes. -/
structure State where
  file : Nat → File
  content : Nat → Content

namespace State

def seek (s : State) (o : Open) (offset : UInt64) (startflag : UInt32) : Int × State :=
  let r := (s.file o.id).vfsExt4Lseek offset startflag
  (r.1, { s with file := update s.file o.id r.2 })

def readat (s : State) (o : Open) (n offset : UInt64) (a : Answer) : Int × State :=
  let r := (s.file o.id).vfsExt4Readat n offset (.kernel ⟨a.transfer, true⟩)
  (r.1, { s with file := update s.file o.id r.2 })

/-- The byte that the library delivers for a position. -/
def deliver (s : State) (o : Open) (beyond : UInt64 → UInt8) (p : UInt64) : UInt8 :=
  if p.toNat < (s.content o.ino).size then (s.content o.ino).byte p else beyond p

def write (s : State) (o : Open) (n : UInt64) (data : UInt64 → UInt8) (a : Answer) : Int × State :=
  let r := (s.file o.id).vfsExt4Write n (.kernel ⟨a.transfer, true⟩)
  (r.1,
    { file := update s.file o.id r.2
      content := update s.content o.ino
        ((s.content o.ino).write (s.file o.id).ext4.fpos (a.transfer n).moved data) })

/-- `f->f_pos` is set. -/
def setPos (s : State) (o : Open) (fPos : UInt64) : State :=
  { s with file := update s.file o.id { s.file o.id with fPos } }

end State

/-! ## The loop -/

/-- The variables of the loop. -/
structure Progress where
  state : State
  readOffset : UInt64
  writeOffset : UInt64
  copied : UInt64
  remaining : UInt64

/-- How a turn of the loop ends. -/
inductive Turned where
  | failed (e : Int) (s : State)
  | stopped (p : Progress)
  | next (p : Progress)

/-- The loop that writes zeros. Behind the last answer of the list the library writes nothing, for ever. -/
def zeroLoop (o : Open) : List Answer → UInt64 → State → Option (Int × State)
  | [], remainingZero, s => if remainingZero = 0 then some (0, s) else none
  | a :: as, remainingZero, s =>
    if remainingZero = 0 then some (0, s)
    else
      let zero := s.write o (min remainingZero PGSIZE) (fun _ => 0) a
      if zero.1 < 0 then some zero else zeroLoop o as (remainingZero - UInt64.ofInt zero.1) zero.2

/-- The zero fill up to `writeOffset`. -/
def zeroFill (o : Open) (t : Turn) (stSize writeOffset originalPos : UInt64) (s : State) : Option (Int × State) :=
  if writeOffset > stSize then
    let r := s.seek o stSize SEEK_SET
    if r.1 < 0 then some (- EIO, r.2)
    else if t.zeroPage = false then some (-ENOMEM, r.2)
    else do
      let zero ← zeroLoop o t.zeros (writeOffset - stSize) r.2
      if zero.1 < 0 then return (zero.1, (zero.2.seek o originalPos SEEK_SET).2)
      return (0, zero.2)
  else some (0, s)

/-- The size of the next chunk. -/
def Progress.chunk (p : Progress) : UInt64 := min p.remaining 4096

/-- The offset as it comes to `vfs_ext4_readat`, which takes an `int`. -/
def Progress.intOffset (p : Progress) : UInt64 := UInt64.ofInt (toInt p.readOffset)

/-- The read of a turn. -/
def Progress.read (i : Open) (p : Progress) (a : Answer) : Int × State := p.state.readat i p.chunk p.intOffset a

/-- The variables behind a turn that has read `r` and written `w` bytes. -/
def Progress.advance (p : Progress) (s : State) (r w : UInt64) : Progress :=
  ⟨s, p.readOffset + r, p.writeOffset + w, p.copied + r, p.remaining - r⟩

/-- A turn of the loop; `implicit` is `!off_out`. -/
def copyChunk (i o : Open) (implicit : Bool) (t : Turn) (p : Progress) : Option Turned :=
  let read := p.read i t.read
  let buf := fun k => p.state.deliver i t.beyond (p.intOffset + k)
  if read.1 < 0 then some (.failed read.1 read.2)
  else if read.1 = 0 then some (.stopped { p with state := read.2 })
  else do
    let originalPos := (read.2.file o.id).fPos
    let st ← t.stat.fstat (read.2.content o.ino).size
    if st.1 < 0 then return .failed (- EIO) read.2
    let zero ← zeroFill o t st.2 p.writeOffset originalPos read.2
    if zero.1 < 0 then return .failed zero.1 zero.2
    let seek := zero.2.seek o p.writeOffset SEEK_SET
    if seek.1 < 0 then return .failed (- EIO) seek.2
    let write := seek.2.write o (UInt64.ofInt read.1) buf t.write
    if write.1 < 0 then return .failed write.1 (write.2.seek o originalPos SEEK_SET).2
    let s := if implicit then write.2.setPos o (p.writeOffset + UInt64.ofInt write.1) else write.2
    let p' := p.advance s (UInt64.ofInt read.1) (UInt64.ofInt write.1)
    return if read.1 < p.chunk.toNat then .stopped p' else .next p'

/-- The library delivers nothing. -/
def Answer.nothing : Answer := ⟨fun _ => ⟨0, 0, 0⟩, fun _ => UInt64.le_iff_toNat_le.mpr (Nat.zero_le _), fun _ => Int.le_refl 0⟩

/-- The loop, with a negative value if it fails. Behind the last turn of the list the library delivers nothing. -/
def copyLoop (i o : Open) (implicit : Bool) : List Turn → Progress → Option (Int × Progress)
  | [], p => some (0, if p.remaining = 0 then p else { p with state := (p.read i .nothing).2 })
  | t :: ts, p =>
    if p.remaining = 0 then some (0, p)
    else
      match copyChunk i o implicit t p with
      | none => none
      | some (.failed e s) => some (e, { p with state := s })
      | some (.stopped p) => some (0, p)
      | some (.next p) => copyLoop i o implicit ts p

/-! ## The call -/

/-- What a call returns, the state behind it and the values that the pointers lead to then. -/
structure Result where
  value : Int
  state : State
  offIn : Option UInt64
  offOut : Option UInt64

/-- A result that leaves the values of the pointers. -/
def Call.leave (c : Call) (value : Int) (state : State) : Result :=
  ⟨value, state, c.offIn.map (·.value), c.offOut.map (·.value)⟩

/-- `ssize_t`. -/
def ssize (x : UInt64) : Int := Int.bmod x.toNat (2 ^ 64)

/-- The position of a file, if its offset is given by a pointer. -/
def saved (p : Option Pointer) (o : Open) (s : State) : Int × State := if p.isSome then s.seek o 0 SEEK_CUR else (0, s)

/-- The offset at which the copy starts in a file. -/
def startOffset (p : Option Pointer) (o : Open) (s : State) : UInt64 :=
  match p with
  | some q => q.value
  | none => (s.file o.id).fPos

/-- The number of bytes to copy. -/
def actualLen (stSize readOffset len : UInt64) : UInt64 :=
  if readOffset > stSize then 0 else if readOffset + len > stSize then stSize - readOffset else len

/-- The variables in front of the loop. -/
def Call.start (c : Call) (i o : Open) (stSize : UInt64) (s : State) : Progress :=
  ⟨s, startOffset c.offIn i s, startOffset c.offOut o s, 0, actualLen stSize (startOffset c.offIn i s) c.len⟩

/-- The updates behind the loop. -/
def Call.finish (c : Call) (i o : Open) (p : Progress) : Result :=
  if 0 < ssize p.copied then
    let s := (p.state.seek i p.readOffset SEEK_SET).2
    if c.offIn.any (!·.copiedOut) then c.leave (-EFAULT) s
    else
      let s := (s.seek o p.writeOffset SEEK_SET).2
      if c.offOut.any (!·.copiedOut) then { c.leave (-EFAULT) s with offIn := c.offIn.map fun _ => p.readOffset }
      else ⟨ssize p.copied, s, c.offIn.map fun _ => p.readOffset, c.offOut.map fun _ => p.writeOffset⟩
  else c.leave (ssize p.copied) p.state

/-- The end of the call: a position that has been saved is set again. -/
def restore (p : Option Pointer) (o : Open) (savedPos : Int) (s : State) : State :=
  if p.isSome ∧ 0 ≤ savedPos then (s.seek o (UInt64.ofInt savedPos) SEEK_SET).2 else s

def Call.restore (c : Call) (i o : Open) (savedIn savedOut : Int) (s : State) : State :=
  CopyRange.restore c.offOut o savedOut (CopyRange.restore c.offIn i savedIn s)

/-- An offset that is not given, or can be read. -/
def readable (p : Option Pointer) : Bool := p.all fun q => q.accessOk && q.copiedIn

/-- The call on two open regular files. -/
def copyFileRange (c : Call) (env : Env) (i o : Open) (s : State) : Option Result :=
  let savedIn := saved c.offIn i s
  if savedIn.1 < 0 then some (c.leave savedIn.1 (c.restore i o savedIn.1 env.garbage savedIn.2))
  else
    let savedOut := saved c.offOut o savedIn.2
    let s := savedOut.2
    let out := c.restore i o savedIn.1 savedOut.1
    if savedOut.1 < 0 then some (c.leave savedOut.1 (out s))
    else if env.page = false then some (c.leave (-ENOMEM) s)
    else if (readable c.offIn && readable c.offOut) = false then some (c.leave (-EFAULT) (out s))
    else do
      let st ← env.stat.fstat (s.content i.ino).size
      if st.1 < 0 then return c.leave (- EIO) (out s)
      let loop ← copyLoop i o c.offOut.isNone env.turns (c.start i o st.2 s)
      let r := if loop.1 < 0 then c.leave loop.1 loop.2.state else c.finish i o loop.2
      return { r with state := out r.state }

/-- The file of a descriptor. -/
def getFile (ofile : Nat → Option Open) (fd : Int) : Option Open :=
  if fd < 0 ∨ fd ≥ NOFILE then none else ofile fd.toNat

def sysCopyFileRange (c : Call) (env : Env) (ofile : Nat → Option Open) (s : State) : Option Result :=
  if c.flags ≠ 0 then some (c.leave (-EINVAL) s)
  else
    match getFile ofile c.fdIn, getFile ofile c.fdOut with
    | some i, some o =>
      if i.type ≠ .reg ∨ o.type ≠ .reg then some (c.leave (-EINVAL) s) else copyFileRange c env i o s
    | _, _ => some (c.leave (-EBADF) s)

end SC7.CopyRange
