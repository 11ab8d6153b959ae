-- SUMMARY: Moves between a pipe and a regular file (`sys_splice`): both loops, with the pages that they stage and ring bytes in.
import SC7.Fs.Consume
import SC7.Fs.CopyRange

/-!
# splice

One of the two descriptors is a pipe, the other one a regular file with a pointer to its offset. The pipe may
change whenever its lock is free, so each turn of a loop says which pipe it finds. What the ext4 library, the
allocator and the user copies answer is given with the call.

Both the staging buffer and the ring of the pipe are one page, whatever the size of the pipe. An access outside
of the page is a failure, and so is a call that does not come back.
-/

namespace SC7.Splice

open Position (File toInt SEEK_SET)
open Positional (FType EBADF ENOMEM EFAULT EINVAL)
open CopyRange (Content Answer StatAnswer Pointer NOFILE ssize)

abbrev PGSIZE : Nat := 4096
abbrev EIO : Int := 5

/-- Why a call has no result: an access outside of a page, or it sleeps for ever or divides by zero. -/
inductive Stop where
  | outside
  | never

/-- A pipe as a turn finds it; its counters and its size are `uint`, and no pipe has size 0. -/
structure Found where
  pipe : Pipe
  counters : pipe.Counters
  size_pos : 0 < pipe.size
  size_lt : pipe.size < 2 ^ 32

/-- What a turn has done with the pipe, and the bytes that it has moved. -/
structure Section where
  before : Pipe
  after : Pipe
  bytes : List UInt8

/-! ## From the file to the pipe -/

/-- A turn finds the pipe once, and once more each time it has slept. -/
structure FillTurn where
  read : Answer
  beyond : UInt64 → UInt8
  found : List Found

/-- The variables of the loop, and the file. -/
structure Fill where
  file : File
  readOffset : UInt64
  copied : UInt64
  remaining : UInt64

/-- How a turn ends. -/
inductive FillTurned where
  | failed (e : Int) (s : Fill)
  | idle (s : Fill)
  | stopped (s : Fill) (sec : Section)
  | next (s : Fill) (sec : Section)

structure FillEnd where
  error : Option Int
  last : Fill
  sections : List Section

/-- The wait for room: an error if nobody reads, or the pipe that has room. -/
def waitRoom : List Found → Except Stop (Except Int Found)
  | [] => .error .never
  | f :: fs =>
    if f.pipe.ring.count (2 ^ 32) ≥ f.pipe.size then
      if f.pipe.readopen = false then .ok (.error (-EPIPE)) else waitRoom fs
    else .ok (.ok f)

/-- The loop that puts up to `m` bytes into the pipe, from `buf i` on. -/
def pushLoop (buf : Nat → UInt8) (i : Nat) (p : Pipe) : Nat → Except Stop (Pipe × Nat)
  | 0 => .ok (p, i)
  | m + 1 =>
    if p.ring.count (2 ^ 32) ≥ p.size then .ok (p, i)
    else if p.nwrite % p.size ≥ PGSIZE then .error .outside
    else pushLoop buf (i + 1) (p.withRing (p.ring.push (2 ^ 32) p.size (buf i))) m

namespace Fill

variable (s : Fill)

/-- The size of the next chunk. -/
def chunk : UInt64 := min s.remaining 512

/-- The offset as it comes to `vfs_ext4_readat`, which takes an `int`. -/
def intOffset : UInt64 := UInt64.ofInt (toInt s.readOffset)

/-- The read of a turn. -/
def read (a : Answer) : Int × File := s.file.vfsExt4Readat s.chunk s.intOffset (.kernel ⟨a.transfer, true⟩)

def advance (i : Nat) : Fill := ⟨s.file, s.readOffset + .ofNat i, s.copied + .ofNat i, s.remaining - .ofNat i⟩

end Fill

/-- The byte that the library delivers for a position. -/
def deliver (c : Content) (beyond : UInt64 → UInt8) (p : UInt64) : UInt8 := if p.toNat < c.size then c.byte p else beyond p

/-- A turn of the loop. -/
def fillTurn (c : Content) (t : FillTurn) (s : Fill) : Except Stop FillTurned :=
  let read := s.read t.read
  let buf := fun k : Nat => deliver c t.beyond (s.intOffset + .ofNat k)
  let s := { s with file := read.2 }
  if read.1 < 0 then .ok (.failed read.1 s)
  else if read.1 = 0 then .ok (.idle s)
  else do
    match ← waitRoom t.found with
    | .error e => return .failed e s
    | .ok f =>
      let (p, i) ← pushLoop buf 0 f.pipe read.1.toNat
      let sec := ⟨f.pipe, p, (List.range i).map buf⟩
      return if i < read.1 then .stopped (s.advance i) sec else .next (s.advance i) sec

/-- The loop. Behind the last turn of the list the library delivers nothing. -/
def fillLoop (c : Content) : List FillTurn → Fill → Except Stop FillEnd
  | [], s => .ok ⟨none, if s.remaining = 0 then s else { s with file := (s.read .nothing).2 }, []⟩
  | t :: ts, s =>
    if s.remaining = 0 then .ok ⟨none, s, []⟩
    else
      match fillTurn c t s with
      | .error stop => .error stop
      | .ok (.failed e s) => .ok ⟨some e, s, []⟩
      | .ok (.idle s) => .ok ⟨none, s, []⟩
      | .ok (.stopped s sec) => .ok ⟨none, s, [sec]⟩
      | .ok (.next s sec) => (fillLoop c ts s).map fun e => { e with sections := sec :: e.sections }

/-! ## From the pipe to the file -/

structure DrainTurn where
  found : Found
  write : Answer

/-- The variables of the loop, and the file. -/
structure Drain where
  file : File
  content : Content
  writeOffset : UInt64
  copied : UInt64
  remaining : UInt64

/-- How a turn ends; an empty pipe ends the call. -/
inductive DrainTurned where
  | empty
  | idle
  | failed (e : Int) (s : Drain) (sec : Section)
  | next (s : Drain) (sec : Section)

/-- How the loop ends: with an error, at an empty pipe, or in front of the update of the offset. -/
inductive DrainExit where
  | failed (e : Int)
  | empty
  | update

structure DrainEnd where
  exit : DrainExit
  last : Drain
  sections : List Section

/-- The loop that takes up to `m` bytes out of the pipe, to `buf[i]` and behind it. -/
def popLoop (i : Nat) (p : Pipe) : Nat → Except Stop (Pipe × List UInt8)
  | 0 => .ok (p, [])
  | m + 1 =>
    if p.nread = p.nwrite then .ok (p, [])
    else if i ≥ PGSIZE ∨ p.nread % p.size ≥ PGSIZE then .error .outside
    else (popLoop (i + 1) (p.withRing (p.ring.pop (2 ^ 32))) m).map fun r => (r.1, p.data (p.nread % p.size) :: r.2)

/-- The number of bytes that a turn asks for, as an `int`. -/
def Drain.chunk (s : Drain) (chunkSize : UInt64) : Int := toInt (min s.remaining chunkSize)

/-- The bytes in the buffer. -/
def staged (bytes : List UInt8) (k : UInt64) : UInt8 := bytes.getD k.toNat 0

def Drain.advance (s : Drain) (file : File) (content : Content) (i : UInt64) : Drain :=
  ⟨file, content, s.writeOffset + i, s.copied + i, s.remaining - i⟩

/-- The write of a turn that has taken some bytes. -/
def drainWrite (t : DrainTurn) (s : Drain) (sec : Section) : DrainTurned :=
  let i : UInt64 := .ofNat sec.bytes.length
  let originalPos := s.file.fPos
  let seek := s.file.vfsExt4Lseek s.writeOffset SEEK_SET
  if seek.1 < 0 then .failed (- EIO) { s with file := seek.2 } sec
  else
    let write := seek.2.vfsExt4Write i (.kernel ⟨t.write.transfer, true⟩)
    let content := s.content.write seek.2.ext4.fpos (t.write.transfer i).moved (staged sec.bytes)
    let file := (write.2.vfsExt4Lseek originalPos SEEK_SET).2
    if write.1 < 0 then .failed write.1 { s with file, content } sec else .next (s.advance file content i) sec

/-- A turn of the loop. -/
def drainTurn (chunkSize : UInt64) (t : DrainTurn) (s : Drain) : Except Stop DrainTurned :=
  let p := t.found.pipe
  if p.nread = p.nwrite then .ok .empty
  else do
    let (p', bytes) ← popLoop 0 p (s.chunk chunkSize).toNat
    return if bytes = [] then .idle else drainWrite t s ⟨p, p', bytes⟩

/-- The loop. Behind the last turn of the list the pipe is empty. -/
def drainLoop (chunkSize : UInt64) : List DrainTurn → Drain → Except Stop DrainEnd
  | [], s => .ok ⟨if s.remaining = 0 then .update else .empty, s, []⟩
  | t :: ts, s =>
    if s.remaining = 0 then .ok ⟨.update, s, []⟩
    else
      match drainTurn chunkSize t s with
      | .error stop => .error stop
      | .ok .empty => .ok ⟨.empty, s, []⟩
      | .ok .idle => .ok ⟨.update, s, []⟩
      | .ok (.failed e s sec) => .ok ⟨.failed e, s, [sec]⟩
      | .ok (.next s sec) => (drainLoop chunkSize ts s).map fun e => { e with sections := sec :: e.sections }

/-! ## The call -/

structure Call where
  fdIn : Int
  offIn : Option Pointer
  fdOut : Int
  offOut : Option Pointer
  len : UInt64
  flags : UInt32

/-- What happens below a call; `size` is the one that it reads from the pipe in front of the second loop. -/
structure Env where
  page : Bool
  stat : StatAnswer
  fill : List FillTurn
  size : UInt32
  drain : List DrainTurn

/-- The regular file. -/
structure State where
  file : File
  content : Content

/-- What a call returns, the file and the values of the pointers behind it, and what it has done with the pipe. -/
structure Result where
  value : Int
  state : State
  offIn : Option UInt64
  offOut : Option UInt64
  sections : List Section

/-- A result that leaves the values of the pointers. -/
def Call.leave (c : Call) (value : Int) (state : State) (sections : List Section) : Result :=
  ⟨value, state, c.offIn.map (·.value), c.offOut.map (·.value), sections⟩

/-- The type of an open file. -/
def typeOf (ofile : Nat → Option FType) (fd : Int) : Option FType :=
  if fd < 0 ∨ fd ≥ NOFILE then none else ofile fd.toNat

/-- The error about an offset. -/
def offsetError (p : Option Pointer) : Option Int :=
  match p with
  | none => none
  | some q => if q.copiedIn = false then some (-EFAULT) else if 2 ^ 63 ≤ q.value then some (-1) else none

/-- The errors about the two types. -/
def typeError (c : Call) (i o : FType) : Option Int :=
  if (i ≠ .reg ∧ i ≠ .pipe) ∨ (o ≠ .reg ∧ o ≠ .pipe) then some (-EINVAL)
  else if (if i = .pipe then 1 else 0) + (if o = .pipe then 1 else 0) ≠ 1 then some (-EINVAL)
  else if i = .pipe ∧ c.offIn.isSome then some (-EINVAL)
  else if o = .pipe ∧ c.offOut.isSome then some (-EINVAL)
  else if i = .reg ∧ c.offIn.isNone then some (-EINVAL)
  else if o = .reg ∧ c.offOut.isNone then some (-EINVAL)
  else none

/-- The errors in front of the allocation. -/
def refused (c : Call) (ofile : Nat → Option FType) : Option Int :=
  if c.flags ≠ 0 then some (-EINVAL)
  else
    match typeOf ofile c.fdIn, typeOf ofile c.fdOut with
    | some i, some o =>
      if (typeError c i o).isSome then typeError c i o
      else if c.offIn.any (!·.accessOk) then some (-EFAULT)
      else if c.offOut.any (!·.accessOk) then some (-EFAULT)
      else if (offsetError c.offIn).isSome then offsetError c.offIn
      else offsetError c.offOut
    | _, _ => some (-EBADF)

/-- The number of bytes to copy from a file. -/
def actualLen (stSize readOffset len : UInt64) : UInt64 :=
  if readOffset ≥ stSize then 0 else if readOffset + len > stSize then stSize - readOffset else len

/-- From the file at `q` to the pipe. -/
def fromFile (c : Call) (env : Env) (s : State) (q : Pointer) : Except Stop Result :=
  match env.stat.fstat s.content.size with
  | none => .error .never
  | some st =>
    if st.1 < 0 then .ok (c.leave (- EIO) s [])
    else if actualLen st.2 q.value c.len = 0 then .ok (c.leave 0 s [])
    else do
      let e ← fillLoop s.content env.fill ⟨s.file, q.value, 0, actualLen st.2 q.value c.len⟩
      let s := { s with file := e.last.file }
      match e.error with
      | some value => return c.leave value s e.sections
      | none =>
        if q.copiedOut then
          return ⟨ssize e.last.copied, s, some e.last.readOffset, c.offOut.map (·.value), e.sections⟩
        else return c.leave (-EFAULT) s e.sections

/-- From the pipe to the file at `q`. -/
def fromPipe (c : Call) (env : Env) (s : State) (q : Pointer) : Except Stop Result := do
  let e ← drainLoop env.size.toUInt64 env.drain ⟨s.file, s.content, q.value, 0, c.len⟩
  let s : State := ⟨e.last.file, e.last.content⟩
  match e.exit with
  | .failed value => return c.leave value s e.sections
  | .empty => return c.leave (ssize e.last.copied) s e.sections
  | .update =>
    if q.copiedOut then
      return ⟨ssize e.last.copied, s, c.offIn.map (·.value), some e.last.writeOffset, e.sections⟩
    else return c.leave (-EFAULT) s e.sections

def sysSplice (c : Call) (env : Env) (ofile : Nat → Option FType) (s : State) : Except Stop Result :=
  match refused c ofile with
  | some e => .ok (c.leave e s [])
  | none =>
    if env.page = false then .ok (c.leave (-ENOMEM) s [])
    else
      match typeOf ofile c.fdIn, c.offIn, c.offOut with
      | some .reg, some q, _ => fromFile c env s q
      | some .pipe, _, some q => fromPipe c env s q
      -- the checks leave no other case
      | _, _, _ => .ok (c.leave 0 s [])

end SC7.Splice
