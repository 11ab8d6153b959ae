-- SUMMARY: Reads and writes at a position (`sys_pread`, `sys_preadv`, `sys_pwrite64`, `sys_pwritev`): exactly when they leave the file position alone and report the bytes that they have moved.
import SC7.Fs.Position
import Mathlib.Data.UInt

/-!
# Positional transfers

The four calls seek to the offset, read or write there, and seek back. A call is made on an open file; what
the ext4 library, the user copies, the drivers and the checks of user memory answer is given with it. Each
call also returns which bytes it has moved, piece by piece: those that have come to the user, or to the file.

Only files that `vfs_ext4_openat` has opened have an `ext4_file`. A seek in another file follows a pointer
that is not there, which is a failure (`none`).
-/

namespace SC7.Positional

open Position (File Ext4File Chunk Target Coherent toInt SEEK_SET)

abbrev ENOENT : Int := 2
abbrev EBADF : Int := 9
abbrev ENOMEM : Int := 12
abbrev EFAULT : Int := 14
abbrev EISDIR : Int := 21
abbrev EINVAL : Int := 22
abbrev EFBIG : Int := 27
abbrev ESPIPE : Int := 29

abbrev O_WRONLY : UInt32 := 0o1
abbrev O_RDWR : UInt32 := 0o2
abbrev O_APPEND : UInt32 := 0o2000
abbrev O_PATH : UInt32 := 0o10000000

abbrev MAXPATH : UInt64 := 1024
abbrev IOVMAX : UInt64 := 64

/-- `f_type` of an open file. -/
inductive FType where
  | pipe
  | fifo
  | reg
  | device
  | socket
  | busybox
  | procfs
  deriving DecidableEq

/-- `vfs_ext4_openat` has set `f_vnode`. -/
def FType.HasVnode (t : FType) : Prop := t = .reg ∨ t = .device ∨ t = .fifo

instance (t : FType) : Decidable t.HasVnode := inferInstanceAs (Decidable (_ ∨ _))

/-- An open file, and whether its path is a directory. -/
structure OpenFile where
  type : FType
  flags : UInt32
  isDir : Bool
  file : File

/-- Bytes that were moved, and from or to where in the file; `none` if they do not come from a file. -/
structure Piece where
  pos : Option UInt64
  bytes : Nat
  deriving DecidableEq

def Piece.empty : Piece := ⟨none, 0⟩

/-- What a call returns, the file behind it, and what it has moved. -/
structure Result where
  value : Int
  file : File
  pieces : List Piece

/-- A path that is a symbolic link: how its text is read, and the file it leads to if that can be opened. -/
structure Link where
  text : Chunk
  target : Option (Ext4File × List Chunk)

/-- What happens below a read. -/
structure ReadEnv where
  chunks : List Chunk
  link : Option Link
  driver : Int

/-- A turn of a write loop: the library does not move more than it is asked for. -/
structure Turn where
  chunk : Chunk
  bounded : ∀ size, (chunk.transfer size).moved ≤ size

/-- What happens below a write: the turns of each `vfs_ext4_write`. -/
abbrev WriteEnv := List (List Turn)

/-- `struct iovec`. -/
structure Iovec where
  base : UInt64
  len : UInt64

/-! ## Transfers (`file.c`) -/

/-- A read of a regular file. A symbolic link is read first, and what it leads to is opened for each read. -/
def readReg (f : File) (n : Int) (env : ReadEnv) : Int × File × Piece :=
  match env.link with
  | none =>
    let (r, f') := f.vfsExt4Read (UInt64.ofInt n) (.user env.chunks)
    (r, f', ⟨some f.ext4.fpos, (f.ext4.readLoop (UInt64.ofInt n) env.chunks 0).2.1.toNat⟩)
  | some link =>
    let (readLen, f) := f.vfsExt4Read (MAXPATH - 1) (.kernel link.text)
    if readLen < 0 then (readLen, f, .empty)
    else
      match link.target with
      | none => (-ENOENT, f, .empty)
      | some (e, chunks) =>
        let (r, _) := (⟨f.fPos, e⟩ : File).vfsExt4Read (UInt64.ofInt n) (.user chunks)
        let f := if 0 < r then { f with fPos := f.fPos + UInt64.ofInt r } else f
        (r, f, ⟨some e.fpos, (e.readLoop (UInt64.ofInt n) chunks 0).2.1.toNat⟩)

/-- `fileread`. The types without a case are not read: the seek in front of the read has failed. -/
def fileread (o : OpenFile) (f : File) (n : Int) (env : ReadEnv) : Option (Int × File × Piece) :=
  if o.flags &&& O_WRONLY ≠ 0 then some (-1, f, .empty)
  else
    match o.type with
    | .pipe | .fifo | .device => some (env.driver, f, ⟨none, env.driver.toNat⟩)
    | .reg => if o.isDir then some (-EISDIR, f, .empty) else some (readReg f n env)
    | .socket | .busybox | .procfs => none

/-- `((MAXOPBLOCKS - 1 - 1 - 2) / 2) * BSIZE`. -/
abbrev maxWrite : Int := (1000 - 1 - 1 - 2) / 2 * 4096

/-- A `vfs_ext4_write` of a piece. -/
def writePiece (f : File) (n1 : Int) (turns : List Turn) : Int × File :=
  f.vfsExt4Write (UInt64.ofInt n1) (.user (turns.map (·.chunk)))

/-- The loop of `filewrite` for a regular file; `i` bytes are written. -/
def filewriteLoop (n : Int) : WriteEnv → Int → File → Int × File
  | [], i, f => if i < n then (i, (writePiece f (min (n - i) maxWrite) []).2) else (i, f)
  | turns :: rest, i, f =>
    if i < n then
      let n1 := min (n - i) maxWrite
      let (r, f) := writePiece f n1 turns
      if r ≠ n1 then (i, f) else filewriteLoop n rest (i + r) f
    else (i, f)

/-- The file at the position where `filewrite` starts. -/
def startWrite (flags : UInt32) (f : File) : File :=
  if flags &&& O_APPEND ≠ 0 then { f with ext4 := { f.ext4 with fpos := f.ext4.fsize } } else f

/-- `filewrite` for a regular file that is writable; `limit` is that of `RLIMIT_FSIZE`. -/
def filewrite (flags : UInt32) (limit : UInt64) (f : File) (n : Int) (env : WriteEnv) : Int × File × Piece :=
  let f := startWrite flags f
  if f.ext4.fpos + UInt64.ofInt n > limit then (-EFBIG, f, .empty)
  else
    let (i, f') := filewriteLoop n env 0 f
    (if i = n then n else -EINVAL, f', ⟨some f.ext4.fpos, (f'.ext4.fpos - f.ext4.fpos).toNat⟩)

/-! ## Reads at a position (`syscall.c`) -/

/-- `vfs_ext4_lseek` of an open file. -/
def lseek (o : OpenFile) (f : File) (offset : UInt64) : Option (Int × File) :=
  if o.type.HasVnode then some (f.vfsExt4Lseek offset SEEK_SET) else none

/-- A call that returns the value of a check, or goes on. -/
def checked {α : Type} (check : Option Int) (refuse : Int → α) (go : α) : α :=
  match check with
  | some e => refuse e
  | none => go

/-- The errors of `sys_pread` in front of the seek. -/
def preadChecks (o : OpenFile) (offset : UInt64) : Option Int :=
  if toInt offset < 0 then some (-EINVAL)
  else if o.type = .pipe then some (-ESPIPE)
  else if o.isDir then some (-EISDIR)
  else none

def sysPread (o : OpenFile) (count offset : UInt64) (env : ReadEnv) : Option Result :=
  checked (preadChecks o offset) (fun e => some ⟨e, o.file, []⟩) do
    let origPos := o.file.fPos
    let (ret, f) ← lseek o o.file offset
    if ret < 0 then return ⟨ret, f, []⟩
    let (ret, f, p) ← fileread o f (toInt count) env
    if ret < 0 then return ⟨ret, f, [p]⟩
    let (_, f) ← lseek o f origPos
    return ⟨ret, f, [p]⟩

/-- The arguments of `sys_preadv` and `sys_pwritev` in user memory, and what is answered about them: whether
the kernel has memory for them, whether they can be copied, and which buffers are accessible. -/
structure UserArray where
  alloc : Bool
  copied : Bool
  maxva : UInt64
  iov : Nat → Iovec
  accessOk : UInt64 → UInt64 → Bool

/-- The elements of the array. -/
def UserArray.elements {α : Type} (v : UserArray) (below : Nat → α) (n : Nat) : List (Iovec × α) :=
  (List.range n).map fun i => (v.iov i, below i)

/-- The errors of `sys_preadv` before it looks at the elements. -/
def preadvChecks (o : OpenFile) (v : UserArray) (iovcnt : Int) (offset : UInt64) : Option Int :=
  if toInt offset < 0 then some (-EINVAL)
  else if iovcnt < 0 then some (-EINVAL)
  else if o.type = .pipe ∨ o.type = .fifo then some (-ESPIPE)
  else if o.isDir then some (-EISDIR)
  -- `O_RDONLY` is 0
  else if o.flags &&& O_RDWR = 0 then some (-EBADF)
  else if v.alloc = false then some (-ENOMEM)
  else if v.copied = false then some (-EFAULT)
  else none

/-- The error of an element. -/
def preadvElement (v : UserArray) (iov : Iovec) : Option Int :=
  if toInt iov.len < 0 then some (-EINVAL)
  else if iov.base ≥ v.maxva then some (-EFAULT)
  else if v.accessOk iov.base iov.len = false then some (-EFAULT)
  else none

/-- The loop over the elements: the value to return, the file and what has been moved. -/
def preadvLoop (o : OpenFile) : List (Iovec × ReadEnv) → UInt64 → Int → File → Option (Int × File × List Piece)
  | [], _, readbytes, f => some (readbytes, f, [])
  | (iov, env) :: rest, fileSize, readbytes, f =>
    if fileSize = 0 then some (readbytes, f, [])
    else do
      let (r, f, p) ← fileread o f (toInt (min iov.len fileSize)) env
      if r < 0 then return (r, f, [p])
      let (value, f, ps) ← preadvLoop o rest (fileSize - UInt64.ofInt r) (Int.bmod (readbytes + r) (2 ^ 32)) f
      return (value, f, p :: ps)

/-- `sys_preadv`; `fileSize` is what `vfs_ext4_get_filesize` leaves. -/
def sysPreadv (o : OpenFile) (v : UserArray) (iovcnt : Int) (offset fileSize : UInt64) (below : Nat → ReadEnv) :
    Option Result :=
  checked (preadvChecks o v iovcnt offset) (fun e => some ⟨e, o.file, []⟩) <|
    -- `int needbytes = sizeof(struct iovec) * iovcnt`
    if Int.bmod (16 * iovcnt) (2 ^ 32) ≠ 16 * iovcnt then none
    else
      let elements := v.elements below iovcnt.toNat
      checked (elements.findSome? fun x => preadvElement v x.1) (fun e => some ⟨e, o.file, []⟩) do
        let origPos := o.file.fPos
        let (ret, f) ← lseek o o.file offset
        if ret < 0 then return ⟨ret, f, []⟩
        let (ret, f, ps) ← preadvLoop o elements fileSize 0 f
        let (_, f) ← lseek o f origPos
        return ⟨ret, f, ps⟩

/-! ## Writes at a position (`syscall.c`) -/

/-- `sys_lseek` of a regular file from its start, with the return value as an `int`. -/
def sysLseek (f : File) (offset : UInt64) : Int × File :=
  let ret := f.vfsExt4Lseek offset SEEK_SET
  (if ret.1 < 0 then -ESPIPE else ret.1, ret.2)

/-- The errors of both calls about the file and the offset. -/
def writeChecks (o : OpenFile) (offset : UInt64) : Option Int :=
  if o.flags &&& O_PATH ≠ 0 then some (-EBADF)
  else if o.flags &&& (O_WRONLY ||| O_RDWR) = 0 then some (-EBADF)
  else if o.type ≠ .reg then some (-ESPIPE)
  else if 2 ^ 63 ≤ offset then some (-EINVAL)
  else none

/-- What `sys_pwrite64` returns in front of the seek. -/
def pwriteChecks (o : OpenFile) (accessOk : UInt64 → Bool) (count offset : UInt64) : Option Int :=
  checked (writeChecks o offset) some <|
    if toInt count < 0 then some (-EINVAL)
    else if count = 0 then some 0
    else if accessOk count = false then some (-EFAULT)
    else none

/-- `sys_pwrite64` to a buffer with `accessOk` for each length; `sys_write` checks the length as an `int` again. -/
def sysPwrite64 (o : OpenFile) (limit : UInt64) (accessOk : UInt64 → Bool) (count offset : UInt64) (env : WriteEnv) :
    Result :=
  checked (pwriteChecks o accessOk count offset) (fun e => ⟨e, o.file, []⟩) <|
    let savedPos := o.file.fPos
    let lseekRet := sysLseek o.file offset
    if lseekRet.1 < 0 then ⟨lseekRet.1, lseekRet.2, []⟩
    else
      let ret :=
        if accessOk (UInt64.ofInt (toInt count)) = false then (-EFAULT, lseekRet.2, .empty)
        else filewrite o.flags limit lseekRet.2 (toInt count) env
      ⟨ret.1, (sysLseek ret.2.1 savedPos).2, [ret.2.2]⟩

/-- What `sys_pwritev` returns before it looks at the elements; `uiov` is the address of the array. -/
def pwritevChecks (o : OpenFile) (v : UserArray) (uiov iovcnt offset : UInt64) : Option Int :=
  checked (writeChecks o offset) some <|
    if toInt iovcnt < 0 then some (-EINVAL)
    else if iovcnt = 0 then some 0
    else if iovcnt > IOVMAX then some (-EINVAL)
    else if uiov = 0 then some (-EFAULT)
    else if v.accessOk uiov (16 * iovcnt) = false then some (-EFAULT)
    else if v.copied = false then some (-EFAULT)
    else none

/-- `iov_len` of the type `iovec` has 32 bits. -/
def Iovec.len32 (iov : Iovec) : UInt32 := iov.len.toUInt32

/-- As an `int`. -/
def Iovec.intLen (iov : Iovec) : Int := Int.bmod iov.len32.toNat (2 ^ 32)

/-- The error of an element. -/
def pwritevElement (v : UserArray) (iov : Iovec) : Option Int :=
  if iov.intLen < 0 then some (-EINVAL)
  else if iov.len32 = 0 then none
  else if iov.base = 0 then some (-EFAULT)
  else if v.accessOk iov.base iov.len32.toUInt64 = false then some (-EFAULT)
  else none

/-- What the loop does behind a write of `len` bytes. -/
def pwritevNext (len : Nat) (total : Int) (written : Int × File × Piece) (rest : Int → File → Int × File × List Piece) :
    Int × File × List Piece :=
  if written.1 < 0 then (written.1, written.2.1, [written.2.2])
  else if written.1 < len then (total + written.1, written.2.1, [written.2.2])
  else
    let behind := rest (total + written.1) written.2.1
    (behind.1, behind.2.1, written.2.2 :: behind.2.2)

/-- The loop over the elements. -/
def pwritevLoop (flags : UInt32) (limit : UInt64) : List (Iovec × WriteEnv) → Int → File → Int × File × List Piece
  | [], total, f => (total, f, [])
  | (iov, env) :: rest, total, f =>
    if iov.len32 = 0 then pwritevLoop flags limit rest total f
    else pwritevNext iov.len32.toNat total (filewrite flags limit f iov.intLen env) (pwritevLoop flags limit rest)

def sysPwritev (o : OpenFile) (limit : UInt64) (v : UserArray) (uiov iovcnt offset : UInt64) (below : Nat → WriteEnv) :
    Result :=
  checked (pwritevChecks o v uiov iovcnt offset) (fun e => ⟨e, o.file, []⟩) <|
    let elements := v.elements below iovcnt.toNat
    checked (elements.findSome? fun x => pwritevElement v x.1) (fun e => ⟨e, o.file, []⟩) <|
      let savedPos := o.file.fPos
      let lseekRet := sysLseek o.file offset
      if lseekRet.1 < 0 then ⟨lseekRet.1, lseekRet.2, []⟩
      else
        let ret := pwritevLoop o.flags limit elements 0 lseekRet.2
        ⟨ret.1, (sysLseek ret.2.1 savedPos).2, ret.2.2⟩

end SC7.Positional
