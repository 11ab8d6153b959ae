-- SUMMARY: FIFOs (`fifo.c`): the table of slots, and the lock sections of `fifo_open`, `fifo_close`, `fiforead` and `fifowrite`.
import SC7.Fs.Pipe
import Mathlib.Data.List.FinRange

/-!
# FIFOs

A FIFO is a slot of `fifo_table`. `find_or_create_fifo` works under the lock of the table, the rest of
`fifo_open` under the lock of the slot, and the last `fifo_close` clears the slot under both. A call is a
sequence of these sections; `fiforead` and `fifowrite` release the lock of the slot while they sleep.

What `initlock` does to the lock of a slot that is taken is left out. The open counts are `int`s, and
there are far fewer files than an `int` can count. A path is the bytes in front of its terminator.
-/

namespace SC7

abbrev FIFO_SIZE : Nat := 17 * 4096
abbrev MAX_FIFOS : Nat := 16

/-- `struct fifo` without its lock. -/
structure Fifo where
  data : Nat → UInt8
  nread : Nat
  nwrite : Nat
  readopen : Nat
  writeopen : Nat
  path : List UInt8
  inUse : Bool

namespace Fifo

abbrev O_RDONLY : Nat := 0x000
abbrev O_WRONLY : Nat := 0x001
abbrev O_RDWR : Nat := 0x002
abbrev O_ACCMODE : Nat := 0x003
abbrev O_NONBLOCK : Nat := 0o4000

/-- The access mode lets the file read. -/
def ReadMode (flags : Nat) : Prop := flags &&& O_ACCMODE = O_RDONLY ∨ flags &&& O_ACCMODE = O_RDWR

/-- The access mode lets the file write. -/
def WriteMode (flags : Nat) : Prop := flags &&& O_ACCMODE = O_WRONLY ∨ flags &&& O_ACCMODE = O_RDWR

instance (flags : Nat) : Decidable (ReadMode flags) := inferInstanceAs (Decidable (_ ∨ _))

instance (flags : Nat) : Decidable (WriteMode flags) := inferInstanceAs (Decidable (_ ∨ _))

/-- A slot after `init_fifo_table`. -/
def init (data : Nat → UInt8) : Fifo := ⟨data, 0, 0, 0, 0, [], false⟩

/-- `find_or_create_fifo` makes the slot a new FIFO; `path[256]` keeps 255 bytes. -/
def create (fi : Fifo) (path : List UInt8) : Fifo :=
  { fi with inUse := true, path := path.take 255, readopen := 0, writeopen := 0, nread := 0, nwrite := 0 }

/-- A non-blocking `fifo_open` for writing only does not wait for a reader. -/
def Refuses (fi : Fifo) (flags : Nat) : Prop :=
  flags &&& O_NONBLOCK ≠ 0 ∧ flags &&& O_ACCMODE = O_WRONLY ∧ fi.readopen = 0

instance (fi : Fifo) (flags : Nat) : Decidable (fi.Refuses flags) := inferInstanceAs (Decidable (_ ∧ _ ∧ _))

/-- The section of `fifo_open` on the slot: false if it returns `NULL`. -/
def openSection (fi : Fifo) (flags : Nat) : Bool × Fifo :=
  if fi.Refuses flags then (false, fi)
  else
    let fi := if ReadMode flags then { fi with readopen := fi.readopen + 1 } else fi
    let fi := if WriteMode flags then { fi with writeopen := fi.writeopen + 1 } else fi
    (true, fi)

/-- `fifo_close` up to its last test; a count stays at 0. -/
def closeSection (fi : Fifo) (flags : Nat) : Fifo :=
  let fi := if ReadMode flags then { fi with readopen := fi.readopen - 1 } else fi
  if WriteMode flags then { fi with writeopen := fi.writeopen - 1 } else fi

/-- The last `fifo_close` goes on, with the lock of the table as well. -/
def clear (fi : Fifo) : Fifo := { fi with inUse := false, path := [] }

/-! ## Reading and writing -/

/-- The loop of `fifowrite` from `i` on, up to its return or its sleep; `m` is `n - i`. -/
def writeLoop (env : Env) (fi : Fifo) (i : Nat) : Nat → Fifo × Outcome
  | 0 => (fi, .ret i)
  | m + 1 =>
    if fi.readopen = 0 ∨ env.killed i then (fi, .ret (-EPIPE))
    else if fi.nwrite = add32 fi.nread FIFO_SIZE then
      if env.nonblock then (fi, .ret (if i = 0 then -EAGAIN else i)) else (fi, .sleep i)
    else
      match env.copyin i with
      | none => (fi, .ret i)
      | some ch =>
        writeLoop env
          { fi with
            data := Function.update fi.data (fi.nwrite % FIFO_SIZE) ch
            nwrite := add32 fi.nwrite 1 } (i + 1) m

/-- The first section of `fifowrite(f, user_src, src, n)`; one that is woken up goes on in the loop. -/
def writeStart (env : Env) (fi : Fifo) (n : Int) : Fifo × Outcome :=
  if fi.readopen = 0 then (fi, .ret (-EPIPE))
  else if env.nonblock ∧ fi.nwrite = add32 fi.nread FIFO_SIZE then (fi, .ret (-EAGAIN))
  else writeLoop env fi 0 n.toNat

/-- The `for` loop of `fiforead`; `m` is `n - i`. -/
def readLoop (env : Env) (fi : Fifo) (i : Nat) : Nat → Fifo × Outcome
  | 0 => (fi, .ret i)
  | m + 1 =>
    if fi.nread = fi.nwrite then (fi, .ret i)
    else
      let fi := { fi with nread := add32 fi.nread 1 }
      if env.copyout i then readLoop env fi (i + 1) m else (fi, .ret i)

/-- A section of `fiforead(f, user_dst, dst, n)`, from the `while` loop on. -/
def readSection (env : Env) (fi : Fifo) (n : Int) : Fifo × Outcome :=
  if fi.nread = fi.nwrite ∧ fi.writeopen > 0 then
    if env.killed 0 then (fi, .ret (-1))
    else if env.nonblock then (fi, .ret (-EAGAIN))
    else (fi, .sleep 0)
  else readLoop env fi 0 n.toNat

/-- The first section of `fiforead`. -/
def readStart (env : Env) (fi : Fifo) (n : Int) : Fifo × Outcome :=
  if env.nonblock ∧ fi.nread = fi.nwrite ∧ fi.writeopen > 0 then (fi, .ret (-EAGAIN))
  else readSection env fi n

end Fifo

/-! ## The table -/

/-- `fifo_table`. -/
abbrev FifoTable := Fin MAX_FIFOS → Fifo

namespace FifoTable

/-- `find_or_create_fifo(path)`: the first slot with the path, or else the first free one. -/
def findOrCreate (table : FifoTable) (path : List UInt8) : Option (Fin MAX_FIFOS) × FifoTable :=
  match (List.finRange MAX_FIFOS).find? fun i => (table i).inUse && (table i).path == path with
  | some i => (some i, table)
  | none =>
    match (List.finRange MAX_FIFOS).find? fun i => !(table i).inUse with
    | some i => (some i, Function.update table i ((table i).create path))
    | none => (none, table)

end FifoTable

end SC7
