-- SUMMARY: The table of open files: the reference counts that descriptors and mappings take and drop.
import SC7.Base.Tally
import SC7.Base.Bits
import SC7.Mem.Vmem

/-!
# Open files

`struct file`s live in a fixed table and are shared: every descriptor of every
process and every mapping of a file is a reference, and `f_count` is meant to be
their number. The system calls below are those that take or drop references,
with the part of each that decides about them. What the file system, the user
memory and the page tables answer is an input of the call.

The code of a mapping records only the number of the descriptor; which file it
was is a ghost (`Area.file`).
-/

namespace SC7.Files

open Function (update)
open Tally (one)

def NOFILE : Nat := 256
def NFILE : Nat := 1024
def NPROC : Nat := 128

instance : NeZero NOFILE := ⟨by decide⟩
instance : NeZero NFILE := ⟨by decide⟩
instance : NeZero NPROC := ⟨by decide⟩

abbrev EBADF : Int := 9
abbrev EACCES : Int := 13
abbrev EINVAL : Int := 22
abbrev ENFILE : Int := 23
abbrev EMFILE : Int := 24

abbrev PROT_NONE : Int := 0
abbrev MAP_SHARED : Nat := 0x01
abbrev MAP_PRIVATE : Nat := 0x02
abbrev MAP_SHARED_VALIDATE : Nat := 0x03
abbrev MAP_FIXED : Nat := 0x10
abbrev MAP_ANONYMOUS : Nat := 0x20

/-- A place in `ftable.file`. -/
abbrev FileId := Fin NFILE

/-- A place in `pool`. -/
abbrev Slot := Fin NPROC

/-- A VMA, as far as it concerns files. -/
structure Area where
  addr : Nat
  end_ : Nat
  refCount : Int
  shared : Bool
  fd : Int
  file : Option FileId

/-- The descriptors, the two limits on them, and the VMAs of a live process. -/
structure Proc where
  ofile : Fin NOFILE → Option FileId
  ofn : Nat
  rlimNofile : Nat
  areas : List Area

structure State where
  count : FileId → Int
  proc : Slot → Option Proc

/-! ## `file.c` -/

namespace Proc

def set (pr : Proc) (fd : Fin NOFILE) (f : Option FileId) : Proc := { pr with ofile := update pr.ofile fd f }

/-- `fd` as an index of `ofile`. -/
def index (fd : Int) : Option (Fin NOFILE) :=
  if h : 0 ≤ fd ∧ fd < NOFILE then some ⟨fd.toNat, by omega⟩ else none

/-- `ofile[fd]`, with `NULL` for a number that is no descriptor. -/
def slot (pr : Proc) (fd : Int) : Option FileId := (index fd).bind pr.ofile

/-- The descriptor that `fdalloc` takes. -/
def fdalloc (pr : Proc) : Option (Fin NOFILE) :=
  (List.finRange NOFILE).find? fun fd => fd < pr.ofn ∧ pr.ofile fd = none

/-- The descriptor that `fdalloc2` takes; `begin` is not negative. -/
def fdalloc2 (pr : Proc) (begin_ : Nat) : Option (Fin NOFILE) :=
  (List.finRange NOFILE).find? fun fd => begin_ ≤ fd ∧ pr.ofile fd = none

end Proc

namespace State

def put (s : State) (p : Slot) (pr : Proc) : State := { s with proc := update s.proc p (some pr) }

def setCount (s : State) (f : FileId) (n : Int) : State := { s with count := update s.count f n }

/-- Returns the file structure, with one reference. -/
def filealloc (s : State) : Option (FileId × State) :=
  ((List.finRange NFILE).find? fun f => s.count f = 0).map fun f => (f, s.setCount f 1)

def filedup (s : State) (f : FileId) : Option State :=
  if s.count f < 1 then none else some (s.setCount f (s.count f + 1))

/-- At the last reference the file is closed and the structure is free again. -/
def fileclose (s : State) (f : FileId) : Option State :=
  if s.count f < 1 then none else some (s.setCount f (s.count f - 1))

end State

/-! ## Opening -/

/-- What the path of an `openat` leads to, with the answers of the file system. -/
inductive OpenPath where
  /-- An error before a file structure is taken. -/
  | fails (e : Int)
  | tmpfile (opened : Int)
  /-- `/proc/mounts`, `/proc` and `/dev/misc/rtc`. -/
  | special
  | procfs
  /-- Any other file; `symlink` is an error of resolving a symbolic link. -/
  | regular (symlink : Option Int) (opened : Int)

section Calls

variable (p : Slot) (pr : Proc) (s : State)

def vfsTmpfile (opened : Int) : Int × State :=
  match s.filealloc with
  | none => (-ENFILE, s)
  | some (f, s) =>
    match pr.fdalloc with
    | none => (-EMFILE, s.setCount f 0)
    | some fd =>
      let s := s.put p (pr.set fd (some f))
      if opened < 0 then (opened, (s.put p (pr.set fd none)).setCount f 0) else (fd, s)

def sysOpenat (path : OpenPath) : Int × State :=
  match path with
  | .fails e => (e, s)
  | .tmpfile opened => vfsTmpfile p pr s opened
  | .special =>
    match s.filealloc with
    | none => (-ENFILE, s)
    | some (f, s) =>
      match pr.fdalloc with
      | none => (-EMFILE, s.setCount f 0)
      | some fd => (fd, s.put p (pr.set fd (some f)))
  | .procfs =>
    match s.filealloc with
    | none => (-ENFILE, s)
    | some (f, s) =>
      match pr.fdalloc with
      -- the file structure stays taken
      | none => (-EMFILE, s)
      | some fd => (fd, s.put p (pr.set fd (some f)))
  | .regular symlink opened =>
    match s.filealloc with
    | none => (-ENFILE, s)
    | some (f, s) =>
      match pr.fdalloc with
      | none => (-EMFILE, s)
      | some fd =>
        let s := s.put p (pr.set fd (some f))
        match symlink with
        -- the descriptor stays in the table
        | some e => (e, s)
        | none => if opened < 0 then (opened, s.put p (pr.set fd none)) else (fd, s)

/-- `pipe2`. `checked` says that the flags and the address pass, `copied` that the descriptors can be
written to the user. -/
def sysPipe2 (checked copied : Bool) : Option (Int × State) :=
  if checked = false then some (-EINVAL, s)
  else
    match s.filealloc with
    | none => some (-1, s)
    | some (rf, s) =>
      match s.filealloc with
      | none => (s.fileclose rf).map fun s => (-1, s)
      | some (wf, s) =>
        let closeBoth (r : Int) (s : State) : Option (Int × State) :=
          (s.fileclose rf).bind fun s => (s.fileclose wf).map fun s => (r, s)
        match pr.fdalloc with
        | none => closeBoth (-EMFILE) s
        | some fdread =>
          let pr' := pr.set fdread (some rf)
          match pr'.fdalloc with
          | none => closeBoth (-EMFILE) (s.put p (pr'.set fdread none))
          | some fdwrite =>
            let pr' := pr'.set fdwrite (some wf)
            if copied then some (0, s.put p pr')
            else closeBoth (-1) (s.put p ((pr'.set fdread none).set fdwrite none))

/-! ## Duplicating and closing -/

def sysDup (fd : Int) : Option (Int × State) :=
  match pr.slot fd with
  | none => some (-EBADF, s)
  | some f =>
    if fd ≥ pr.rlimNofile then some (-EBADF, s)
    else
      match pr.fdalloc with
      | none => some (-EMFILE, s)
      | some newFd => ((s.put p (pr.set newFd (some f))).filedup f).map fun s => ((newFd : Int), s)

def sysDup3 (oldfd newfd : Int) : Option (Int × State) :=
  match pr.slot oldfd with
  | none => some (-EINVAL, s)
  | some f =>
    if oldfd = newfd then some (newfd, s)
    else
      match Proc.index newfd with
      | none => some (-EINVAL, s)
      | some i =>
        if newfd ≥ pr.ofn then some (-EINVAL, s)
        else
          (match pr.ofile i with
            | none => some s
            | some g => s.fileclose g).bind fun s =>
            ((s.put p (pr.set i (some f))).filedup f).map fun s => (newfd, s)

/-- The two commands of `fcntl` that duplicate a descriptor. A negative number reads and writes
outside of `ofile`. -/
def dupfd (f : FileId) (cloexec : Bool) (begin_ : Int) : Option (Int × State) :=
  if begin_ < 0 then none
  else
    match pr.fdalloc2 begin_.toNat with
    | none => some (if cloexec then -1 else -EMFILE, s)
    | some newFd =>
      let s := s.put p (pr.set newFd (some f))
      -- `> 0` for the one command, `>= 0` for the other
      if cloexec = true ∧ newFd.val = 0 then some ((newFd : Int), s)
      else (s.filedup f).map fun s => ((newFd : Int), s)

/-- `fcntl` with `F_DUPFD` or `F_DUPFD_CLOEXEC`; `arg` is converted to `int`. -/
def sysFcntl (fd : Int) (cloexec : Bool) (arg : Nat) : Option (Int × State) :=
  match pr.slot fd with
  | none => some (-EBADF, s)
  | some f => dupfd p pr s f cloexec (toInt32 arg)

def sysClose (fd : Int) : Option (Int × State) :=
  if fd < 0 then some (-EBADF, s)
  else
    match Proc.index fd with
    | none => some (-ENFILE, s)
    | some i =>
      match pr.ofile i with
      | none => some (-ENFILE, s)
      | some f => ((s.put p (pr.set i none)).fileclose f).map fun s => (0, s)

/-! ## Processes -/

/-- The references that `vma_copy` takes: it looks the descriptor up in the child. -/
def vmaCopy (child : Proc) : List Area → State → Option State
  | [], s => some s
  | a :: areas, s =>
    (if a.shared = false ∧ a.fd ≠ -1 then
      match child.slot a.fd with
      | some f => s.filedup f
      | none => some s
    else some s).bind (vmaCopy child areas)

/-- The loop over the descriptors in `fork`. -/
def copyFiles (np : Slot) : List (Fin NOFILE) → Proc → State → Option (Proc × State)
  | [], child, s => some (child, s)
  | fd :: fds, child, s =>
    match pr.ofile fd with
    | some f =>
      if s.count f > 0 then
        (s.filedup f).bind fun s =>
          let child := child.set fd (some f)
          copyFiles np fds child (s.put np child)
      else copyFiles np fds (child.set fd none) (s.put np (child.set fd none))
    | none => copyFiles np fds (child.set fd none) (s.put np (child.set fd none))

/-- `np` is what `allocproc` gives, a slot that is not in use. The VMAs are copied before the
descriptors. -/
def fork : Option Slot → Option (Int × State)
  | none => some (-1, s)
  | some np =>
    let child : Proc := ⟨fun _ => none, pr.ofn, pr.rlimNofile, pr.areas⟩
    (vmaCopy child pr.areas (s.put np child)).bind fun s =>
      (copyFiles pr np (List.finRange NOFILE) child s).map fun (_, s) => (0, s)

/-- The loop over the descriptors in `exit`. -/
def closeFiles : List (Fin NOFILE) → Proc → State → Option State
  | [], _, s => some s
  | fd :: fds, pr, s =>
    match pr.ofile fd with
    | none => closeFiles fds pr s
    | some f => (s.fileclose f).bind fun s => closeFiles fds (pr.set fd none) (s.put p (pr.set fd none))

/-- The VMAs go with the process, when the parent waits for it. -/
def exit : Option (Int × State) :=
  (closeFiles p (List.finRange NOFILE) pr s).map fun s => (0, { s with proc := update s.proc p none })

end Calls

/-! ## Mappings -/

/-- One VMA in the loop of `munmap`: what is left of it. -/
def unmapArea (start end_ : Nat) (a : Area) : List Area :=
  if a.end_ > start ∧ a.addr ≤ end_ then
    if a.addr ≥ start ∧ a.end_ ≤ end_ then
      if a.refCount > 1 then [{ a with refCount := a.refCount - 1 }] else []
    else
      (if a.addr < start then [{ a with end_ := start }] else []) ++
        (if a.end_ > end_ then [{ a with addr := end_ }] else [])
  else [a]

def unmapAreas (start end_ : Nat) (areas : List Area) : List Area := areas.flatMap (unmapArea start end_)

/-- The bounds that `munmap(start, len)` uses. -/
def unmapRange (start : Nat) (len : Int) : Nat × Nat := (pgRoundDown start, pgRoundDown (toU64 (start + len)))

def munmapAreas (start : Nat) (len : Int) (areas : List Area) : List Area :=
  if len ≤ 0 then areas else unmapAreas (unmapRange start len).1 (unmapRange start len).2 areas

/-- The overlap of a VMA with `[start, end_)`, as an argument of `munmap`. -/
def overlap (start end_ : Nat) (a : Area) : Nat × Int :=
  (max a.addr start, toInt32 (sub64 (min a.end_ end_) (max a.addr start)))

/-- The loop of `MAP_FIXED` over the VMAs that were there before it. -/
def unmapFixed (start end_ : Nat) : List Area → List Area → List Area
  | [], areas => areas
  | a :: todo, areas =>
    if a.end_ > start ∧ a.addr < end_ ∧ min a.end_ end_ > max a.addr start then
      unmapFixed start end_ todo (munmapAreas (overlap start end_ a).1 (overlap start end_ a).2 areas)
    else unmapFixed start end_ todo areas

/-- Where `alloc_vma` puts a VMA: between two others, or into the one that covers the range; a
partial overlap is a panic. -/
def findSlot (start end_ : Nat) :
    List Area → List Area → Option ((List Area × List Area) ⊕ (List Area × Area × List Area))
  | before, [] => some (.inl (before, []))
  | before, a :: after =>
    if end_ ≤ a.addr then some (.inl (before, a :: after))
    else if start ≥ a.end_ then findSlot start end_ (before ++ [a]) after
    else if start ≥ a.addr ∧ end_ ≤ a.end_ then some (.inr (before, a, after))
    else none

/-- The arguments of an `mmap`, and what it finds: the address that `alloc_mmap_vma` settles on,
whether the file may be read, and an error between the new VMA and the end. -/
structure MmapArgs where
  start : Nat
  len : Int
  prot : Int
  flags : Nat
  fd : Int
  place : Nat
  readable : Bool
  late : Option Int

namespace MmapArgs

variable (args : MmapArgs)

/-- The mapping is of a file. -/
def ofFile : Bool := !Bits.has args.flags MAP_ANONYMOUS

/-- The errors before anything is changed. -/
def error (pr : Proc) : Option Int :=
  if !Bits.has args.flags (MAP_PRIVATE ||| MAP_SHARED ||| MAP_SHARED_VALIDATE) then some (-EINVAL)
  else if args.ofFile ∧ args.fd < 0 then some (-EBADF)
  else if args.len = 0 then some (-EINVAL)
  else if args.ofFile ∧ pr.slot args.fd = none then some (-EBADF)
  else if args.ofFile ∧ args.readable = false then some (-EACCES)
  else none

/-- The VMAs after the loop of `MAP_FIXED`. -/
def cleared (pr : Proc) : List Area :=
  if Bits.has args.flags MAP_FIXED then
    unmapFixed args.start (toU64 (args.start + args.len)) pr.areas pr.areas
  else pr.areas

/-- The place of the VMA in the list that is left. -/
def found (pr : Proc) : Option ((List Area × List Area) ⊕ (List Area × Area × List Area)) :=
  findSlot (pgRoundUp args.place) (pgRoundUp (toU64 (args.place + args.len))) [] (args.cleared pr)

/-- The file that the VMA maps. -/
def mapped (pr : Proc) : Option FileId := if args.ofFile then pr.slot args.fd else none

/-- The fields of the VMA that `mmap` sets. -/
def filled (pr : Proc) (a : Area) : Area :=
  { a with shared := Bits.has args.flags MAP_SHARED && args.prot != PROT_NONE,
           fd := if args.ofFile then args.fd else -1, file := args.mapped pr }

def newAreas (pr : Proc) : Option (List Area) := (args.found pr).map fun
    | .inl (before, after) =>
      before ++ args.filled pr ⟨pgRoundUp args.place, pgRoundUp (toU64 (args.place + args.len)), 1,
        false, -1, none⟩ :: after
    | .inr (before, a, after) => before ++ args.filled pr a :: after

end MmapArgs

/-- A descriptor from `NOFILE` on reads outside of `ofile`. The reference is taken at the end. -/
def mmap (p : Slot) (pr : Proc) (args : MmapArgs) (s : State) : Option (Int × State) :=
  if args.ofFile ∧ args.fd ≥ NOFILE then none
  else
    match args.error pr with
    | some e => some (e, s)
    | none =>
      (args.newAreas pr).bind fun areas =>
        let s := s.put p { pr with areas }
        if args.prot = PROT_NONE then some ((args.place : Int), s)
        else
          match args.late with
          | some e => some (e, s)
          | none =>
            match args.mapped pr with
            | none => some ((args.place : Int), s)
            | some f => (s.filedup f).map fun s => ((args.place : Int), s)

/-- Whether a VMA was found decides about the result only. -/
def munmap (p : Slot) (pr : Proc) (start : Nat) (len : Int) (s : State) : Option (Int × State) :=
  if len ≤ 0 then some (-1, s)
  else
    let (lo, hi) := unmapRange start len
    some (if pr.areas.any fun a => a.end_ > lo ∧ a.addr ≤ hi then 0 else -1,
      s.put p { pr with areas := munmapAreas start len pr.areas })

/-! ## The system -/

inductive Op where
  | openat (path : OpenPath)
  | pipe2 (checked copied : Bool)
  | dup (fd : Int)
  | dup3 (oldfd newfd : Int)
  | dupfd (fd : Int) (cloexec : Bool) (arg : Nat)
  | close (fd : Int)
  | fork (np : Option Slot)
  | exit
  | mmap (args : MmapArgs)
  | munmap (start : Nat) (len : Int)

/-- One system call of the live process `p`. -/
def call (p : Slot) (pr : Proc) (s : State) : Op → Option (Int × State)
  | .openat path => some (sysOpenat p pr s path)
  | .pipe2 checked copied => sysPipe2 p pr s checked copied
  | .dup fd => sysDup p pr s fd
  | .dup3 oldfd newfd => sysDup3 p pr s oldfd newfd
  | .dupfd fd cloexec arg => sysFcntl p pr s fd cloexec arg
  | .close fd => sysClose p pr s fd
  | .fork np => fork pr s np
  | .exit => exit p pr s
  | .mmap args => mmap p pr args s
  | .munmap start len => munmap p pr start len s

end SC7.Files
