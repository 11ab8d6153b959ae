-- SUMMARY: `execve` with all its exits: the arguments, the ELF file, the interpreter, and the state each exit leaves.
import SC7.Kernel.Exec
import SC7.Mem.Vma

/-!
# The exits of `execve`

`sys_execve` copies the arguments, `exec` looks at the file, takes the old address space apart, loads
the segments and the interpreter, and builds the stack. The file system and the memory of the kernel
answer with a `World`; a file is whatever its reads return, so a short file and a failed read are the
same.

A panic, a failed assertion, a `NULL` pointer that is used and a store outside of an array are all
`stops`: the kernel does not come back to the caller in order.
-/

namespace SC7.Exec

open Blocks

def ELF_MAGIC : Nat := 0x464C457F
def ELF_PROG_LOAD : Nat := 1
def ELF_PROG_INTERP : Nat := 3

/-- An array of string pointers of the user: the strings before its end, which is a `NULL`, or else
something that cannot be copied (a word, a string that is not there or not within a page, or a page
for it). -/
structure UserArray where
  strs : List Str
  ends : Bool
  terminated : ∀ s ∈ strs, (0 : UInt8) ∉ s ∧ s.length < 4096

/-- A file: what a read of `n` bytes at `off` returns. -/
structure ElfFile where
  read : Nat → Nat → List UInt8

namespace ElfFile

variable (f : ElfFile)

/-- A field of a structure that was read. -/
def field (bytes : List UInt8) (off n : Nat) : Nat := leRead (fun i => bytes.getD i 0) n off

/-- The read returns all the bytes. -/
def complete (off n : Nat) : Bool := (f.read off n).length == n

end ElfFile

/-- The fields of `elf_header_t` that `exec` uses. -/
structure ElfHeader where
  magic : Nat
  entry : Nat
  phoff : Nat
  phentsize : Nat
  phnum : Nat

/-- The fields of `program_header_t` that `exec` uses. -/
structure ProgramHeader where
  type : Nat
  off : Nat
  vaddr : Nat
  filesz : Nat
  memsz : Nat

namespace ElfFile

variable (f : ElfFile)

def header : ElfHeader :=
  let bytes := f.read 0 64
  ⟨field bytes 0 4, field bytes 24 8, field bytes 32 8, field bytes 54 2, field bytes 56 2⟩

/-- The offset of a program header; it is an `int`, and a read takes a `uint`. -/
def phAt (i : Nat) : Nat := (f.header.phoff + 56 * i) % 2 ^ 32

def program (i : Nat) : ProgramHeader :=
  let bytes := f.read (f.phAt i) 56
  ⟨field bytes 0 4, field bytes 8 8, field bytes 16 8, field bytes 32 8, field bytes 40 8⟩

end ElfFile

namespace ProgramHeader

variable (ph : ProgramHeader)

/-- The number of bytes that `loadseg` is told to load; it is a `uint`. -/
def loadSize : Nat := (ph.filesz + ph.vaddr % PGSIZE) % 2 ^ 32

/-- The number of pages that `loadseg` loads. -/
def loadPages : Nat := (ph.loadSize + (PGSIZE - 1)) / PGSIZE

/-- What `loadseg` reads for its `k`th page: an offset and a length. -/
def loadRead (k : Nat) : Nat × Nat :=
  ((pgRoundDown ph.off + k * PGSIZE) % 2 ^ 32, min (ph.loadSize - k * PGSIZE) PGSIZE)

end ProgramHeader

structure Trapframe where
  a1 : Nat
  epc : Nat
  sp : Nat
  deriving DecidableEq, Repr

/-- What a process must get back from a call that fails. `pagetable` is the page of the root table. -/
structure Proc where
  vmas : List Vma
  pagetable : Nat
  sz : Nat
  virtAddr : Nat
  ofile : Nat → Option Nat
  trapframe : Trapframe

/-- The path of the caller, as `copyinstr` finds it. -/
inductive UserPath where
  | ok (path : Str)
  | unreadable
  /-- An address that `walkaddr` does not take. -/
  | outOfRange

/-- What `execve` is given by the user, the file system and the memory of the kernel. A segment is
named by its number, and whether it is one of the interpreter. -/
structure World where
  path : UserPath
  argv : UserArray
  envp : UserArray
  cwd : Str
  /-- There is a page for `LD_LIBRARY_PATH`. -/
  ldPage : Bool
  /-- `namei`. -/
  file : Str → Option ElfFile
  /-- The old areas are freed, and there is a page for the first new one. -/
  vmaInit : Bool
  /-- `proc_pagetable`. -/
  table : Option Nat
  /-- `uvm_grow` for a segment: the size it returns, `none` for a panic. -/
  grow : Nat → Option Nat
  /-- `walkaddr` finds the `k`th page of a segment. -/
  mapped : Bool → Nat → Nat → Bool
  /-- What is on the kernel stack where the name of the interpreter is read to. -/
  garbage : List UInt8
  /-- `mmap` for the interpreter: its address and the areas then. -/
  mmap : Nat → Option (Nat × List Vma)
  /-- The area of the stack. -/
  stackArea : Option Vma
  /-- The open files after the file of a redirection is opened, with `ofile[1]` closed before. -/
  redirect : Option (Nat → Option Nat)

/-- How a call ends. -/
inductive Outcome where
  | returns (r : Int) (p : Proc)
  | stops

/-! ## Arguments -/

/-- The loop over the argument pointers, from the `i`th on. -/
def argLoop (ends : Bool) : List Str → Nat → Option (List Str)
  | strs, i =>
    if MAXARG ≤ i then none
    else
      match strs with
      | [] => if ends then some [] else none
      | s :: strs => (argLoop ends strs (i + 1)).map (s :: ·)

/-- The loop over the environment, with `n` variables in the array so far. -/
def envArrayLoop (ends : Bool) : List Str → Nat → Option (List Str)
  | strs, n =>
    if 19 ≤ n then none
    else
      match strs with
      | [] => if ends then some [] else none
      | s :: strs =>
        if (str "LD_LIBRARY_PATH=").isPrefixOf s then envArrayLoop ends strs n
        else (envArrayLoop ends strs (n + 1)).map (s :: ·)

/-- The two paths that `sys_execve` knows. -/
def userPath (path : Str) : Str :=
  if path = str "/bin/open12_child" then str "/glibc/ltp/testcases/bin/open12_child"
  else if path = str "/bin/openat02_child" then str "/glibc/ltp/testcases/bin/openat02_child"
  else path

/-- The path that `exec` opens. -/
def execPath (path : Str) : Str :=
  if isShScript path || path == str "/tmp/hello" then str "/musl/busybox"
  else if path = str "/code/lmbench_src/bin/build/lmbench_all" then str "lmbench_all"
  else path

/-! ## Segments -/

section Load

variable (w : World)

/-- `loadseg`; `isInterp` says whose segment it is. -/
def loadseg (f : ElfFile) (isInterp : Bool) (i : Nat) (ph : ProgramHeader) : Bool :=
  (List.range ph.loadPages).all fun k =>
    w.mapped isInterp i k && f.complete (ph.loadRead k).1 (ph.loadRead k).2

/-- What the loop over the segments keeps: the lowest address, the size, and the last header of type
`INTERP`. -/
structure Loaded where
  low : Nat
  sz : Nat
  interp : Option ProgramHeader

/-- The body of the loop over the program headers. -/
def loadHeader (f : ElfFile) (i : Nat) (l : Loaded) : Option Loaded :=
  let ph := f.program i
  if f.complete (f.phAt i) 56 = false then none
  else
    let l := if ph.type = ELF_PROG_INTERP then { l with interp := some ph } else l
    if ph.type ≠ ELF_PROG_LOAD then some l
    else if ph.memsz < ph.filesz then none
    else if ph.vaddr + ph.memsz ≥ 2 ^ 64 then none
    else
      (w.grow i).bind fun sz =>
        if loadseg w f false i ph then some { l with low := min l.low ph.vaddr, sz := pgRoundUp sz }
        else none

/-- The loop, with `n` headers to go. -/
def loadLoop (f : ElfFile) : Nat → Nat → Loaded → Option Loaded
  | 0, _, l => some l
  | n + 1, i, l => (loadHeader w f i l).bind (loadLoop f n (i + 1))

/-! ## The interpreter -/

/-- `strstr(s, t) != NULL`. -/
def contains (s t : Str) : Bool := decide (t <:+: s)

/-- A string that ends at the first zero. -/
def cstr (bytes : List UInt8) : Str := bytes.takeWhile (· != 0)

/-- The name of the interpreter; what the read does not fill is what was there before. -/
def interpName (f : ElfFile) (ph : ProgramHeader) : Str :=
  let bytes := f.read (ph.off % 2 ^ 32) ph.filesz
  cstr (bytes ++ w.garbage.drop bytes.length)

def ldLinuxRiscv : Str := str "/lib/ld-linux-riscv64-lp64d.so.1"

/-- The other interpreters that `exec` knows. -/
def knownInterps : List Str :=
  [str "/lib/ld-musl-riscv64-sf.so.1", str "/lib/ld-musl-riscv64.so.1",
   str "/lib64/ld-musl-loongarch-lp64d.so.1", str "/lib/ld-musl-loongarch64.so.1",
   str "/lib64/ld-linux-loongarch-lp64d.so.1"]

/-- The paths for which the first of them is looked up. -/
def glibcPath (path : Str) : Bool :=
  [str "glibc", str "ltp", str "execv", str "dynamic", str "iozone"].any (contains path)

/-- How the search for the interpreter and the loading of it end. -/
inductive InterpResult (α : Type) where
  | found (a : α)
  /-- `exec` returns `-1`. -/
  | fails
  | stops

/-- The file of the interpreter. -/
def findInterp (path name : Str) : InterpResult ElfFile :=
  if name = ldLinuxRiscv then
    if glibcPath path then
      match w.file name with
      | some g => .found g
      | none => .fails
    -- the pointer stays `NULL` and is used
    else .stops
  else if name ∈ knownInterps then
    match w.file name with
    | some g => .found g
    | none => .fails
  else .fails

/-- The loop of `get_mmap_size`: the lowest and the highest address of a segment. -/
def mmapSizeLoop (g : ElfFile) : Nat → Nat → Option (Nat × Nat) → Option (Option (Nat × Nat))
  | 0, _, acc => some acc
  | n + 1, i, acc =>
    if g.complete (g.phAt i) 56 = false then none
    else
      let ph := g.program i
      mmapSizeLoop g n (i + 1)
        (if ph.type = ELF_PROG_LOAD then
          let (lo, hi) := acc.getD (2 ^ 64 - 1, 0)
          some (min lo (pgRoundDown ph.vaddr), max hi (add64 ph.vaddr ph.memsz))
        else acc)

/-- `get_mmap_size`, `0` for an interpreter without a segment. -/
def getMmapSize (g : ElfFile) : Option Nat := (mmapSizeLoop g g.header.phnum 0 none).map fun
    | none => 0
    | some (lo, hi) => sub64 hi lo

/-- A segment of the interpreter, in the second loop. -/
def interpSegment (g : ElfFile) (i : Nat) : Bool :=
  let ph := g.program i
  g.complete (g.phAt i) 56 && (ph.type != ELF_PROG_LOAD ||
      (decide (ph.filesz ≤ ph.memsz) && decide (ph.vaddr + ph.memsz < 2 ^ 64) && loadseg w g true i ph))

/-- `load_interpreter`: all its failures are panics. -/
def loadInterpreter (g : ElfFile) : Option (Nat × List Vma) :=
  (getMmapSize g).bind fun size =>
    if size = 0 then none
    else
      (w.mmap size).bind fun r =>
        if (List.range g.header.phnum).all (interpSegment w g) then some r else none

/-- The dynamic part of `exec`: the base address and the entry of the interpreter, and the areas. -/
def dynamic (f : ElfFile) (path : Str) (ph : ProgramHeader) : InterpResult (Nat × Nat × List Vma) :=
  if ph.filesz > 256 then .stops
  else
    match findInterp w path (interpName w f ph) with
    | .fails => .fails
    | .stops => .stops
    | .found g =>
      if g.complete 0 64 = false then .stops
      else if g.header.magic ≠ ELF_MAGIC then .fails
      else
        match loadInterpreter w g with
        | none => .stops
        | some (base, areas) => .found (base, g.header.entry, areas)

end Load

/-! ## `exec` -/

/-- The redirection that the last token asks for; a pipe opens nothing. -/
inductive Redirection where
  | file
  | pipe

def redirection (argv : List Str) : Option Redirection :=
  (argv.filter isRedirection).getLast?.map fun arg => if arg = str "|" then .pipe else .file

section Exec

variable (w : World)

/-- The open files of the new program, `none` if `ofile[1]` is closed already or the file of the
redirection cannot be opened. -/
def redirectFiles (argv : List Str) (p : Proc) : Option (Nat → Option Nat) :=
  match redirection argv with
  | none => some p.ofile
  | some r =>
    if p.ofile 1 = none then none
    else
      match r with
      | .pipe => some (Function.update p.ofile 1 none)
      | .file => w.redirect

/-- The end of `exec`, after the interpreter: the stack, the registers and the redirection. -/
def finish (f : ElfFile) (argv env : List Str) (base entry : Nat) (p : Proc) : Outcome :=
  match w.stackArea with
  | none => .stops
  | some area =>
    let ehdr := f.header
    let info : ElfInfo := ⟨.ofNat ehdr.phoff, .ofNat p.virtAddr, .ofNat ehdr.phentsize, .ofNat ehdr.phnum,
      .ofNat base, .ofNat ehdr.entry⟩
    match buildStack info (argv.takeWhile fun arg => !isRedirection arg) env with
    | .error _ => .stops
    | .ok image =>
      match redirectFiles w argv p with
      | none => .stops
      | some ofile =>
        .returns 0 { p with
          vmas := p.vmas ++ [area], ofile,
          trapframe := ⟨image.sp + 8, if base ≠ 0 then add64 base entry else ehdr.entry, image.sp⟩ }

/-- The areas of a process after `vma_init`. -/
def initAreas : List Vma := [VmaMem.initVma Vma.zero .MMAP USER_MMAP_START USER_MMAP_START 0 0]

/-- `exec` from the point on where the old address space is gone. -/
def loadProgram (f : ElfFile) (path : Str) (argv env : List Str) (table : Nat) (p : Proc) : Outcome :=
  match loadLoop w f f.header.phnum 0 ⟨2 ^ 64 - 1, 0, none⟩ with
  | none => .stops
  | some l =>
    let p := { p with vmas := initAreas, pagetable := table, sz := l.sz, virtAddr := l.low }
    if contains w.cwd (str "basic") || contains path (str "basic") then finish w f argv env 0 0 p
    else
      match l.interp with
      | none => finish w f argv env 0 0 p
      | some ph =>
        match dynamic w f path ph with
        | .stops => .stops
        | .fails => .returns (-1) p
        | .found (base, entry, areas) => finish w f argv env base entry { p with vmas := areas }

/-- `exec`. The arguments of a script come behind those of the shell. -/
def execFile (path : Str) (argv env : List Str) (p : Proc) : Outcome :=
  match w.file (execPath path) with
  | none => .returns (-1) p
  | some f =>
    if f.complete 0 64 = false then .stops
    else if f.header.magic ≠ ELF_MAGIC then .returns (-1) p
    else
      match w.vmaInit, w.table with
      | true, some table => loadProgram w f (execPath path) (execArgs path argv) env table p
      | _, _ => .stops

def execve (p : Proc) : Outcome :=
  match w.path with
  | .unreadable => .returns (-1) p
  | .outOfRange => .stops
  | .ok path =>
    match argLoop w.argv.ends w.argv.strs 0 with
    | none => .stops
    | some argv =>
      if w.ldPage = false then .stops
      else
        match envArrayLoop w.envp.ends w.envp.strs 1 with
        | none => .stops
        | some env => execFile w (userPath path) argv (ldPath :: env) p

end Exec

end SC7.Exec
