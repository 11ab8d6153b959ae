-- SUMMARY: The start-up stack that `execve` builds (strings, auxiliary vector, pointer arrays) and the reader a program starts with.
import SC7.Base.Blocks
import SC7.Mem.Pmem

/-!
# The start-up stack

`exec` writes, from the top of the stack downwards: the environment strings, the argument strings, 16
random bytes, the auxiliary vector, the array of environment pointers and the array of argument
pointers with the count before it. It rounds the stack pointer down to 16 bytes for each string and
for each of the two arrays.
-/

namespace SC7.Exec

open Blocks

/-- A string of the kernel: its bytes before the terminating zero. -/
abbrev Str := List UInt8

instance : LawfulBEq Str := List.instLawfulBEq

def str (s : String) : Str := s.toUTF8.data.toList

def MAXARG : Nat := 32
def NARG : Nat := 16
def NENV : Nat := 8
def MAXUVA : Nat := 0x80000000
def USER_STACK_TOP : Nat := MAXUVA - 4096
def USER_STACK_SIZE : Nat := 100 * 4096

/-- `stackbase`. -/
def stackBase : Nat := USER_STACK_TOP - USER_STACK_SIZE

/-- Ways in which `execve` does not start the program. -/
inductive Stop where
  /-- A failed assertion, or `panic`. -/
  | panic
  /-- A store past the end of `ustack` or `estack`. -/
  | overrun
  deriving DecidableEq

/-- What the auxiliary vector tells about the program. -/
structure ElfInfo where
  phoff : UInt64
  virtAddr : UInt64
  phentsize : UInt64
  phnum : UInt64
  base : UInt64
  entry : UInt64

/-- The stack while it is built: the stack pointer and the blocks written, the newest first. -/
structure Stack where
  sp : Nat
  blocks : List Block

namespace Stack

/-- Writes a block at a lower stack pointer. -/
def push (s : Stack) (sp : Nat) (bytes : List UInt8) : Stack := ⟨sp, (sp, bytes) :: s.blocks⟩

/-- Puts a string on the stack, at an address that is a multiple of 16. -/
def pushStr (s : Stack) (str : Str) : Except Stop Stack :=
  let sp := s.sp - (str.length + 1)
  let sp := sp - sp % 16
  if stackBase < sp then .ok (s.push sp (str ++ [0])) else .error .panic

/-- The loops over `env` and `argv`, from the `k`th string on: the addresses of the strings.
`size` is the length of the array that they go to. -/
def pushStrs (size : Nat) : List Str → Nat → Stack → Except Stop (List Nat × Stack)
  | [], _, s => .ok ([], s)
  | str :: strs, k, s =>
    if k < size then do
      let s ← s.pushStr str
      let (ptrs, s') ← pushStrs size strs (k + 1) s
      .ok (s.sp :: ptrs, s')
    else .error .panic

end Stack

def randomBytes : List UInt8 := wordBytes [0x7be6f23c6eb43a7e, 0xb78b3ea1f7c8db96]

/-- The calls of `alloc_aux`, in order; `random` is the address of the random bytes. -/
def auxv (info : ElfInfo) (random : Nat) : List (Nat × Nat) :=
  [(16, 0),                                           -- AT_HWCAP
   (6, 4096),                                         -- AT_PAGESZ
   (3, (info.phoff + info.virtAddr).toNat),           -- AT_PHDR
   (4, info.phentsize.toNat),                         -- AT_PHENT
   (5, info.phnum.toNat),                             -- AT_PHNUM
   (7, info.base.toNat),                              -- AT_BASE
   (9, info.entry.toNat),                             -- AT_ENTRY
   (11, 0), (12, 0), (13, 0), (14, 0),                -- AT_UID, AT_EUID, AT_GID, AT_EGID
   (23, 0),                                           -- AT_SECURE
   (25, random),                                      -- AT_RANDOM
   (8, 0),                                            -- AT_FLAGS
   (0, 0)]                                            -- AT_NULL

/-- An address returned as an `int` and assigned to a `uint64` again. -/
def throughInt (sp : Nat) : Nat :=
  if sp % 2 ^ 32 < 2 ^ 31 then sp % 2 ^ 32 else sp % 2 ^ 32 + (2 ^ 64 - 2 ^ 32)

/-- `loadaux`: the pairs and a pair of zeros. -/
def loadAux (s : Stack) (aux : List (Nat × Nat)) : Except Stop Stack :=
  let sp := s.sp - (2 * aux.length + 2) * 8
  if sp < stackBase then .error .panic
  else
    let words := aux.flatMap (fun (t, v) => [t, v]) ++ [0, 0]
    let s := s.push sp (wordBytes words)
    if throughInt sp = 2 ^ 64 - 1 then .error .panic else .ok { s with sp := throughInt sp }

/-- The stack at the start of the program, and the auxiliary vector that was built. -/
structure Image where
  sp : Nat
  blocks : List Block
  aux : List (Nat × Nat)

/-- The part of `exec` that builds the stack. Its failures lead to `panic` at the end of `exec`. -/
def buildStack (info : ElfInfo) (args env : List Str) : Except Stop Image := do
  let s : Stack := ⟨USER_STACK_TOP - USER_STACK_TOP % 16, []⟩
  let (envp, s) ← s.pushStrs NENV env 0
  let (argv, s) ← s.pushStrs NARG args 0
  -- The last string of a loop also stores a zero behind its pointer.
  if NENV ≤ envp.length + 1 ∨ NARG ≤ argv.length + 1 then .error .overrun
  if s.sp - 16 < stackBase then .error .panic
  let s := s.push (s.sp - 16) randomBytes
  let aux := auxv info s.sp
  let s ← loadAux s aux
  let s :=
    if envp.length ≠ 0 then
      let sp := s.sp - (envp.length + 1) * 8
      s.push (sp - sp % 16) (wordBytes (envp ++ [0]))
    else s
  let sp := s.sp - (argv.length + 2) * 8
  let sp := sp - sp % 16
  if sp < stackBase then .error .panic
  let s := s.push sp (wordBytes (argv.length :: argv ++ [0]))
  .ok ⟨s.sp, s.blocks, aux⟩

/-! ## The arguments of `exec` -/

/-- A redirection token ends the argument list of the program. -/
def isRedirection (arg : Str) : Bool := arg == str ">" || arg == str ">>" || arg == str "|"

/-- `is_sh_script`. -/
def isShScript (path : Str) : Bool := (str ".sh").isSuffixOf path

/-- A shell script is run by the shell of busybox. -/
def execArgs (path : Str) (argv : List Str) : List Str :=
  if isShScript path || path == str "/tmp/hello" then
    str "busybox" :: str "sh" :: argv.take (MAXARG - 3)
  else argv

/-- `exec`, as far as the stack depends on it. -/
def exec (info : ElfInfo) (path : Str) (argv env : List Str) : Except Stop Image :=
  buildStack info ((execArgs path argv).takeWhile fun arg => !isRedirection arg) env

def ldPath : Str := str "LD_LIBRARY_PATH=/usr/lib:/lib:"

/-- The variables of the user that are kept: `LD_LIBRARY_PATH` is not. -/
def keptEnv (envp : List Str) : List Str := envp.filter fun e => !(str "LD_LIBRARY_PATH=").isPrefixOf e

/-- The loop of `sys_execve` over the environment: `n` variables are in the array of 20 so far. -/
def envLoop : List Str → Nat → Except Stop (List Str)
  | envp, n =>
    if 19 ≤ n then .error .panic
    else
      match envp with
      | [] => .ok []
      | e :: envp =>
        if (str "LD_LIBRARY_PATH=").isPrefixOf e then envLoop envp n
        else (envLoop envp (n + 1)).map (e :: ·)

/-- `sys_execve` from the strings of the user on. -/
def sysExecve (info : ElfInfo) (path : Str) (uargv uenvp : List Str) : Except Stop Image := do
  if MAXARG ≤ uargv.length then .error .panic
  let env ← envLoop uenvp 1
  exec info path uargv (ldPath :: env)

/-! ## The reader -/

/-- Words from `a` up to a zero, and where they end. -/
def readPtrs (m : Nat → UInt8) : Nat → Nat → Option (List Nat × Nat)
  | 0, _ => none
  | n + 1, a =>
    if readWord m a = 0 then some ([], a + 8)
    else (readPtrs m n (a + 8)).map fun (ptrs, stop) => (readWord m a :: ptrs, stop)

/-- Pairs of words from `a` up to and with one of type `AT_NULL`. -/
def readPairs (m : Nat → UInt8) : Nat → Nat → Option (List (Nat × Nat))
  | 0, _ => none
  | n + 1, a =>
    let pair := (readWord m a, readWord m (a + 8))
    if pair.1 = 0 then some [pair] else (readPairs m n (a + 16)).map (pair :: ·)

/-- What a program finds on its stack. -/
structure Startup where
  args : List Str
  env : List Str
  aux : List (Nat × Nat)
  deriving DecidableEq

/-- Reads the stack as the System V start-up code does; nothing it reads is longer than the stack. -/
def startup (m : Nat → UInt8) (sp : Nat) : Option Startup := do
  let argc := readWord m sp
  let argv := (List.range argc).map fun i => readWord m (sp + 8 + 8 * i)
  if readWord m (sp + 8 + 8 * argc) ≠ 0 then none
  let (envp, stop) ← readPtrs m USER_STACK_SIZE (sp + 8 + 8 * argc + 8)
  let aux ← readPairs m USER_STACK_SIZE stop
  let args ← argv.mapM (readStr m USER_STACK_SIZE)
  let env ← envp.mapM (readStr m USER_STACK_SIZE)
  some ⟨args, env, aux⟩

/-- The program starts with these strings, whatever was on the stack before: they and the auxiliary
vector are read back, the stack pointer is a multiple of 16, and no two areas overlap. -/
def Starts (r : Except Stop Image) (args env : List Str) : Prop :=
  ∃ img, r = .ok img ∧ (∀ m, startup (image m img.blocks) img.sp = some ⟨args, env, img.aux⟩) ∧
    img.sp % 16 = 0 ∧ img.blocks.Pairwise fun b c => b.1 + b.2.length ≤ c.1

end SC7.Exec
