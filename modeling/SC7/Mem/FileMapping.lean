-- SUMMARY: Private file mappings down to their bytes: what a page fault leaves in memory, and the runs on one mapping.
import SC7.Mem.Brk

/-!
# Private file mappings

`Space` has the page tables and leaves the bytes out. Here the handler of page faults works on a machine with the
bytes: a copy on write moves those of the old page, a private file mapping gets those of the file that its
descriptor refers to at this moment, and a page of the handler's own is zeroed.

A run is about one mapping. The user reads and writes it and faults in it, and `close`, `dup2` and `open` change
what its descriptor refers to.
-/

namespace SC7.FileMapping

open Space
open Function (update)

/-- An address space with the bytes of physical memory, the bytes of the open files (zero behind their ends), and
the pages that other address spaces map. -/
structure Machine extends Space where
  mem : Nat → UInt8
  content : Int → Nat → UInt8
  others : Nat → Bool

/-- Memory with new bytes in a page. -/
def setPage (pa : Nat) (bytes mem : Nat → UInt8) : Nat → UInt8 := fun a =>
  if pa ≤ a ∧ a < pa + PGSIZE then bytes (a - pa) else mem a

/-! ## The handler -/

section Fault

variable (arch : Arch)

/-- `handle_cow_write`: the new page gets the bytes of the old one, which is not given back. -/
def handleCowWrite (va : Nat) (m : Machine) : Bool × Machine :=
  let (copied, s) := m.toSpace.handleCowWrite arch va
  let bytes := fun o => m.mem ((m.pte va).pa + o)
  (copied, { m with toSpace := s, mem := if copied then setPage m.alloc.1 bytes m.mem else m.mem })

/-- The bytes of the page at `va` after the first `bytesRead` were read from the file. -/
def fileBytes (v : Vma) (va : Nat) (bytesRead : Int) (content : Nat → UInt8) : Nat → UInt8 := fun o =>
  let toRead := min (sub64 v.end_ va) PGSIZE
  if o < toRead ∧ (o : Int) < bytesRead then content (v.offset va + o) else 0

/-- The fault at a private file mapping. The zeros for a page that is not there go to the null pointer, which is a
panic. -/
def faultFile (env : FileEnv) (v : Vma) (va : Nat) (m : Machine) : Option (Option Sig × Machine) :=
  if env.lseek < 0 then some (none, m)
  else
    (m.walkaddr arch va).bind fun pa =>
      if env.read va < 0 then some (none, { m with toSpace := m.free pa })
      else if pa = 0 then none
      else some (none, { m with mem := setPage pa (fileBytes v va (env.read va) (m.content v.fd)) m.mem })

/-- The segment has no page yet at the place of the fault, and the handler asks for one. -/
def needsPage (addr va : Nat) (v : Vma) (s : Space) : Prop :=
  let seg := s.shm v.shmKernel
  let idx := sub64 va v.addr / PGSIZE
  ¬sub64 addr v.addr > v.fsize ∧ ¬idx ≥ (seg.size + PGSIZE - 1) % 2 ^ 64 / PGSIZE ∧
    (seg.shmPages.getD []).getD idx 0 = 0

instance (addr va : Nat) (v : Vma) (s : Space) : Decidable (needsPage addr va v s) :=
  inferInstanceAs (Decidable (_ ∧ _ ∧ _))

/-- The fault at a shared segment. -/
def faultShared (addr va : Nat) (v : Vma) (m : Machine) : Option (Option Sig × Machine) :=
  (m.toSpace.faultShared arch addr va v).map fun (sig, s) =>
    (sig, { m with
      toSpace := s
      mem := if needsPage addr va v m.toSpace then setPage m.alloc.1 (fun _ => 0) m.mem else m.mem })

/-- The last part of `pagefault_handler`. The page is zeroed also where it is not mapped. -/
def faultGeneric (va : Nat) (m : Machine) : Option (Option Sig × Machine) :=
  (m.toSpace.faultGeneric arch va).map fun (sig, s) =>
    (sig, { m with
      toSpace := s
      mem := if m.alloc.1 % PGSIZE = 0 then setPage m.alloc.1 (fun _ => 0) m.mem else m.mem })

/-- `pagefault_handler(addr)`. -/
def pagefaultHandler (env : FileEnv) (addr : Nat) (m : Machine) : Option (Option Sig × Machine) :=
  let va := pgRoundDown addr
  match findVma addr m.vmas with
  | none => if addr ≤ m.sz then faultGeneric arch va m else some (some .SIGSEGV, m)
  | some v =>
    if v.origProt = PROT_NONE then some (some .SIGSEGV, m)
    else
      let isPrivate := hasBits v.flags MAP_PRIVATE
      let (copied, m) :=
        if isPrivate ∧ (m.pte va).valid ∧ ¬Bits.has (m.pte va).flags (PTE_W arch) then
          handleCowWrite arch va m
        else (false, m)
      if copied ∧ v.fd = -1 then some (none, m)
      else if isPrivate ∧ v.fd ≠ -1 ∧ (m.ofile v.fd).isSome then faultFile arch env v va m
      else if v.type = .SHARE ∧ v.shmKernel ≠ NULL then faultShared arch addr va v m
      else faultGeneric arch va m

/-- The page faults in `usertrap`, as in `Space.usertrapFault`. -/
def usertrapFault (env : FileEnv) (access : Access) (addr : Nat) (m : Machine) : Option (Space.Outcome × Machine) :=
  let handled := (pagefaultHandler arch env addr m).map fun (sig, m) =>
    (match sig with
      | none => Space.Outcome.resumed
      | some sig => Space.Outcome.signalled sig, m)
  match arch, access with
  | .riscv, .fetch => some (.killed, m)
  | .riscv, _ => handled
  | .loongarch, .fetch => none
  | .loongarch, .load => if (m.pte addr).valid then none else handled
  | .loongarch, .store => handled

end Fault

/-! ## The address space of the machine -/

section Refines

variable {arch : Arch} {env : FileEnv} {v : Vma} {va addr : Nat} {m m' : Machine} {sig : Option Sig}

theorem faultFile_space (h : faultFile arch env v va m = some (sig, m')) :
    m.toSpace.faultFile arch env va = some (sig, m'.toSpace) := by
  unfold faultFile at h
  unfold Space.faultFile
  cases hwalk : m.walkaddr arch va <;> grind

theorem faultShared_space (h : faultShared arch addr va v m = some (sig, m')) :
    m.toSpace.faultShared arch addr va v = some (sig, m'.toSpace) := by
  grind [faultShared, Option.map_eq_some_iff]

theorem faultGeneric_space (h : faultGeneric arch va m = some (sig, m')) :
    m.toSpace.faultGeneric arch va = some (sig, m'.toSpace) := by
  grind [faultGeneric, Option.map_eq_some_iff]

/-- Where the handler of the machine returns, its address space is what that of `Space` makes of it. -/
theorem pagefaultHandler_space (h : pagefaultHandler arch env addr m = some (sig, m')) :
    m.toSpace.pagefaultHandler arch env addr = some (sig, m'.toSpace) := by
  have hcow (c : Prop) [Decidable c] (va : Nat) : (if c then m.toSpace.handleCowWrite arch va else (false, m.toSpace)) =
      Prod.map id Machine.toSpace (if c then handleCowWrite arch va m else (false, m)) := by
    split <;> rfl
  unfold pagefaultHandler at h
  unfold Space.pagefaultHandler
  simp only [hcow]
  grind [faultFile_space, faultShared_space, faultGeneric_space]

end Refines

/-! ## Runs on a mapping -/

/-- A private file mapping: its area, its length, and the bytes of the file that was mapped (zero behind its end). -/
structure Mapping where
  vma : Vma
  len : Nat
  original : Nat → UInt8
  file : vma.fd ≠ -1
  notShared : ¬TakesShared vma
  inside : vma.addr + len ≤ vma.end_

namespace Mapping

variable (M : Mapping)

def Has (x : Nat) : Prop := M.vma.addr ≤ x ∧ x < M.vma.addr + M.len

/-- The byte of the mapped file that belongs to an address. -/
def fileByte (x : Nat) : UInt8 := M.original (M.vma.offset x)

/-- What is to be read: the last byte written, or that of the file. -/
def value (written : Nat → Option UInt8) (x : Nat) : UInt8 := (written x).getD (M.fileByte x)

end Mapping

/-- Where the byte of a user address is in memory. -/
def Machine.address (m : Machine) (x : Nat) : Nat := (m.pte x).pa + x % PGSIZE

/-- The machine with the bytes that were written through the mapping, and the pages that were replaced and neither
freed nor mapped elsewhere. -/
structure State where
  machine : Machine
  written : Nat → Option UInt8
  lost : Set Nat

/-- Another page or another address space maps the physical page. -/
def MappedElsewhere (m : Machine) (k pa : Nat) : Prop :=
  m.others pa = true ∨ ∃ q, q ≠ k ∧ (m.leaf q).valid = true ∧ (m.leaf q).pa = pa

/-- The physical page that page `k` has lost, if it is neither freed nor mapped elsewhere. -/
def dropped (k : Nat) (m m' : Machine) : Set Nat :=
  {pa | (m.leaf k).valid = true ∧ (m.leaf k).pa = pa ∧ (m'.leaf k).pa ≠ pa ∧
    ¬m.freed.count pa < m'.freed.count pa ∧ ¬MappedElsewhere m' k pa}

/-- What the allocator hands out: whole pages, each one once, and none that is in use. -/
def Hands (m : Machine) : Prop :=
  ∀ n, m.supply n ≠ NULL → m.supply n % PGSIZE = 0 ∧
    (∀ q, (m.leaf q).valid = true → (m.leaf q).pa ≠ m.supply n) ∧ ∀ n', m.supply n' = m.supply n → n' = n

/-- The pages that the allocator will hand out and those that others map, when the fault comes. -/
def Machine.meanwhile (supply : Nat → Nat) (others : Nat → Bool) (m : Machine) : Machine :=
  { m with supply, others }

/-- `close`, `dup2` or `open` of a descriptor: it refers to nothing or to some file. -/
def Machine.setFile (fd : Int) (file : Option (File × (Nat → UInt8))) (m : Machine) : Machine :=
  { m with
    ofile := update m.ofile fd (file.map (·.1))
    content := match file with
      | none => m.content
      | some (_, bytes) => update m.content fd bytes }

inductive Op where
  | load (x : Nat)
  | store (x : Nat) (b : UInt8)
  | descriptor (file : Option (File × (Nat → UInt8)))
  | fault (env : FileEnv) (access : Access) (x : Nat) (supply : Nat → Nat) (others : Nat → Bool)

/-- A step on the mapping. A page fault comes where the processor does not permit the access. -/
inductive Step (arch : Arch) (M : Mapping) : Op → State → State → Prop
  | load {s : State} {x : Nat} (hx : M.Has x) (hok : permits arch .load (s.machine.pte x) = true) :
      Step arch M (.load x) s s
  | store {s : State} {x : Nat} {b : UInt8} (hx : M.Has x)
      (hok : permits arch .store (s.machine.pte x) = true) :
      Step arch M (.store x b) s
        { s with
          machine := { s.machine with mem := update s.machine.mem (s.machine.address x) b }
          written := update s.written x (some b) }
  | descriptor {s : State} {file : Option (File × (Nat → UInt8))} :
      Step arch M (.descriptor file) s { s with machine := s.machine.setFile M.vma.fd file }
  | fault {s : State} {env : FileEnv} {access : Access} {x : Nat} {supply : Nat → Nat} {others : Nat → Bool}
      {outcome : Space.Outcome} {m : Machine} (hx : M.Has x) (hfault : permits arch access (s.machine.pte x) = false)
      (hands : Hands (s.machine.meanwhile supply others))
      (h : usertrapFault arch env access x (s.machine.meanwhile supply others) = some (outcome, m)) :
      Step arch M (.fault env access x supply others) s
        { s with
          machine := m
          lost := s.lost ∪ dropped (x / PGSIZE) (s.machine.meanwhile supply others) m }

/-- The pages of the mapping that are there hold what is to be read. -/
structure Holds (M : Mapping) (value : Nat → UInt8) (m : Machine) : Prop where
  area : M.vma ∈ m.vmas
  sorted : Vma.Sorted m.vmas
  aligned : ∀ x, M.Has x → (m.pte x).valid = true → (m.pte x).pa % PGSIZE = 0
  apart : ∀ x y, M.Has x → M.Has y → (m.pte x).valid = true → (m.pte y).valid = true →
    (m.pte x).pa = (m.pte y).pa → x / PGSIZE = y / PGSIZE
  bytes : ∀ x, M.Has x → (m.pte x).valid = true → m.mem (m.address x) = value x

/-- A mapping as `mmap` leaves it: each page that is there holds its part of the file. -/
structure Starts (M : Mapping) (s : State) : Prop where
  holds : Holds M M.fileByte s.machine
  written : s.written = fun _ => none
  lost : s.lost = ∅

/-- Each byte reads as the last one written, or as that of the file, and no page was lost. -/
structure Right (arch : Arch) (M : Mapping) (s : State) : Prop where
  contents : ∀ x, M.Has x → permits arch .load (s.machine.pte x) = true →
    s.machine.mem (s.machine.address x) = M.value s.written x
  nothingLost : s.lost = ∅

/-- When a fault does no harm. -/
structure Harmless (arch : Arch) (M : Mapping) (env : FileEnv) (x : Nat) (m : Machine) : Prop where
  /-- A page that is copied is mapped elsewhere: the copy does not give it back. -/
  copied : CowCopies arch x M.vma m.toSpace → MappedElsewhere m (x / PGSIZE) (m.pte x).pa
  /-- Where the page is read once more, the descriptor gives the bytes of the file that was mapped. -/
  read : M.vma.origProt ≠ PROT_NONE → TakesFile M.vma m.toSpace → (m.pte x).valid = true → 0 ≤ env.lseek →
    0 ≤ env.read (pgRoundDown x) ∧ ∀ y, M.Has y → y / PGSIZE = x / PGSIZE →
      fileBytes M.vma (pgRoundDown x) (env.read (pgRoundDown x)) (m.content M.vma.fd) (y % PGSIZE) = M.fileByte y
  /-- A page that comes without the file stands for zeros. -/
  fresh : M.vma.origProt ≠ PROT_NONE → ¬TakesFile M.vma m.toSpace → (m.pte x).valid = false →
    ∀ y, M.Has y → y / PGSIZE = x / PGSIZE → M.fileByte y = 0

/-- The condition on a step. A fetch does not get to the handler. -/
def Meets (arch : Arch) (M : Mapping) (s : State) : Op → Prop
  | .fault env access x supply others => access ≠ .fetch → Harmless arch M env x (s.machine.meanwhile supply others)
  | _ => True

end SC7.FileMapping
