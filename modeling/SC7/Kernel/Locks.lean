-- SUMMARY: Spinlock discipline of the memory and process layer: which paths keep the locks, and which do not.
import SC7.Kernel.Process
import SC7.Mem.Space
import SC7.Mem.VmemLocks

/-!
# Spinlock discipline

`allocproc` and the two system calls for the CPU affinity, with the locks they
take, and the discipline of the whole layer. `allocproc` hands out a process
with its lock held; the affinity calls drop the lock of the process that
`getproc` finds, which `getproc` does not take.
-/

namespace SC7.Spin

open Locks
open Process (NPROC PID_MAX ProcState)

/-! ## User memory -/

/-- The type of access that `access_ok` checks. -/
inductive Verify where
  | read
  | write
  deriving DecidableEq, Repr

section User

variable (arch : Arch)

/-- What `access_ok` asks of an entry. -/
def entryOk (type : Verify) (pte : Pte) : Bool := pte.valid && Bits.has pte.flags (PTE_U arch) &&
    match type, arch with
    | .write, _ => Bits.has pte.flags (PTE_W arch)
    | .read, .riscv => Bits.has pte.flags (PTE_R arch)
    | .read, .loongarch => !Bits.has pte.flags PTE_NR

def accessLoop (w : Nat → WalkSeen) (type : Verify) (end_ : Nat) : Nat → Nat → Kernel Bool
  | 0, _ => Act.die
  | n + 1, current =>
    if current < end_ then do
      match ← walk arch (w current) current false with
      | none => return false
      | some pte =>
        if entryOk arch type pte then accessLoop w type end_ n (add64 current PGSIZE)
        else return false
    else return true

/-- The caller is a process in a system call, so it has a page table. -/
def accessOk (w : Nat → WalkSeen) (type : Verify) (addr size : Nat) : Kernel Bool :=
  let end_ := add64 addr size
  if addr > MAXVA arch ∨ end_ > MAXVA arch ∨ end_ < addr then return false
  else accessLoop arch w type end_ (size / PGSIZE + 3) (pgRoundDown addr)

def walkaddr (w : WalkSeen) (va : Nat) : Kernel Nat :=
  if va > MAXVA arch then Act.die
  else do
    match ← walk arch w va false with
    | none => return 0
    | some pte =>
      if pte.valid = false then return 0
      else if Bits.has pte.flags (PTE_U arch) = false then return 0
      else return pte.pa

/-- The loop of `copyin` and `copyout`: the user address, then the bytes that are left. -/
def copyLoop (w : Nat → WalkSeen) : Nat → Nat → Nat → Kernel Int
  | 0, _, _ => Act.die
  | fuel + 1, va, len =>
    if len = 0 then return 0
    else do
      let va0 := pgRoundDown va
      let pa0 ← walkaddr arch (w va0) va0
      if pa0 = 0 then return -1
      else copyLoop w fuel (add64 va0 PGSIZE) (len - min (PGSIZE - (va - va0)) len)

/-- `copyin(pt, dst, srcva, len)`. -/
def copyin (w : Nat → WalkSeen) (srcva len : Nat) : Kernel Int :=
  if srcva > MAXVA arch then Act.die else copyLoop arch w (len + 1) srcva len

/-- `copyout(pt, dstva, src, len)`. -/
def copyout (w : Nat → WalkSeen) (dstva len : Nat) : Kernel Int :=
  if dstva > MAXVA arch then Act.die else copyLoop arch w (len + 1) dstva len

end User

/-! ## CPU affinity -/

abbrev NCPU : Nat := 8
abbrev EFAULT : Int := 14
abbrev ESRCH : Int := 3
abbrev EPERM : Int := 1

/-- `sizeof(cpu_set_t)`. -/
abbrev cpuSetSize : Nat := 8

/-- What the affinity calls find: the page table of the caller at the check and at the copy, the
word at the user's address, the process IDs and effective user IDs of the table, the caller's slot. -/
structure AffinitySeen where
  check : Nat → WalkSeen
  copy : Nat → WalkSeen
  mask : Nat
  pid : Nat → Int
  euid : Nat → Nat
  me : Nat

section Affinity

variable (arch : Arch) (seen : AffinitySeen)

/-- `getproc(pid)`, which takes no lock. -/
def getproc (pid : Int) : Option Nat := (List.range NPROC).find? fun p => seen.pid p = pid

/-- Only root and the owner may name another process. -/
def Denied (p : Nat) : Prop := p ≠ seen.me ∧ seen.euid seen.me ≠ 0 ∧ seen.euid seen.me ≠ seen.euid p

instance (p : Nat) : Decidable (Denied seen p) := inferInstanceAs (Decidable (_ ∧ _ ∧ _))

/-- The choice of the process in both calls; `act` is what follows. -/
def withTarget (pid : Int) (act : Nat → Kernel Int) : Kernel Int :=
  if pid = 0 then act seen.me
  else
    match getproc seen pid with
    | none => return -ESRCH
    | some p =>
      if Denied seen p then do
        release (.proc p)
        return -EPERM
      else act p

/-- "If the target is not the current process, drop the lock". -/
def dropTarget (p : Nat) (r : Int) : Kernel Int :=
  if p ≠ seen.me then do
    release (.proc p)
    return r
  else return r

def sysSchedSetaffinity (pid : Int) (cpusetsize cpuset : Nat) : Kernel Int :=
  if cpusetsize < cpuSetSize then return -EINVAL
  else do
    let ok ← accessOk arch seen.check .read cpuset cpuSetSize
    if ok = false then return -EFAULT
    else do
      let r ← copyin arch seen.copy cpuset cpuSetSize
      if r < 0 then return -EFAULT
      else if seen.mask = 0 then return -EINVAL
      -- a bit above the last CPU
      else if seen.mask >>> NCPU ≠ 0 then return -EINVAL
      else withTarget seen pid fun p => dropTarget seen p 0

def sysSchedGetaffinity (pid : Int) (cpusetsize cpuset : Nat) : Kernel Int :=
  if cpusetsize < cpuSetSize then return -EINVAL
  else do
    let ok ← accessOk arch seen.check .write cpuset cpuSetSize
    if ok = false then return -EFAULT
    else
      withTarget seen pid fun p => do
        let r ← copyout arch seen.copy cpuset cpuSetSize
        if r < 0 then dropTarget seen p (-EFAULT) else dropTarget seen p 0

end Affinity

/-! ## `allocproc` -/

/-- What `allocproc` finds: the process table, the next process ID, the allocator at each request,
the tables on the way of each mapping, and the first free thread. -/
structure ProcSeen where
  state : Nat → ProcState
  counter : Int
  trapframe : AllocSeen
  table : AllocSeen
  head : AllocSeen
  area : AllocSeen
  walk : Nat → Nat → WalkSeen
  trampoline : Nat
  sigtrampoline : Nat
  thread : Option Nat
  threadframe : AllocSeen

section Process

variable (arch : Arch) (seen : ProcSeen)

def allocpid : Kernel Int := do
  let pid ← locked .pid (return seen.counter)
  return if pid > PID_MAX then -1 else pid

/-- `kalloc()`. -/
def kalloc (seen : AllocSeen) : Kernel Nat := do
  let ptr ← pmemAllocPages seen 1
  if ptr = NULL then Act.die else return ptr

/-- The anchor of the list and the empty area behind it. -/
def vmaInit : Kernel Unit := do
  let _ ← kalloc seen.head
  let _ ← kalloc seen.area
  return ()

/-- The results of `mappages` are not looked at. -/
def procPagetable (trapframe : Nat) : Kernel Nat := do
  let pagetable ← pmemAllocPages seen.table 1
  if pagetable = NULL then return NULL
  else do
    vmaInit seen
    let _ ← mappages arch (seen.walk 0) (TRAMPOLINE arch) seen.trampoline PGSIZE
    let _ ← mappages arch (seen.walk 1) (TRAPFRAME arch) trapframe PGSIZE
    let _ ← mappages arch (seen.walk 2) (SIGTRAMPOLINE arch) seen.sigtrampoline PGSIZE
    return pagetable

def allocThread : Kernel Nat :=
  match seen.thread with
  | none => Act.die
  | some t => do
      let _ ← locked (.thread t) (kalloc seen.threadframe)
      return t

/-- The rest of `allocproc` once it has a process ID. -/
def setupproc : Kernel Unit := do
  let trapframe ← kalloc seen.trapframe
  let _ ← procPagetable arch seen trapframe
  let _ ← allocThread seen
  return ()

def foundproc (p : Nat) : Kernel (Option Nat) := do
  let pid ← allocpid seen
  -- `p->lock` is still held here
  if pid < 0 then return none
  else do
    setupproc arch seen
    return some p

def allocprocLoop : Nat → Nat → Kernel (Option Nat)
  | 0, _ => return none
  | n + 1, p => do
      acquire (.proc p)
      if seen.state p = .unused then foundproc arch seen p
      else do
        release (.proc p)
        allocprocLoop n (p + 1)

def allocproc : Kernel (Option Nat) := allocprocLoop arch seen NPROC 0

end Process

/-! ## User memory and the callees of `allocproc` -/

section Callees

variable {arch : Arch} {w : Nat → WalkSeen} {type : Verify} {va len : Nat} {seen : ProcSeen}

theorem accessLoop_keeps {end_ n current : Nat} :
    Locks.Keeps memoryLocks (accessLoop arch w type end_ n current) := by
  induction n generalizing current with
  | zero => exact keeps_die
  | succ n ih =>
    rw [accessLoop]
    split
    · apply walk_keeps.bind
      intro pte
      cases pte with
      | none => exact keeps_pure
      | some pte =>
        dsimp only
        split
        · exact ih
        · exact keeps_pure
    · exact keeps_pure

theorem accessOk_keeps {addr size : Nat} : Locks.Keeps memoryLocks (accessOk arch w type addr size) := by
  rw [accessOk]
  split
  · exact keeps_pure
  · exact accessLoop_keeps

theorem walkaddr_keeps {w : WalkSeen} : Locks.Keeps memoryLocks (walkaddr arch w va) := by
  rw [walkaddr]
  split
  · exact keeps_die
  apply walk_keeps.bind
  intro pte
  cases pte with
  | none => exact keeps_pure
  | some pte =>
    dsimp only
    split
    · exact keeps_pure
    split
    · exact keeps_pure
    · exact keeps_pure

theorem copyLoop_keeps {fuel : Nat} : Locks.Keeps memoryLocks (copyLoop arch w fuel va len) := by
  induction fuel generalizing va len with
  | zero => exact keeps_die
  | succ fuel ih =>
    rw [copyLoop]
    split
    · exact keeps_pure
    apply walkaddr_keeps.bind
    intro pa0
    split
    · exact keeps_pure
    · exact ih

theorem copyin_keeps {srcva : Nat} : Locks.Keeps memoryLocks (copyin arch w srcva len) := by
  rw [copyin]
  split
  · exact keeps_die
  · exact copyLoop_keeps

theorem copyout_keeps {dstva : Nat} : Locks.Keeps memoryLocks (copyout arch w dstva len) := by
  rw [copyout]
  split
  · exact keeps_die
  · exact copyLoop_keeps

/-- The locks that `allocproc` takes for the process it has found. -/
def initLocks (seen : ProcSeen) : Lock → Prop
  | .proc _ => False
  | .thread t => seen.thread = some t
  | _ => True

theorem memory_init (l : Lock) (h : memoryLocks l) : initLocks seen l := by
  rcases h with rfl | rfl
  · trivial
  · trivial

theorem kalloc_keeps {seen : AllocSeen} : Locks.Keeps buddyLock (kalloc seen) := by
  apply pmemAllocPages_keeps.bind
  intro ptr
  split
  · exact keeps_die
  · exact keeps_pure

theorem allocpid_keeps : Locks.Keeps (· = .pid) (allocpid seen) := by
  refine Locks.Keeps.bind ?_ fun _ => keeps_pure
  exact Locks.Keeps.locked (keeps_pure (S := fun _ => False)) id (fun _ h => h.elim) rfl

theorem procPagetable_keeps {trapframe : Nat} : Locks.Keeps memoryLocks (procPagetable arch seen trapframe) := by
  have hkalloc : ∀ seen, Locks.Keeps memoryLocks (kalloc seen) := fun _ => kalloc_keeps.mono fun _ => .inl
  apply (pmemAllocPages_keeps.mono fun _ => .inl).bind
  intro pagetable
  split
  · exact keeps_pure
  apply Locks.Keeps.bind
  · apply (hkalloc _).bind
    intro _
    exact (hkalloc _).bind fun _ => keeps_pure
  intro _
  apply mappages_keeps.bind
  intro _
  apply mappages_keeps.bind
  intro _
  exact mappages_keeps.bind fun _ => keeps_pure

theorem allocThread_keeps : Locks.Keeps (initLocks seen) (allocThread seen) := by
  rw [allocThread]
  cases ht : seen.thread with
  | none => exact keeps_die
  | some t =>
    refine Locks.Keeps.bind ?_ fun _ => keeps_pure
    exact kalloc_keeps.locked nofun (fun l h => memory_init l (.inl h)) ht

theorem setupproc_keeps : Locks.Keeps (initLocks seen) (setupproc arch seen) := by
  apply (kalloc_keeps.mono fun l h => memory_init l (.inl h)).bind
  intro trapframe
  apply (procPagetable_keeps.mono memory_init).bind
  intro _
  exact allocThread_keeps.bind fun _ => keeps_pure

end Callees

/-! ## `allocproc` -/

section Allocproc

variable {arch : Arch} {seen : ProcSeen} {c : Cpu Lock}

/-- The locks that `allocproc` takes. -/
def allocprocLocks (seen : ProcSeen) : Lock → Prop
  | .proc p => p < NPROC
  | l => initLocks seen l

/-- A process comes with its lock held. -/
def givesLock : Option Nat → List Lock
  | some p => [.proc p]
  | none => []

/-- If there is a free process, there is a process ID for it. -/
def AllocprocMeets (seen : ProcSeen) : Prop :=
  (∃ p < NPROC, seen.state p = .unused) → 0 ≤ seen.counter ∧ seen.counter ≤ PID_MAX

/-- `allocpid`, as the caller sees it. -/
theorem outcome_allocpid :
    outcome (allocpid seen) = some (if seen.counter > PID_MAX then -1 else seen.counter) := rfl

theorem foundproc_kept {p : Nat} (hc : c.Avoids (allocprocLocks seen)) :
    (foundproc arch seen p ⟨.proc p :: c.held, c.noff + 1⟩).Kept givesLock c ↔
      0 ≤ seen.counter ∧ seen.counter ≤ PID_MAX := by
  have hinside : Cpu.Avoids (initLocks seen) ⟨.proc p :: c.held, c.noff + 1⟩ := by
    intro l hl hmem
    rcases List.mem_cons.mp hmem with rfl | hmem
    · exact hl
    · refine hc l ?_ hmem
      cases l with
      | proc q => exact hl.elim
      | buddy | vmem | pid | thread t => exact hl
  have hpid : Cpu.Avoids (· = .pid) (⟨.proc p :: c.held, c.noff + 1⟩ : Cpu Lock) := by
    rintro l rfl
    exact hinside .pid trivial
  rw [foundproc, bind_returned (allocpid_keeps.returned hpid outcome_allocpid)]
  by_cases hneg : (if seen.counter > PID_MAX then -1 else seen.counter) < 0
  · rw [if_pos hneg]
    have hbad : ¬(0 ≤ seen.counter ∧ seen.counter ≤ PID_MAX) := by
      rintro ⟨h0, hmax⟩
      rw [if_neg (by omega)] at hneg
      omega
    refine ⟨fun hkept => ?_, fun h => absurd h hbad⟩
    have hlen := hkept.1.length_eq
    simp [givesLock] at hlen
  · rw [if_neg hneg]
    have hok : 0 ≤ seen.counter ∧ seen.counter ≤ PID_MAX := by
      split at hneg
      · exact absurd (show (-1 : Int) < 0 by decide) hneg
      · omega
    refine ⟨fun _ => hok, fun _ => ?_⟩
    cases ho : outcome (setupproc arch seen) with
    | none => exact kept_died (bind_died (setupproc_keeps.died hinside ho))
    | some r =>
      rw [bind_returned (setupproc_keeps.returned hinside ho), pure_apply]
      exact ⟨.refl _, Nat.add_comm _ _⟩

theorem allocprocLoop_kept {n p : Nat} (hc : c.Avoids (allocprocLocks seen)) (hn : p + n ≤ NPROC) :
    (allocprocLoop arch seen n p c).Kept givesLock c ↔
      ((∃ q, p ≤ q ∧ q < p + n ∧ seen.state q = .unused) → 0 ≤ seen.counter ∧ seen.counter ≤ PID_MAX) := by
  induction n generalizing p with
  | zero =>
    refine ⟨fun _ ⟨q, h1, h2, _⟩ => by omega, fun _ => ⟨.refl _, (Nat.zero_add _).symm⟩⟩
  | succ n ih =>
    rw [allocprocLoop, bind_returned (acquire_apply (hc (.proc p) (show p < NPROC by omega)))]
    by_cases hp : seen.state p = .unused
    · rw [if_pos hp, foundproc_kept hc]
      exact ⟨fun h _ => h, fun h => h ⟨p, le_rfl, by omega, hp⟩⟩
    · rw [if_neg hp, bind_returned release_head, ih (by omega)]
      constructor
      · rintro h ⟨q, h1, h2, hq⟩
        have hne : q ≠ p := by
          rintro rfl
          exact hp hq
        exact h ⟨q, by omega, by omega, hq⟩
      · rintro h ⟨q, h1, h2, hq⟩
        exact h ⟨q, by omega, by omega, hq⟩

theorem allocproc_disciplined (hc : c.Avoids (allocprocLocks seen)) :
    Disciplined givesLock (allocproc arch seen) c ↔ AllocprocMeets seen := by
  rw [Disciplined, allocproc, allocprocLoop_kept hc (by omega)]
  constructor
  · rintro h ⟨p, hlt, hp⟩
    exact h ⟨p, Nat.zero_le p, by omega, hp⟩
  · rintro h ⟨p, -, hlt, hp⟩
    exact h ⟨p, by omega, hp⟩

end Allocproc

/-! ## CPU affinity -/

section Affinity

variable {arch : Arch} {seen : AffinitySeen} {c : Cpu Lock} {r pid : Int} {cpusetsize cpuset : Nat}

/-- The process ID names a process other than the caller. -/
def NamesOther (seen : AffinitySeen) (pid : Int) : Prop :=
  pid ≠ 0 ∧ ∃ p, getproc seen pid = some p ∧ p ≠ seen.me

/-- A call that passes its checks is about the caller itself, or about no process. -/
def SetaffinityMeets (arch : Arch) (seen : AffinitySeen) (pid : Int) (cpusetsize cpuset : Nat) : Prop :=
  cpuSetSize ≤ cpusetsize → outcome (accessOk arch seen.check .read cpuset cpuSetSize) = some true →
  (∃ r, outcome (copyin arch seen.copy cpuset cpuSetSize) = some r ∧ 0 ≤ r) →
  seen.mask ≠ 0 → seen.mask >>> NCPU = 0 → ¬NamesOther seen pid

/-- The same for the other call, unless the copy dies before the lock is dropped. -/
def GetaffinityMeets (arch : Arch) (seen : AffinitySeen) (pid : Int) (cpusetsize cpuset : Nat) : Prop :=
  cpuSetSize ≤ cpusetsize → outcome (accessOk arch seen.check .write cpuset cpuSetSize) = some true →
  NamesOther seen pid →
  (∀ p, getproc seen pid = some p → ¬Denied seen p) ∧
    outcome (copyout arch seen.copy cpuset cpuSetSize) = none

/-- Dropping a lock that was not taken is a panic, or takes a lock from the caller. -/
theorem not_kept_release {l : Lock} : ¬((release l >>= fun _ => pure r : Kernel Int) c).Kept noLocks c := by
  cases h : release l c with
  | returned a c' =>
    rw [bind_returned h, pure_apply]
    exact fun hkept => release_changes c a c' h hkept.1
  | fault e => exact not_kept_fault (bind_fault h)
  | died =>
    by_cases hl : l ∈ c.held
    · rw [release, bind_returned (show drop l c = _ from if_pos hl), popOff] at h
      split at h <;> cases h
    · rw [release_not_held hl] at h
      cases h

/-- The lock is dropped for every process but the caller. -/
theorem dropTarget_kept {p : Nat} : (dropTarget seen p r c).Kept noLocks c ↔ p = seen.me := by
  rw [dropTarget]
  split
  · rename_i hne
    exact ⟨fun h => absurd h not_kept_release, fun h => absurd h hne⟩
  · rename_i heq
    exact ⟨fun _ => not_not.mp heq, fun _ => kept_same rfl⟩

theorem withTarget_kept {act : Nat → Kernel Int} : (withTarget seen pid act c).Kept noLocks c ↔
      (pid = 0 → (act seen.me c).Kept noLocks c) ∧
      (pid ≠ 0 → ∀ p, getproc seen pid = some p → ¬Denied seen p ∧ (act p c).Kept noLocks c) := by
  rw [withTarget]
  by_cases hpid : pid = 0
  · rw [if_pos hpid]
    exact ⟨fun h => ⟨fun _ => h, fun hne => absurd hpid hne⟩, fun h => h.1 hpid⟩
  · rw [if_neg hpid]
    cases hp : getproc seen pid with
    | none => exact ⟨fun _ => ⟨fun h => absurd h hpid, fun _ p h => nomatch h⟩, fun _ => kept_same rfl⟩
    | some p =>
      dsimp only
      by_cases hdenied : Denied seen p
      · rw [if_pos hdenied]
        exact ⟨fun h => absurd h not_kept_release, fun h => absurd hdenied (h.2 hpid p rfl).1⟩
      · rw [if_neg hdenied]
        constructor
        · intro h
          refine ⟨fun h0 => absurd h0 hpid, fun _ q hq => ?_⟩
          cases hq
          exact ⟨hdenied, h⟩
        · exact fun h => (h.2 hpid p rfl).2

theorem setaffinity_disciplined (hc : c.Avoids memoryLocks) :
    Disciplined noLocks (sysSchedSetaffinity arch seen pid cpusetsize cpuset) c ↔
      SetaffinityMeets arch seen pid cpusetsize cpuset := by
  rw [Disciplined, sysSchedSetaffinity]
  by_cases hsize : cpusetsize < cpuSetSize
  · rw [if_pos hsize]
    exact ⟨fun _ h => absurd hsize (Nat.not_lt.mpr h), fun _ => kept_same rfl⟩
  rw [if_neg hsize]
  cases hok : outcome (accessOk arch seen.check .read cpuset cpuSetSize) with
  | none =>
    rw [bind_died (accessOk_keeps.died hc hok)]
    refine ⟨fun _ _ h => ?_, fun _ => trivial⟩
    rw [hok] at h
    cases h
  | some ok =>
    rw [bind_returned (accessOk_keeps.returned hc hok)]
    cases ok with
    | false =>
      rw [if_pos rfl]
      refine ⟨fun _ _ h => ?_, fun _ => kept_same rfl⟩
      rw [hok] at h
      cases h
    | true =>
      rw [if_neg (by decide)]
      cases hr : outcome (copyin arch seen.copy cpuset cpuSetSize) with
      | none =>
        rw [bind_died (copyin_keeps.died hc hr)]
        refine ⟨fun _ _ _ hcopied => ?_, fun _ => trivial⟩
        obtain ⟨r, h, -⟩ := hcopied
        rw [hr] at h
        cases h
      | some r =>
        rw [bind_returned (copyin_keeps.returned hc hr)]
        by_cases hneg : r < 0
        · rw [if_pos hneg]
          refine ⟨fun _ _ _ hcopied => ?_, fun _ => kept_same rfl⟩
          obtain ⟨r', h, hr'⟩ := hcopied
          rw [hr] at h
          cases h
          omega
        rw [if_neg hneg]
        by_cases hmask : seen.mask = 0
        · rw [if_pos hmask]
          exact ⟨fun _ _ _ _ h => absurd hmask h, fun _ => kept_same rfl⟩
        rw [if_neg hmask]
        by_cases hhigh : seen.mask >>> NCPU ≠ 0
        · rw [if_pos hhigh]
          exact ⟨fun _ _ _ _ _ h => absurd h hhigh, fun _ => kept_same rfl⟩
        rw [if_neg hhigh, withTarget_kept]
        constructor
        · rintro ⟨-, hother⟩ _ _ _ _ _ ⟨hpid, p, hp, hne⟩
          exact hne (dropTarget_kept.mp (hother hpid p hp).2)
        · intro hm
          have hsame := hm (Nat.not_lt.mp hsize) hok ⟨r, hr, by omega⟩ hmask (not_not.mp hhigh)
          refine ⟨fun _ => dropTarget_kept.mpr rfl, fun hpid p hp => ?_⟩
          have heq : p = seen.me := by
            by_contra hne
            exact hsame ⟨hpid, p, hp, hne⟩
          exact ⟨fun hd => hd.1 heq, dropTarget_kept.mpr heq⟩

theorem getaffinity_disciplined (hc : c.Avoids memoryLocks) :
    Disciplined noLocks (sysSchedGetaffinity arch seen pid cpusetsize cpuset) c ↔
      GetaffinityMeets arch seen pid cpusetsize cpuset := by
  -- what follows the choice of the process
  have hact : ∀ p, ((do
      let r ← copyout arch seen.copy cpuset cpuSetSize
      if r < 0 then dropTarget seen p (-EFAULT) else dropTarget seen p 0 : Kernel Int) c).Kept noLocks c ↔
        (outcome (copyout arch seen.copy cpuset cpuSetSize) = none ∨ p = seen.me) := by
    intro p
    cases hr : outcome (copyout arch seen.copy cpuset cpuSetSize) with
    | none =>
      rw [bind_died (copyout_keeps.died hc hr)]
      exact ⟨fun _ => .inl rfl, fun _ => trivial⟩
    | some r =>
      rw [bind_returned (copyout_keeps.returned hc hr)]
      split
      · exact dropTarget_kept.trans ⟨.inr, fun h => h.resolve_left nofun⟩
      · exact dropTarget_kept.trans ⟨.inr, fun h => h.resolve_left nofun⟩
  rw [Disciplined, sysSchedGetaffinity]
  by_cases hsize : cpusetsize < cpuSetSize
  · rw [if_pos hsize]
    exact ⟨fun _ h => absurd hsize (Nat.not_lt.mpr h), fun _ => kept_same rfl⟩
  rw [if_neg hsize]
  cases hok : outcome (accessOk arch seen.check .write cpuset cpuSetSize) with
  | none =>
    rw [bind_died (accessOk_keeps.died hc hok)]
    refine ⟨fun _ _ h => ?_, fun _ => trivial⟩
    rw [hok] at h
    cases h
  | some ok =>
    rw [bind_returned (accessOk_keeps.returned hc hok)]
    cases ok with
    | false =>
      rw [if_pos rfl]
      refine ⟨fun _ _ h => ?_, fun _ => kept_same rfl⟩
      rw [hok] at h
      cases h
    | true =>
      rw [if_neg (by decide), withTarget_kept, hact]
      constructor
      · rintro ⟨-, hother⟩ _ _ ⟨hpid, p, hp, hne⟩
        obtain ⟨hallowed, hkept⟩ := hother hpid p hp
        refine ⟨fun q hq => ?_, ((hact p).mp hkept).resolve_right hne⟩
        rw [hp] at hq
        cases hq
        exact hallowed
      · intro hm
        refine ⟨fun _ => .inr rfl, fun hpid p hp => ?_⟩
        by_cases heq : p = seen.me
        · exact ⟨fun hd => hd.1 heq, (hact p).mpr (.inr heq)⟩
        · obtain ⟨hallowed, hdies⟩ := hm (Nat.not_lt.mp hsize) hok ⟨hpid, p, hp, heq⟩
          exact ⟨hallowed p hp, (hact p).mpr (.inl hdies)⟩

end Affinity

/-! ## The discipline of the layer -/

/-- A call of one of the functions, with everything it finds: first the ones that callers outside
the layer use, then the functions that these call. -/
inductive Call where
  | buddyFree (s : Pmem) (ptr : Nat) (order : Int)
  | uvmalloc (arch : Arch) (seen : GrowSeen) (oldsz newsz : Nat)
  | uvmalloc1 (arch : Arch) (seen : GrowSeen) (start end_ : Nat)
  | uvmcopy (arch : Arch) (seen : CopySeen) (virtAddr sz : Nat)
  | allocproc (arch : Arch) (seen : ProcSeen)
  | setaffinity (arch : Arch) (seen : AffinitySeen) (pid : Int) (cpusetsize cpuset : Nat)
  | getaffinity (arch : Arch) (seen : AffinitySeen) (pid : Int) (cpusetsize cpuset : Nat)
  | buddyAlloc (s : Pmem) (order : Int)
  | pmemAllocPages (seen : AllocSeen) (npages : Int)
  | pmemFreePages (heap : Heap) (ptr : Nat) (npages : Int)
  | walkInternal (arch : Arch) (w : WalkSeen) (va : Nat) (alloc : Bool)
  | walk (arch : Arch) (w : WalkSeen) (va : Nat) (alloc : Bool)
  | mappagesInternal (arch : Arch) (w : Nat → WalkSeen) (va pa len : Nat)
  | mappages (arch : Arch) (w : Nat → WalkSeen) (va pa len : Nat)
  | vmunmap (arch : Arch) (seen : UnmapSeen) (va npages : Nat) (doFree : Bool)
  | freeVma (vmas : Option (List VmaSeen)) (start end_ : Nat)
  | uvmdealloc (arch : Arch) (seen : GrowSeen) (oldsz newsz : Nat)
  | uvmdealloc1 (arch : Arch) (seen : GrowSeen) (start end_ : Nat)
  | allocpid (seen : ProcSeen)
  | procPagetable (arch : Arch) (seen : ProcSeen) (trapframe : Nat)
  | allocThread (seen : ProcSeen)
  | accessOk (arch : Arch) (w : Nat → WalkSeen) (type : Verify) (addr size : Nat)
  | copyin (arch : Arch) (w : Nat → WalkSeen) (srcva len : Nat)
  | copyout (arch : Arch) (w : Nat → WalkSeen) (dstva len : Nat)

namespace Call

/-- The locks that the function takes. -/
def Takes : Call → Lock → Prop
  | buddyFree .. | buddyAlloc .. | pmemAllocPages .. | pmemFreePages .. | walkInternal ..
  | mappagesInternal .. | freeVma .. => buddyLock
  | uvmalloc .. | uvmalloc1 .. | uvmcopy .. | setaffinity .. | getaffinity .. | walk .. | mappages ..
  | vmunmap .. | uvmdealloc .. | uvmdealloc1 .. | procPagetable .. | accessOk .. | copyin ..
  | copyout .. => memoryLocks
  | allocproc _ seen => allocprocLocks seen
  | allocThread seen => initLocks seen
  | allocpid _ => (· = .pid)

/-- Called on `c`, the function acquires no lock that is held, drops none that is not, and returns
with the locks of the call; `allocproc` returns a process with its lock held. -/
def Disciplined (c : Cpu Lock) : Call → Prop
  | buddyFree s ptr order => Locks.Disciplined noLocks (Spin.buddyFree s ptr order) c
  | uvmalloc arch seen oldsz newsz => Locks.Disciplined noLocks (Spin.uvmalloc arch seen oldsz newsz) c
  | uvmalloc1 arch seen start end_ => Locks.Disciplined noLocks (Spin.uvmalloc1 arch seen start end_) c
  | uvmcopy arch seen virtAddr sz => Locks.Disciplined noLocks (Spin.uvmcopy arch seen virtAddr sz) c
  | allocproc arch seen => Locks.Disciplined givesLock (Spin.allocproc arch seen) c
  | setaffinity arch seen pid cpusetsize cpuset =>
    Locks.Disciplined noLocks (sysSchedSetaffinity arch seen pid cpusetsize cpuset) c
  | getaffinity arch seen pid cpusetsize cpuset =>
    Locks.Disciplined noLocks (sysSchedGetaffinity arch seen pid cpusetsize cpuset) c
  | buddyAlloc s order => Locks.Disciplined noLocks (Spin.buddyAlloc s order) c
  | pmemAllocPages seen npages => Locks.Disciplined noLocks (Spin.pmemAllocPages seen npages) c
  | pmemFreePages heap ptr npages => Locks.Disciplined noLocks (Spin.pmemFreePages heap ptr npages) c
  | walkInternal arch w va alloc => Locks.Disciplined noLocks (Spin.walkInternal arch w va alloc) c
  | walk arch w va alloc => Locks.Disciplined noLocks (Spin.walk arch w va alloc) c
  | mappagesInternal arch w va pa len =>
    Locks.Disciplined noLocks (Spin.mappagesInternal arch w va pa len) c
  | mappages arch w va pa len => Locks.Disciplined noLocks (Spin.mappages arch w va pa len) c
  | vmunmap arch seen va npages doFree =>
    Locks.Disciplined noLocks (Spin.vmunmap arch seen va npages doFree) c
  | freeVma vmas start end_ => Locks.Disciplined noLocks (Spin.freeVma vmas start end_) c
  | uvmdealloc arch seen oldsz newsz =>
    Locks.Disciplined noLocks (Spin.uvmdealloc arch seen oldsz newsz) c
  | uvmdealloc1 arch seen start end_ =>
    Locks.Disciplined noLocks (Spin.uvmdealloc1 arch seen start end_) c
  | allocpid seen => Locks.Disciplined noLocks (Spin.allocpid seen) c
  | procPagetable arch seen trapframe =>
    Locks.Disciplined noLocks (Spin.procPagetable arch seen trapframe) c
  | allocThread seen => Locks.Disciplined noLocks (Spin.allocThread seen) c
  | accessOk arch w type addr size => Locks.Disciplined noLocks (Spin.accessOk arch w type addr size) c
  | copyin arch w srcva len => Locks.Disciplined noLocks (Spin.copyin arch w srcva len) c
  | copyout arch w dstva len => Locks.Disciplined noLocks (Spin.copyout arch w dstva len) c

/-- The call does not come to one of the exits that mistreat a lock. -/
def Meets : Call → Prop
  | buddyFree s ptr order =>
    ptr ≠ NULL → 0 ≤ order → order ≤ BUDDY_MAX_ORDER → s.pageIdx ptr < s.totalPages → ¬AlreadyFreed s ptr
  | uvmalloc arch seen oldsz newsz => UvmallocMeets arch seen oldsz newsz
  | uvmalloc1 arch seen start end_ => Uvmalloc1Meets arch seen start end_
  | uvmcopy arch seen virtAddr sz => UvmcopyMeets arch seen virtAddr sz
  | allocproc _ seen => AllocprocMeets seen
  | setaffinity arch seen pid cpusetsize cpuset => SetaffinityMeets arch seen pid cpusetsize cpuset
  | getaffinity arch seen pid cpusetsize cpuset => GetaffinityMeets arch seen pid cpusetsize cpuset
  | _ => True

end Call

/-- Called without the locks that it takes, a function keeps the discipline exactly if it does not
come to one of the exits of `Call.Meets`; the functions that are only called by others always do. -/
theorem lock_discipline (call : Call) (c : Cpu Lock) (hc : c.Avoids call.Takes) :
    call.Disciplined c ↔ call.Meets := by
  cases call with
  | buddyFree s ptr order => exact buddyFree_disciplined hc
  | uvmalloc arch seen oldsz newsz => exact uvmalloc_disciplined hc
  | uvmalloc1 arch seen start end_ => exact uvmalloc1_disciplined hc
  | uvmcopy arch seen virtAddr sz => exact uvmcopy_disciplined hc
  | allocproc arch seen => exact allocproc_disciplined hc
  | setaffinity arch seen pid cpusetsize cpuset => exact setaffinity_disciplined hc
  | getaffinity arch seen pid cpusetsize cpuset => exact getaffinity_disciplined hc
  | buddyAlloc s order => exact iff_true_intro (buddyAlloc_keeps.disciplined hc)
  | pmemAllocPages seen npages => exact iff_true_intro (pmemAllocPages_keeps.disciplined hc)
  | pmemFreePages heap ptr npages => exact iff_true_intro (pmemFreePages_keeps.disciplined hc)
  | walkInternal arch w va alloc => exact iff_true_intro (walkInternal_keeps.disciplined hc)
  | walk arch w va alloc => exact iff_true_intro (walk_keeps.disciplined hc)
  | mappagesInternal arch w va pa len => exact iff_true_intro (mappagesInternal_keeps.disciplined hc)
  | mappages arch w va pa len => exact iff_true_intro (mappages_keeps.disciplined hc)
  | vmunmap arch seen va npages doFree => exact iff_true_intro (vmunmap_keeps.disciplined hc)
  | freeVma vmas start end_ => exact iff_true_intro (freeVma_keeps.disciplined hc)
  | uvmdealloc arch seen oldsz newsz => exact iff_true_intro (uvmdealloc_keeps.disciplined hc)
  | uvmdealloc1 arch seen start end_ => exact iff_true_intro (uvmdealloc1_keeps.disciplined hc)
  | allocpid seen => exact iff_true_intro (allocpid_keeps.disciplined hc)
  | procPagetable arch seen trapframe => exact iff_true_intro (procPagetable_keeps.disciplined hc)
  | allocThread seen => exact iff_true_intro (allocThread_keeps.disciplined hc)
  | accessOk arch w type addr size => exact iff_true_intro (accessOk_keeps.disciplined hc)
  | copyin arch w srcva len => exact iff_true_intro (copyin_keeps.disciplined hc)
  | copyout arch w dstva len => exact iff_true_intro (copyout_keeps.disciplined hc)

/-- A page that the user may read and write. -/
def userPage : WalkSeen where
  root := true
  level := fun _ => .next
  pte := ⟨0x80000000, PTE_V ||| PTE_R .riscv ||| PTE_W .riscv ||| PTE_U .riscv⟩

/-- Two processes of root, with the IDs 1 and 2; the first calls with the mask 1. -/
def twoProcs : AffinitySeen where
  check := fun _ => userPage
  copy := fun _ => userPage
  mask := 1
  pid := fun p => p + 1
  euid := fun _ => 0
  me := 0

/-- The first of the two processes sets its own affinity: the condition holds, and the locks are kept. -/
theorem lock_discipline_own :
    (Call.setaffinity .riscv twoProcs 1 8 0x1000).Disciplined ⟨[], 0⟩ ∧
      (Call.setaffinity .riscv twoProcs 1 8 0x1000).Meets := by
  have hmeets : (Call.setaffinity .riscv twoProcs 1 8 0x1000).Meets := by
    rintro - - - - - ⟨-, p, hp, hne⟩
    have hfirst : getproc twoProcs 1 = some 0 := by decide
    rw [hfirst] at hp
    cases hp
    exact hne rfl
  exact ⟨(lock_discipline _ ⟨[], 0⟩ (fun _ _ h => nomatch h)).mpr hmeets, hmeets⟩

/-- The first process sets the affinity of the second: it drops a lock that it does not hold. -/
theorem setaffinity_drops_other :
    ¬(Call.setaffinity .riscv twoProcs 2 8 0x1000).Disciplined ⟨[], 0⟩ := by
  have hrun : sysSchedSetaffinity .riscv twoProcs 2 8 0x1000 ⟨[], 0⟩ = .fault (.notHeld (.proc 1)) := by
    rfl
  change ¬(sysSchedSetaffinity .riscv twoProcs 2 8 0x1000 ⟨[], 0⟩).Kept noLocks ⟨[], 0⟩
  exact not_kept_fault hrun

end SC7.Spin
