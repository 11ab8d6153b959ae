-- SUMMARY: The futex queue (`futex.c`), the system calls on it and the scheduler's part, as sections between lock operations.
import SC7.Base.Run
import Mathlib.Data.List.FinRange
import Mathlib.Algebra.Group.Int.Defs
import Mathlib.Algebra.Group.Nat.Defs

/-!
# Futexes

One global table holds the waiters of all processes; `fq_lock` guards it. A thread that waits takes
the first free slot, goes to sleep and, when it runs again, frees that slot if it is still in use.
The comparison of the user word with the expected value is made by `sys_futex`, before the lock is
taken.

A step of the system is one section: the code of one thread, or of the scheduler, between two points
at which another thread may run.
-/

namespace SC7.Futex

open Function (update)

/-- Slots of the queue. -/
def FUTEX_COUNT : Nat := 2048

/-- A slot of the queue. -/
abbrev Slot := Fin FUTEX_COUNT

/-- A `thread_t *`. -/
abbrev Tid := Nat

/-- A `proc_t *`. -/
abbrev Pid := Nat

/-- `futex_queue_t`. -/
structure Entry where
  addr : UInt64
  thread : Tid
  valid : Bool
  bitset : UInt32
  deriving DecidableEq

/-- `enum thread_state`. -/
inductive ThreadState where
  | unused
  | used
  | sleeping
  | runnable
  | running
  | zombie
  | timing
  deriving DecidableEq

/-- `timespec_t`. -/
structure Timespec where
  tvSec : UInt64
  tvNsec : UInt64
  deriving DecidableEq

def Timespec.nanos (t : Timespec) : UInt64 := t.tvSec * 1000000000 + t.tvNsec

/-- Which of the two wait functions `sys_futex` is about to call: `futex_wait` with a relative time,
or `futex_wait_bitset` with an absolute one. -/
inductive WaitKind where
  | plain
  | bitset (bits : UInt32)
  deriving DecidableEq

/-- Where a thread is in its code. -/
inductive Place where
  /-- Outside the code below. -/
  | user
  /-- In `sys_futex`, after the comparison and before `fq_lock` is taken. -/
  | checked (addr : UInt64) (val : UInt32) (ts : Option Timespec) (kind : WaitKind)
  /-- In `futex_wait`, from the call of `sched()` to the section that clears slot `i`. -/
  | queued (i : Slot)
  /-- In `thread_exit`, after `futex_clear`. -/
  | exiting
  /-- In `thread_exit`, after the section of `current->lock`. -/
  | switching
  /-- `thread_exit` of the last thread goes on with `exit`. -/
  | procExit
  /-- `thread_exit` has switched to the scheduler. -/
  | gone
  deriving DecidableEq

/-- What the scheduler does with a thread. -/
inductive Cpu where
  /-- Switched out. -/
  | off
  /-- Chosen by `scheduler`, which has yet to call `futex_clear` and to switch to it. -/
  | chosen
  /-- Runs. -/
  | on
  deriving DecidableEq

/-- The fields of `thread_t` that the futex code uses, and where the thread is. -/
structure Thread where
  p : Pid
  state : ThreadState
  awakeTime : UInt64
  timeoutOccurred : Bool
  clearChildTid : UInt64
  place : Place
  cpu : Cpu

/-- The state of the system. `word p a` is what `copyin` reads at address `a` of process `p`;
`none` if it fails. -/
structure Sys where
  queue : Slot → Entry
  waitingCount : Int
  thread : Tid → Thread
  threadQueue : Pid → List Tid
  word : Pid → UInt64 → Option UInt32

namespace Sys

/-- Changes the record of one thread. -/
def setThread (s : Sys) (th : Tid) (t : Thread) : Sys :=
  { s with thread := update s.thread th t }

/-- Changes one slot. -/
def setSlot (s : Sys) (i : Slot) (e : Entry) : Sys :=
  { s with queue := update s.queue i e }

/-- The first slot that is not in use. -/
def freeSlot (s : Sys) : Option Slot := (List.finRange FUTEX_COUNT).find? fun i => !(s.queue i).valid

/-- `futex_wait` and `futex_wait_bitset` up to the switch in `sched()`; they differ in the bitset and
in what the time counts from. `none` is the panic for a full queue. -/
def futexWait (s : Sys) (addr : UInt64) (th : Tid) (ts : Option Timespec) (kind : WaitKind)
    (now : Timespec) : Option Sys :=
  s.freeSlot.map fun i =>
    let bits := match kind with
      | .plain => 0xffffffff
      | .bitset bits => bits
    let t := s.thread th
    let t := match ts, kind with
      | some ts, .plain => { t with awakeTime := ts.nanos + now.nanos, state := .timing }
      | some ts, .bitset _ => { t with awakeTime := ts.nanos, state := .timing }
      | none, _ => { t with awakeTime := 0, state := .sleeping }
    { s.setSlot i { addr, thread := th, valid := true, bitset := bits } with
      waitingCount := s.waitingCount + 1 }
      |>.setThread th { t with place := .queued i, cpu := .off }

/-- The last section of `futex_wait`: slot `i` is freed if it is in use, by whomever. -/
def cleanUp (s : Sys) (i : Slot) : Sys :=
  if (s.queue i).valid then
    { s.setSlot i { s.queue i with valid := false } with waitingCount := s.waitingCount - 1 }
  else s

/-- The body of the wake loops: the thread of slot `i` becomes runnable and leaves the queue. -/
def wakeEntry (s : Sys) (i : Slot) : Sys :=
  let e := s.queue i
  { s.setSlot i { e with valid := false } with waitingCount := s.waitingCount - 1 }
    |>.setThread e.thread { s.thread e.thread with state := .runnable, timeoutOccurred := false }

/-- The wake loops, over the slots that are left: the new state and how many were woken. -/
def wakeLoop (sel : Entry → Bool) : List Slot → Int → Sys → Sys × Int
  | [], _, s => (s, 0)
  | i :: is, n, s =>
    if 0 < n then
      if (s.queue i).valid && sel (s.queue i) then
        let (s', woken) := wakeLoop sel is (n - 1) (s.wakeEntry i)
        (s', woken + 1)
      else wakeLoop sel is n s
    else (s, 0)

def onAddr (addr : UInt64) (e : Entry) : Bool := e.addr == addr

def onBits (addr : UInt64) (bits : UInt32) (e : Entry) : Bool := e.addr == addr && e.bitset &&& bits != 0

/-- `futex_wake`. -/
def futexWake (s : Sys) (addr : UInt64) (n : Int) : Sys × Int :=
  wakeLoop (onAddr addr) (List.finRange FUTEX_COUNT) n s

/-- `futex_wake_bitset`. -/
def futexWakeBitset (s : Sys) (addr : UInt64) (n : Int) (bits : UInt32) : Sys × Int :=
  wakeLoop (onBits addr bits) (List.finRange FUTEX_COUNT) n s

/-- The second loop of `futex_cmp_requeue`. -/
def requeueLoop (addr newAddr : UInt64) : List Slot → Int → Sys → Sys × Int
  | [], _, s => (s, 0)
  | i :: is, n, s =>
    if 0 < n then
      if (s.queue i).valid && onAddr addr (s.queue i) then
        let (s', requeued) :=
          requeueLoop addr newAddr is (n - 1) (s.setSlot i { s.queue i with addr := newAddr })
        (s', requeued + 1)
      else requeueLoop addr newAddr is n s
    else (s, 0)

/-- `futex_cmp_requeue`. It does not read `expected_val`: the comparison is made by `sys_futex`. -/
def futexCmpRequeue (s : Sys) (addr newAddr : UInt64) (nrWake nrRequeue : Int) : Sys × Int :=
  let (s, woken) := wakeLoop (onAddr addr) (List.finRange FUTEX_COUNT) nrWake s
  let (s, requeued) := requeueLoop addr newAddr (List.finRange FUTEX_COUNT) nrRequeue s
  (s, woken + requeued)

/-- The slots that hold an entry of `th`. -/
def slotsOf (s : Sys) (th : Tid) : List Slot :=
  (List.finRange FUTEX_COUNT).filter fun i => (s.queue i).valid && (s.queue i).thread == th

/-- `futex_clear`: every slot of the thread is freed. -/
def futexClear (s : Sys) (th : Tid) : Sys :=
  { s with
    queue := fun i =>
      if (s.queue i).valid && (s.queue i).thread == th then { s.queue i with valid := false }
      else s.queue i
    waitingCount := s.waitingCount - (s.slotsOf th).length }

/-- `futex_init` leaves the queue so. -/
def emptyQueue : Slot → Entry := fun _ => ⟨0, 0, false, 0xffffffff⟩

/-! ## Sections -/

/-- `sys_futex`, `FUTEX_WAIT` and `FUTEX_WAIT_BITSET`, up to the call of the wait function. A
comparison that fails returns to the user. -/
def sysFutexCompare (s : Sys) (th : Tid) (addr : UInt64) (val : UInt32) (ts : Option Timespec)
    (kind : WaitKind) : Sys :=
  let t := s.thread th
  if kind = .bitset 0 then s
  else if s.word t.p addr = some val then
    s.setThread th { t with timeoutOccurred := false, place := .checked addr val ts kind }
  else s

/-- `th` is in the list of its process, and no thread of this process is on a CPU. -/
def canSchedule (s : Sys) (th : Tid) : Bool :=
  let queue := s.threadQueue (s.thread th).p
  th ∈ queue && queue.all fun u => (s.thread u).cpu = .off

/-- `scheduler` chooses a thread that is runnable or whose time is up. -/
def schedule (s : Sys) (th : Tid) (now : Timespec) : Option Sys :=
  let t := s.thread th
  match t.state with
  | .runnable => some (s.setThread th { t with state := .running, awakeTime := 0, cpu := .chosen })
  | .timing =>
    if t.awakeTime < now.nanos then
      some (s.setThread th { t with state := .running, awakeTime := 0, timeoutOccurred := true,
                                    cpu := .chosen })
    else none
  | _ => none

/-- `thread_exit`, the section of `current->lock`. -/
def exitTid (s : Sys) (th : Tid) : Sys :=
  let t := s.thread th
  let word :=
    if t.clearChildTid ≠ 0 ∧ s.word t.p t.clearChildTid ≠ none then
      update s.word t.p (update (s.word t.p) t.clearChildTid (some 0))
    else s.word
  { s with word }.setThread th { t with clearChildTid := 0, state := .zombie, place := .switching }

/-- The threads of `p` other than `th` that are not finished. -/
def activeThreads (s : Sys) (p : Pid) (th : Tid) : List Tid :=
  (s.threadQueue p).filter fun u =>
    (s.thread u).state ≠ .zombie && (s.thread u).state ≠ .unused && u ≠ th

/-- `thread_exit`, the section of `p->lock`. `sched()` panics for a thread that was interrupted since
it became a zombie, because `yield` made it runnable again. -/
def exitSwitch (s : Sys) (th : Tid) : Option Sys :=
  let t := s.thread th
  if (s.activeThreads t.p th).isEmpty then some (s.setThread th { t with place := .procExit })
  else if t.state = .running then none
  else some (s.setThread th { t with place := .gone, cpu := .off })

end Sys

/-- The sections of the system. The first thread named is the one that runs the section. -/
inductive Act where
  /-- User code, or the kernel, changes memory. -/
  | store (word : Pid → UInt64 → Option UInt32)
  | compare (th : Tid) (addr : UInt64) (val : UInt32) (ts : Option Timespec) (kind : WaitKind)
  | wait (th : Tid) (now : Timespec)
  | cleanUp (th : Tid)
  | wake (th : Tid) (addr : UInt64) (n : Int)
  | wakeBitset (th : Tid) (addr : UInt64) (n : Int) (bits : UInt32)
  | cmpRequeue (th : Tid) (addr newAddr : UInt64) (nrWake nrRequeue : Int)
  | schedule (th : Tid) (now : Timespec)
  /-- `scheduler` calls `futex_clear` for the thread it has chosen and switches to it. -/
  | switchTo (th : Tid)
  /-- `yield`, from a timer interrupt. -/
  | yield (th : Tid)
  /-- `tgkill` with `SIGCANCEL` makes a sleeping thread runnable. -/
  | tgkill (target : Tid)
  | exitClear (th : Tid)
  | exitTid (th : Tid)
  | exitSwitch (th : Tid)

namespace Sys

/-- `th` runs and is at `place`. -/
def At (s : Sys) (th : Tid) (place : Place) : Prop := (s.thread th).cpu = .on ∧ (s.thread th).place = place

instance (s : Sys) (th : Tid) (place : Place) : Decidable (s.At th place) :=
  inferInstanceAs (Decidable (_ ∧ _))

/-- One section; `none` if it cannot run in this state, or if it panics. -/
def step (s : Sys) : Act → Option Sys
  | .store word => some { s with word }
  | .compare th addr val ts kind =>
    if s.At th .user then some (s.sysFutexCompare th addr val ts kind) else none
  | .wait th now =>
    match (s.thread th).cpu, (s.thread th).place with
    | .on, .checked addr _ ts kind => s.futexWait addr th ts kind now
    | _, _ => none
  | .cleanUp th =>
    match (s.thread th).cpu, (s.thread th).place with
    | .on, .queued i => some ((s.cleanUp i).setThread th { s.thread th with place := .user })
    | _, _ => none
  | .wake th addr n => if s.At th .user then some (s.futexWake addr n).1 else none
  | .wakeBitset th addr n bits =>
    if s.At th .user then some (s.futexWakeBitset addr n bits).1 else none
  | .cmpRequeue th addr newAddr nrWake nrRequeue =>
    if s.At th .user then some (s.futexCmpRequeue addr newAddr nrWake nrRequeue).1 else none
  | .schedule th now => if s.canSchedule th then s.schedule th now else none
  | .switchTo th =>
    if (s.thread th).cpu = .chosen then
      some ((s.futexClear th).setThread th { s.thread th with cpu := .on })
    else none
  | .yield th =>
    if (s.thread th).cpu = .on then
      some (s.setThread th { s.thread th with state := .runnable, cpu := .off })
    else none
  | .tgkill target =>
    if (s.thread target).state = .sleeping then
      some (s.setThread target { s.thread target with state := .runnable })
    else none
  | .exitClear th =>
    if s.At th .user then
      some ((s.futexClear th).setThread th { s.thread th with place := .exiting })
    else none
  | .exitTid th => if s.At th .exiting then some (s.exitTid th) else none
  | .exitSwitch th => if s.At th .switching then s.exitSwitch th else none

end Sys

/-- After `futex_init`: no thread is in the code above, and none sleeps. -/
structure Boot (s : Sys) : Prop where
  queue : s.queue = Sys.emptyQueue
  waitingCount : s.waitingCount = 0
  place : ∀ th, (s.thread th).place = .user
  awake : ∀ th, (s.thread th).state ≠ .sleeping ∧ (s.thread th).state ≠ .timing

end SC7.Futex
