-- SUMMARY: Processes and their threads on several CPUs: `fork`, `exit`, `thread_exit`, `waitpid`, `kill` and the scheduler as sections between lock operations.
import SC7.Base.Run
import Mathlib.Data.Fin.Basic
import Mathlib.Algebra.Group.Int.Defs
import Mathlib.Algebra.Group.Nat.Defs

/-!
# Processes

A step is one section of the code: what one CPU does between two points at which another CPU, or after
an interrupt another thread, may come in. `exit` takes four sections: the check for other threads, the
section of `p->lock` that makes the process a zombie, the section of `parent_lock` that gives the
children to `init`, and the section of `p->lock` that ends in `sched()`.

The fields that only a proof looks at are marked as ghosts.
-/

namespace SC7.Process

open Function (update)

def NPROC : Nat := 128
def PID_MAX : Nat := 10000

theorem one_lt_NPROC : 1 < NPROC := by decide

/-- A place in `pool`. -/
abbrev Slot := Fin NPROC

/-- Identifies a thread. The number of a main thread is the process ID, and all come from `allocpid`. -/
abbrev Tid := Nat

/-- The slot of `initproc`. -/
def initproc : Slot := ⟨0, by decide⟩

/-- `enum procstate`. -/
inductive ProcState where
  | unused
  | used
  | sleeping
  | runnable
  | running
  | zombie
  deriving DecidableEq

/-- `enum thread_state`; a sleep with a time limit (`t_TIMING`) is a sleep that may end by itself. -/
inductive ThreadState where
  | unused
  | used
  | sleeping
  | runnable
  | running
  | zombie
  deriving DecidableEq

/-- Where a thread is in its code. -/
inductive Place where
  /-- In user mode, or in a part of the kernel that is not below. -/
  | user
  /-- In `fork`, after `allocproc`; `linked` once the child has its parent. -/
  | forking (np : Slot) (linked : Bool)
  /-- At the start of `exit(code)`; `arg` is what the program asked for. -/
  | exitCalled (arg code : Int)
  /-- At the start of `thread_exit(code)`. -/
  | leaving (arg code : Int)
  /-- In `thread_exit`, after the section of `current->lock`. -/
  | left (arg code : Int)
  /-- In `exit`, when it is clear that the process ends. -/
  | exiting (code : Int)
  /-- In `exit`, after the process has become a zombie. -/
  | published
  /-- In `exit`, after the section of `parent_lock`. -/
  | announced
  /-- Switched away for the last time. -/
  | gone
  deriving DecidableEq

/-- Why a process ended. -/
inductive Cause where
  | exited (arg : Int)
  | signaled (sig : Nat)
  deriving DecidableEq

/-- `struct proc`. -/
structure Proc where
  state : ProcState
  pid : Nat
  parent : Option Slot
  exitState : Int
  killed : Nat
  /-- Ghost: the process that called `fork`, noted with its first parent. -/
  forker : Nat
  /-- Ghost: why the process ends, from the point at which this is clear. -/
  cause : Option Cause

/-- `struct thread`. A thread structure that is used again counts as a new thread. -/
structure Thread where
  proc : Slot
  state : ThreadState
  place : Place
  /-- Ghost: the process that the thread was made for. -/
  pid : Nat

/-- Ghost: one successful `waitpid`. -/
structure Reaped where
  child : Nat
  reaper : Nat
  arg : Int
  status : Nat
  forker : Nat
  cause : Option Cause

/-- The process table, the threads and what each CPU runs. -/
structure Sys (n : Nat) where
  procs : Slot → Proc
  threads : Tid → Thread
  cpu : Fin n → Option Tid
  nextPid : Nat
  /-- Ghost: the successful calls of `waitpid`, the latest first. -/
  log : List Reaped
  /-- Ghost: the processes that have given their children to `init`. -/
  exited : List Nat

/-- A step: one section of the code of the thread on CPU `c`, or of the scheduler. -/
inductive Action (n : Nat) where
  | schedule (c : Fin n) (t : Tid)
  | yield (c : Fin n)
  | sleep (c : Fin n)
  | block (c : Fin n)
  | wakeup (p : Slot)
  | wakeThread (t : Tid)
  | allocproc (c : Fin n) (np : Slot)
  | link (c : Fin n)
  | start (c : Fin n)
  | clone (c : Fin n) (np : Slot)
  | cloneThread (c : Fin n)
  | callExit (c : Fin n) (arg : Int)
  | callExitGroup (c : Fin n) (status : Int)
  | callThreadExit (c : Fin n) (code : Int)
  | checkThreads (c : Fin n)
  | retire (c : Fin n)
  | switchThread (c : Fin n)
  | publish (c : Fin n)
  | announce (c : Fin n)
  | finish (c : Fin n)
  | waitpid (c : Fin n) (np : Slot) (pid : Int)
  | waitFault (c : Fin n) (np : Slot) (pid : Int)
  | kill (p : Slot) (sig : Nat) (dfl : Bool)
  | tgkill (p : Slot) (sig : Nat) (dfl : Bool)
  | setKilled (c : Fin n) (sig : Nat)

/-! ## The status word -/

def SIGQUIT : Nat := 3
def SIGILL : Nat := 4
def SIGTRAP : Nat := 5
def SIGABRT : Nat := 6
def SIGBUS : Nat := 7
def SIGFPE : Nat := 8
def SIGSEGV : Nat := 11
def SIGCONT : Nat := 18
def SIGSTOP : Nat := 19
def SIGXCPU : Nat := 24
def SIGXFSZ : Nat := 25
def SIGSYS : Nat := 31
def SIGRTMIN : Nat := 32
def SIGRTMAX : Nat := 64

/-- The signals for which `waitpid` sets the core dump flag. -/
def coreSignals : List Nat :=
  [SIGABRT, SIGSEGV, SIGBUS, SIGFPE, SIGILL, SIGTRAP, SIGQUIT, SIGSYS, SIGXCPU, SIGXFSZ]

/-- The `uint16_t` that `waitpid` stores. -/
def statusWord (killed : Nat) (exitState : Int) : Nat :=
  if killed ≠ 0 then
    if killed ∈ coreSignals then killed % 2 ^ 16 ||| 0x80 else killed % 2 ^ 16
  else (exitState % 256).toNat * 256

def WTERMSIG (status : Nat) : Nat := status &&& 0x7f
def WIFEXITED (status : Nat) : Prop := WTERMSIG status = 0
def WEXITSTATUS (status : Nat) : Nat := (status &&& 0xff00) / 256
def WIFSIGNALED (status : Nat) : Prop := 0 < status % 2 ^ 16 ∧ status % 2 ^ 16 < 0x100

/-- What a program reads from a status word. -/
def Decodes (status : Nat) : Cause → Prop
  | .exited arg => WIFEXITED status ∧ ¬ WIFSIGNALED status ∧ (WEXITSTATUS status : Int) = arg % 256
  | .signaled sig => WIFSIGNALED status ∧ ¬ WIFEXITED status ∧ WTERMSIG status = sig

/-- What `kill` makes of `p->killed`; `dfl` says that the signal has no handler. -/
def killUpdate (killed sig : Nat) (dfl : Bool) : Nat :=
  if sig = SIGCONT ∧ killed = SIGSTOP then 0
  else if dfl ∧ (sig < SIGRTMIN ∨ SIGRTMAX < sig) ∧ (killed = 0 ∨ sig < killed) then sig
  else killed

/-- What `tgkill` makes of it: real-time signals are no exception. -/
def tgkillUpdate (killed sig : Nat) (dfl : Bool) : Nat :=
  if sig = SIGCONT ∧ killed = SIGSTOP then 0
  else if dfl ∧ (killed = 0 ∨ sig < killed) then sig
  else killed

namespace Sys

variable {n : Nat}

/-- `myproc()` of a thread. -/
def procOf (s : Sys n) (t : Tid) : Proc := s.procs (s.threads t).proc

def setProc (s : Sys n) (p : Slot) (v : Proc) : Sys n := { s with procs := update s.procs p v }

def setThread (s : Sys n) (t : Tid) (v : Thread) : Sys n :=
  { s with threads := update s.threads t v }

/-- The CPU goes back to the scheduler. -/
def idle (s : Sys n) (c : Fin n) : Sys n := { s with cpu := update s.cpu c none }

/-- The thread goes on at another place. -/
def goto (s : Sys n) (t : Tid) (place : Place) : Sys n :=
  s.setThread t { s.threads t with place := place }

/-- The thread gives up CPU `c` in `sched()`: the states of the process and of the thread. -/
def sched (s : Sys n) (c : Fin n) (t : Tid) (pstate : ProcState) (tstate : ThreadState) : Sys n :=
  ((s.setProc (s.threads t).proc { s.procOf t with state := pstate }).setThread t
    { s.threads t with state := tstate }).idle c

/-- The thread is `p->main_thread`. -/
def IsMain (s : Sys n) (t : Tid) : Prop := t = (s.procOf t).pid

instance (s : Sys n) (t : Tid) : Decidable (s.IsMain t) := inferInstanceAs (Decidable (_ = _))

/-- `active_threads > 0`: another thread of the process is neither a zombie nor unused. -/
def OthersActive (s : Sys n) (t : Tid) : Prop :=
  ∃ t' < s.nextPid, t' ≠ t ∧ (s.threads t').proc = (s.threads t).proc ∧
    (s.threads t').state ≠ .zombie ∧ (s.threads t').state ≠ .unused

instance (s : Sys n) (t : Tid) : Decidable (s.OthersActive t) := by
  unfold OthersActive
  infer_instance

/-! ## The scheduler -/

/-- One round of the loop of `scheduler` that finds a thread. -/
def schedule (s : Sys n) (c : Fin n) (t : Tid) : Option (Sys n) :=
  if s.cpu c = none ∧ (s.procOf t).state = .runnable ∧ (s.threads t).state = .runnable then
    some { (s.setProc (s.threads t).proc { s.procOf t with state := .running }).setThread t
      { s.threads t with state := .running } with cpu := update s.cpu c (some t) }
  else none

/-- `yield`, from user mode or from a timer interrupt in the kernel, which checks that the process is
running. An exit whose thread has been freed is not followed into the interrupt. -/
def yield (s : Sys n) (c : Fin n) : Option (Sys n) := do
  let t ← s.cpu c
  if (s.procOf t).state = .running ∧ (s.threads t).state ≠ .unused then
    some (s.sched c t .runnable .runnable)
  else none

/-- `sleep_on_chan`. The sections of `exit` after the first do not sleep. -/
def sleep (s : Sys n) (c : Fin n) : Option (Sys n) := do
  let t ← s.cpu c
  match (s.threads t).place with
  | .user | .forking _ _ | .exiting _ => some (s.sched c t .sleeping .runnable)
  | _ => none

/-- A thread waits by itself (futex, `nanosleep`): the process stays runnable. -/
def block (s : Sys n) (c : Fin n) : Option (Sys n) := do
  let t ← s.cpu c
  match (s.threads t).place with
  | .user => some (s.sched c t .runnable .sleeping)
  | _ => none

/-- `wakeup`, for one process that sleeps. -/
def wakeup (s : Sys n) (p : Slot) : Option (Sys n) :=
  if (s.procs p).state = .sleeping then some (s.setProc p { s.procs p with state := .runnable })
  else none

/-- A waiting thread is woken, or its time is over. -/
def wakeThread (s : Sys n) (t : Tid) : Option (Sys n) :=
  if (s.threads t).state = .sleeping then some (s.setThread t { s.threads t with state := .runnable })
  else none

/-! ## New processes and threads -/

/-- `allocproc`, after it has found an unused slot. The parent is what `freeproc` left there. -/
def alloc (s : Sys n) (np : Slot) (parent : Option Slot) (forker : Nat) (pstate : ProcState)
    (tstate : ThreadState) : Sys n :=
  { (s.setProc np ⟨pstate, s.nextPid, parent, 0, 0, forker, none⟩).setThread s.nextPid
      ⟨np, tstate, .user, s.nextPid⟩ with nextPid := s.nextPid + 1 }

/-- `fork`: the section of `np->lock` that `allocproc` opens. -/
def allocproc (s : Sys n) (c : Fin n) (np : Slot) : Option (Sys n) := do
  let t ← s.cpu c
  if (s.threads t).place = .user ∧ (s.procs np).state = .unused ∧ s.nextPid ≤ PID_MAX then
    some ((s.alloc np (s.procs np).parent 0 .used .used).goto t (.forking np false))
  else none

/-- `fork`: the section of `parent_lock`. -/
def link (s : Sys n) (c : Fin n) : Option (Sys n) := do
  let t ← s.cpu c
  match (s.threads t).place with
  | .forking np false =>
    some ((s.setProc np { s.procs np with
      parent := some (s.threads t).proc
      forker := (s.procOf t).pid }).goto t (.forking np true))
  | _ => none

/-- `fork`: the last section of `np->lock`. -/
def start (s : Sys n) (c : Fin n) : Option (Sys n) := do
  let t ← s.cpu c
  match (s.threads t).place with
  | .forking np true =>
    let t' := (s.procs np).pid
    some (((s.goto t .user).setProc np { s.procs np with state := .runnable }).setThread t'
      { (s.goto t .user).threads t' with state := .runnable })
  | _ => none

/-- `clone` of a process: one section of `np->lock`. -/
def clone (s : Sys n) (c : Fin n) (np : Slot) : Option (Sys n) := do
  let t ← s.cpu c
  if (s.threads t).place = .user ∧ (s.procs np).state = .unused ∧ s.nextPid ≤ PID_MAX then
    some (s.alloc np (some (s.threads t).proc) (s.procOf t).pid .runnable .runnable)
  else none

/-- `clone_thread`. -/
def cloneThread (s : Sys n) (c : Fin n) : Option (Sys n) := do
  let t ← s.cpu c
  if (s.threads t).place = .user ∧ s.nextPid ≤ PID_MAX then
    some { s.setThread s.nextPid ⟨(s.threads t).proc, .runnable, .user, (s.threads t).pid⟩ with
      nextPid := s.nextPid + 1 }
  else none

/-! ## The end of a process -/

/-- `exit(code)` is called; `init` must not call it. -/
def callExit (s : Sys n) (c : Fin n) (arg code : Int) : Option (Sys n) := do
  let t ← s.cpu c
  if (s.threads t).place = .user ∧ (s.threads t).proc ≠ initproc then
    some (s.goto t (.exitCalled arg code))
  else none

/-- `thread_exit(code)` is called. -/
def callThreadExit (s : Sys n) (c : Fin n) (code : Int) : Option (Sys n) := do
  let t ← s.cpu c
  if (s.threads t).place = .user then some (s.goto t (.leaving code code)) else none

/-- `exit`: a thread that is not the main one and not the last goes on with `thread_exit`. -/
def checkThreads (s : Sys n) (c : Fin n) : Option (Sys n) := do
  let t ← s.cpu c
  match (s.threads t).place with
  | .exitCalled arg code =>
    if s.IsMain t ∨ ¬ s.OthersActive t then
      let cause := if (s.procOf t).killed ≠ 0 then .signaled (s.procOf t).killed else .exited arg
      some ((s.setProc (s.threads t).proc { s.procOf t with cause := some cause }).goto t
        (.exiting code))
    else some (s.goto t (.leaving arg code))
  | _ => none

/-- `thread_exit`: the section of `current->lock`. -/
def retire (s : Sys n) (c : Fin n) : Option (Sys n) := do
  let t ← s.cpu c
  match (s.threads t).place with
  | .leaving arg code =>
    some (s.setThread t { s.threads t with state := .zombie, place := .left arg code })
  | _ => none

/-- `thread_exit`: the section of `p->lock`. The last thread goes on with `exit`, which is not for
`init`; otherwise `sched` panics for a thread that was interrupted on the way and runs again. -/
def switchThread (s : Sys n) (c : Fin n) : Option (Sys n) := do
  let t ← s.cpu c
  match (s.threads t).place with
  | .left arg code =>
    if s.OthersActive t then
      if (s.threads t).state = .running then none
      else some ((s.goto t .gone).sched c t .runnable (s.threads t).state)
    else if (s.threads t).proc = initproc then none
    else some (s.goto t (.exitCalled arg code))
  | _ => none

/-- `exit`: the section of `p->lock` in which the process becomes a zombie. -/
def publish (s : Sys n) (c : Fin n) : Option (Sys n) := do
  let t ← s.cpu c
  match (s.threads t).place with
  | .exiting code =>
    some ((s.setProc (s.threads t).proc { s.procOf t with state := .zombie, exitState := code }).setThread
      t { s.threads t with state := .zombie, place := .published })
  | _ => none

/-- `reparent`. -/
def reparent (s : Sys n) (p : Slot) : Sys n :=
  { s with procs := fun child =>
      if (s.procs child).parent = some p then { s.procs child with parent := some initproc }
      else s.procs child }

/-- `exit`: the section of `parent_lock`. Who is woken there is left to `wakeup`. -/
def announce (s : Sys n) (c : Fin n) : Option (Sys n) := do
  let t ← s.cpu c
  match (s.threads t).place with
  | .published =>
    some { (s.reparent (s.threads t).proc).goto t .announced with
      exited := (s.threads t).pid :: s.exited }
  | _ => none

/-- `exit`: the last section of `p->lock`. `sched` panics if the process or the thread is running. -/
def finish (s : Sys n) (c : Fin n) : Option (Sys n) := do
  let t ← s.cpu c
  match (s.threads t).place with
  | .announced =>
    if (s.procOf t).state = .running ∨ (s.threads t).state = .running then none
    else some ((s.goto t .gone).idle c)
  | _ => none

/-! ## Waiting -/

/-- `freeproc`. -/
def freeproc (s : Sys n) (p : Slot) : Sys n :=
  { s with
    procs := update s.procs p ⟨.unused, 0, none, 0, 0, 0, none⟩
    threads := fun t =>
      if (s.threads t).proc = p then { s.threads t with state := .unused } else s.threads t }

/-- The visit of `waitpid(pid)` to a child finds a zombie that is waited for. -/
def Finds (s : Sys n) (t : Tid) (np : Slot) (pid : Int) : Prop :=
  (s.threads t).place = .user ∧ -1 ≤ pid ∧ (s.procs np).parent = some (s.threads t).proc ∧
    (pid = -1 ∨ ((s.procs np).pid : Int) = pid) ∧ (s.procs np).state = .zombie

instance (s : Sys n) (t : Tid) (np : Slot) (pid : Int) : Decidable (s.Finds t np pid) := by
  unfold Finds
  infer_instance

/-- The visit of `waitpid(pid)` to a zombie, with `parent_lock` and `np->lock` held: the status is
stored and the slot freed. -/
def waitpid (s : Sys n) (c : Fin n) (np : Slot) (pid : Int) : Option (Sys n) := do
  let t ← s.cpu c
  if s.Finds t np pid then
    let child := s.procs np
    some { s.freeproc np with
      log := ⟨child.pid, (s.procOf t).pid, pid, statusWord child.killed child.exitState, child.forker,
        child.cause⟩ :: s.log }
  else none

/-- The same visit, when the status cannot be stored: `-EFAULT`. -/
def waitFault (s : Sys n) (c : Fin n) (np : Slot) (pid : Int) : Option (Sys n) := do
  let t ← s.cpu c
  if s.Finds t np pid then some s else none

/-! ## Signals -/

/-- The section of `p->lock` of `kill` and `tgkill`, with the new value of `p->killed`. -/
def signal (s : Sys n) (p : Slot) (killed : Nat) : Sys n :=
  s.setProc p { s.procs p with
    killed := killed
    state := if (s.procs p).state = .sleeping then .runnable else (s.procs p).state }

/-- `kill`, for the process that it finds. -/
def kill (s : Sys n) (p : Slot) (sig : Nat) (dfl : Bool) : Option (Sys n) :=
  if (s.procs p).pid ≠ 0 ∧ sig < SIGRTMAX then some (s.signal p (killUpdate (s.procs p).killed sig dfl))
  else none

/-- `tgkill`, for the process that it finds. -/
def tgkill (s : Sys n) (p : Slot) (sig : Nat) (dfl : Bool) : Option (Sys n) :=
  if (s.procs p).pid ≠ 0 ∧ sig ≤ SIGRTMAX then some (s.signal p (tgkillUpdate (s.procs p).killed sig dfl))
  else none

/-- A process notes a fatal signal of its own, on the way back to user mode. -/
def setKilled (s : Sys n) (c : Fin n) (sig : Nat) : Option (Sys n) := do
  let t ← s.cpu c
  if (s.threads t).place = .user ∧ sig ≤ SIGRTMAX then
    some (s.setProc (s.threads t).proc { s.procOf t with killed := sig })
  else none

/-! ## Runs -/

/-- `none` if the step is not possible, or if it ends in `panic`. -/
def step (s : Sys n) : Action n → Option (Sys n)
  | .schedule c t => s.schedule c t
  | .yield c => s.yield c
  | .sleep c => s.sleep c
  | .block c => s.block c
  | .wakeup p => s.wakeup p
  | .wakeThread t => s.wakeThread t
  | .allocproc c np => s.allocproc c np
  | .link c => s.link c
  | .start c => s.start c
  | .clone c np => s.clone c np
  | .cloneThread c => s.cloneThread c
  | .callExit c arg => s.callExit c arg arg
  -- `sys_exit_group` calls `exit(0)`.
  | .callExitGroup c status => s.callExit c status 0
  | .callThreadExit c code => s.callThreadExit c code
  | .checkThreads c => s.checkThreads c
  | .retire c => s.retire c
  | .switchThread c => s.switchThread c
  | .publish c => s.publish c
  | .announce c => s.announce c
  | .finish c => s.finish c
  | .waitpid c np pid => s.waitpid c np pid
  | .waitFault c np pid => s.waitFault c np pid
  | .kill p sig dfl => s.kill p sig dfl
  | .tgkill p sig dfl => s.tgkill p sig dfl
  | .setKilled c sig => s.setKilled c sig

/-- Only `init` is there, ready to run. -/
def boot (n : Nat) : Sys n where
  procs p := if p = initproc then ⟨.runnable, 1, none, 0, 0, 0, none⟩ else ⟨.unused, 0, none, 0, 0, 0, none⟩
  threads t := if t = 1 then ⟨initproc, .runnable, .user, 1⟩ else ⟨initproc, .unused, .gone, 0⟩
  cpu _ := none
  nextPid := 2
  log := []
  exited := []

/-- A sequence of steps. -/
def run (s : Sys n) : List (Action n) → Option (Sys n)
  | [] => some s
  | a :: as => (s.step a).bind (·.run as)

end Sys

/-- One step of the machine. -/
def Step {n : Nat} (s s' : Sys n) : Prop := ∃ a, s.step a = some s'

/-- A sequence of steps is a run. -/
theorem Sys.reaches_of_run {n : Nat} {s s' : Sys n} {as : List (Action n)} (h : s.run as = some s') :
    Reaches Step s s' := by
  induction as generalizing s with
  | nil =>
    cases h
    exact .refl
  | cons a as ih =>
    obtain ⟨s₁, hstep, hrest⟩ := Option.bind_eq_some_iff.mp h
    exact .head ⟨a, hstep⟩ (ih hrest)

end SC7.Process
