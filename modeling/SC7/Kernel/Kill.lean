-- SUMMARY: `kill` and `tgkill`: what sending a signal does to its target, compared with what `handle_signal` makes of the same signal.
import SC7.Kernel.Process
import SC7.Kernel.SignalMask

/-!
# Sending signals

`kill` and `tgkill` (`process.c`) record the signal as pending and then decide for themselves whether
it terminates the target, from the handler alone. `handle_signal` decides the same question again when
the target returns to user mode. The value they give `p->killed` is that of `killUpdate` and
`tgkillUpdate`; here they are put in place and compared with `Task.handleSignal`.
-/

namespace SC7.Kill

open SC7.Process (killUpdate tgkillUpdate SIGRTMIN)
open SC7.Signal (Task Blocks sigBit SIGCHLD SIGCONT SIGSTOP SIGCANCEL SIGRTMAX)

/-- `enum procstate`. -/
inductive State where
  | unused
  | used
  | sleeping
  | runnable
  | running
  | zombie
  deriving DecidableEq

/-- A thread in the queue of a process. The process fields of `task` are not used: see `Proc.task`. -/
structure Thread where
  tid : Nat
  sleeping : Bool
  task : Task

/-- The fields of `struct proc` at stake. There always is a current thread. -/
structure Proc where
  pid : Nat
  ruid : UInt32
  euid : UInt32
  state : State
  killed : Nat
  stopped : Bool
  stopSignal : Nat
  continued : Bool
  threadNum : Nat
  thread : Fin threadNum → Thread
  current : Fin threadNum

def EPERM : Int := 1
def ESRCH : Int := 3

/-- `t->sig_pending |= 1UL << (sig - 1)`, for the signals that have a bit. -/
def Thread.pend (th : Thread) (sig : Nat) : Thread :=
  if 0 < sig ∧ sig ≤ 64 then
    { th with task := { th.task with sigPending := th.task.sigPending ||| sigBit sig } }
  else th

/-- A thread that sleeps is woken up for its cancellation. -/
def Thread.wakeForCancel (th : Thread) (sig : Nat) : Thread :=
  if sig = SIGCANCEL ∧ th.sleeping then { th with sleeping := false } else th

namespace Proc

variable (p : Proc)

/-- A thread of the process as `signal.c` sees it, with the fields of the process. -/
def task (i : Fin p.threadNum) : Task :=
  { (p.thread i).task with
    zombie := p.state = .zombie
    killed := p.killed
    stopped := p.stopped
    stopSignal := p.stopSignal
    continued := p.continued }

/-- The signal has no handler in the thread. -/
def dfl (i : Fin p.threadNum) (sig : Nat) : Bool := ((p.thread i).task.sigaction sig).handler = 0

/-- The common part of both functions: thread `i` is now `th` and `p->killed` is `killed`; a process
that sleeps gets up. -/
def receive (i : Fin p.threadNum) (th : Thread) (sig killed : Nat) : Proc :=
  { p with
    thread := Function.update p.thread i th
    killed
    continued := if sig = SIGCONT ∧ p.killed = SIGSTOP then true else p.continued
    state := if p.state = .sleeping then .runnable else p.state }

/-- `kill`, for the process that it finds. -/
def kill (sig : Nat) : Proc :=
  p.receive p.current ((p.thread p.current).pend sig) sig (killUpdate p.killed sig (p.dfl p.current sig))

/-- `tgkill`, for the thread that it finds. The handler it asks for is that of the current thread. -/
def tgkill (i : Fin p.threadNum) (sig : Nat) : Proc :=
  p.receive i (((p.thread i).pend sig).wakeForCancel sig) sig
    (tgkillUpdate p.killed sig (p.dfl p.current sig))

/-- The sender may signal the process. -/
def Permits (sender : UInt32) : Prop := sender = 0 ∨ sender = p.euid ∨ sender = p.ruid

instance (sender : UInt32) : Decidable (p.Permits sender) :=
  inferInstanceAs (Decidable (sender = 0 ∨ sender = p.euid ∨ sender = p.ruid))

/-- The first thread of the queue with the number. -/
def findThread (tid : Nat) : Option (Fin p.threadNum) :=
  (List.finRange p.threadNum).find? fun i => (p.thread i).tid = tid

end Proc

/-- `kill`: the search of the process table. -/
def kill (sender : UInt32) : List Proc → Nat → Nat → Int × List Proc
  | [], _, _ => (-ESRCH, [])
  | p :: pool, pid, sig =>
    if p.pid = pid then
      if p.Permits sender then (0, p.kill sig :: pool) else (-EPERM, p :: pool)
    else
      let (ret, pool) := kill sender pool pid sig
      (ret, p :: pool)

/-- `tgkill`: the search of the process table. -/
def tgkill (sender : UInt32) : List Proc → Nat → Nat → Nat → Int × List Proc
  | [], _, _, _ => (-ESRCH, [])
  | p :: pool, tgid, tid, sig =>
    match if p.pid = tgid then p.findThread tid else none with
    | some i => if p.Permits sender then (0, p.tgkill i sig :: pool) else (-EPERM, p :: pool)
    | none =>
      let (ret, pool) := tgkill sender pool tgid tid sig
      (ret, p :: pool)

/-! ## What sending a signal should do -/

namespace Proc

variable (p : Proc)

/-- The pending sets of the threads. -/
def pending : List UInt64 := List.ofFn fun i => (p.thread i).task.sigPending

/-- The default action is not termination. -/
def Harmless (sig : Nat) : Prop := sig = SIGCHLD ∨ sig = SIGCONT ∨ sig = SIGSTOP

instance (sig : Nat) : Decidable (Harmless sig) :=
  inferInstanceAs (Decidable (sig = SIGCHLD ∨ sig = SIGCONT ∨ sig = SIGSTOP))

/-- The thread holds the signal back. -/
def Holds (i : Fin p.threadNum) (sig : Nat) : Prop := Blocks (p.thread i).task.sigSet sig

instance (i : Fin p.threadNum) (sig : Nat) : Decidable (p.Holds i sig) :=
  inferInstanceAs (Decidable (Blocks (p.thread i).task.sigSet sig))

/-- The process `p'` after signal `sig` was sent to thread `i` of `p` is as disposition and mask ask for. -/
structure Respects (i : Fin p.threadNum) (sig : Nat) (p' : Proc) : Prop where
  /-- Signal 0 is a question only. -/
  zero : sig = 0 → p'.killed = p.killed ∧ p'.pending = p.pending ∧ p'.state = p.state
  /-- A signal that is blocked, ignored, handled or harmless does not kill. -/
  spared : sig ≠ 0 → p.Holds i sig ∨ p.dfl i sig = false ∨ Harmless sig → p'.killed = p.killed ∨ p'.killed = 0
  /-- Any other signal kills exactly if `handle_signal` would. -/
  default : sig ≠ 0 → ¬ p.Holds i sig → p.dfl i sig = true →
    (p'.killed ≠ 0 ↔ ((p.task i).handleSignal sig).2.killed ≠ 0)

/-- `SIGCONT` for a process that was stopped through `p->killed`. -/
def Resumes (sig : Nat) : Prop := sig = SIGCONT ∧ p.killed = SIGSTOP

instance (sig : Nat) : Decidable (p.Resumes sig) :=
  inferInstanceAs (Decidable (sig = SIGCONT ∧ p.killed = SIGSTOP))

/-- The signals that `handle_signal` terminates a process with. -/
def Terminates (sig : Nat) : Prop :=
  p.state ≠ .zombie ∧ ¬ Harmless sig ∧ sig ≠ SIGCANCEL ∧ sig ≠ SIGCANCEL + 1

/-- When a function that wants to kill the target if `acts` does so rightly: not for signal 0, not for a
signal that thread `i` does not take, and for the others as `handle_signal` would. -/
structure Meets (i : Fin p.threadNum) (sig : Nat) (acts : Prop) : Prop where
  zero : sig = 0 → p.state ≠ .sleeping ∧ (acts → p.killed = 0)
  spared : sig ≠ 0 → p.Holds i sig ∨ p.dfl i sig = false ∨ Harmless sig → acts →
    p.killed ≠ 0 ∧ p.killed ≤ sig ∨ p.Resumes sig
  default : sig ≠ 0 → ¬ p.Holds i sig → p.dfl i sig = true →
    if p.killed = 0 then (acts ↔ p.Terminates sig) else ¬ p.Resumes sig

variable {p} {i : Fin p.threadNum} {sig : Nat}

/-- What `handle_signal` does to `p->killed` for a signal without a handler. -/
theorem handleSignal_killed (hsig : sig ≠ 0) (hmax : sig ≤ 64) (hdfl : p.dfl i sig = true) :
    ((p.task i).handleSignal sig).2.killed ≠ 0 ↔ p.killed ≠ 0 ∨ p.Terminates sig := by
  have hhandler : ((p.task i).sigaction sig).handler = 0 := of_decide_eq_true hdfl
  have hzombie : (p.task i).zombie = decide (p.state = .zombie) := rfl
  have hkilled : (p.task i).killed = p.killed := rfl
  have hrange : ¬ (sig = 0 ∨ SIGRTMAX < sig) := by simp only [SIGRTMAX]; omega
  unfold Task.handleSignal Terminates Harmless
  rw [hhandler, hzombie]
  by_cases hz : p.state = .zombie
  · simp [hz, Task.clearPending, hkilled]
  by_cases hcancel : sig = SIGCANCEL ∨ sig = SIGCANCEL + 1
  · have hno : ¬ (sig ≠ SIGCANCEL ∧ sig ≠ SIGCANCEL + 1) := by tauto
    simp only [hz, decide_false, Bool.false_eq_true, if_false, if_neg hrange, if_pos hcancel]
    split <;> simp [Task.clearPending, hkilled, hno]
  have hdefault : ¬ (0 : UInt64) = Signal.SIG_IGN := by decide
  have hzero : (0 : UInt64) = Signal.SIG_DFL := rfl
  have hfree : sig ≠ SIGCANCEL ∧ sig ≠ SIGCANCEL + 1 := not_or.mp hcancel
  simp only [hz, decide_false, Bool.false_eq_true, if_false, if_neg hrange, if_neg hcancel,
    if_neg hdefault, if_pos hzero]
  by_cases hstop : sig = SIGSTOP
  · simp [hstop, Task.clearPending, hkilled]
  by_cases hcont : sig = SIGCONT
  · simp only [if_neg hstop, if_pos hcont]
    split <;> simp [Task.clearPending, hkilled, hcont]
  by_cases hchld : sig = SIGCHLD
  · simp [hchld, Task.clearPending, hkilled, SIGCHLD, SIGSTOP, SIGCONT]
  · simp [hz, hchld, Task.clearPending, hsig, hstop, hcont, hfree]

section

variable {th : Thread} {killed : Nat} {acts : Prop} [Decidable acts]

/-- The new value of `p->killed` in `kill` and `tgkill`, which differ in `acts`. -/
def update (p : Proc) (sig : Nat) (acts : Prop) [Decidable acts] : Nat :=
  if p.Resumes sig then 0 else if acts ∧ (p.killed = 0 ∨ sig < p.killed) then sig else p.killed

theorem pending_receive (hth : th.task.sigPending = (p.thread i).task.sigPending) :
    (p.receive i th sig killed).pending = p.pending := by
  have hsame : ∀ j, (Function.update p.thread i th j).task.sigPending = (p.thread j).task.sigPending := by
    intro j
    by_cases hj : j = i
    · subst hj
      rw [Function.update_self, hth]
    · rw [Function.update_of_ne hj]
  unfold pending receive
  exact congrArg List.ofFn (funext hsame)

theorem state_receive : (p.receive i th sig killed).state = p.state ↔ p.state ≠ .sleeping := by
  unfold receive
  simp only
  split
  · rename_i hsleeping
    simp [hsleeping]
  · rename_i hawake
    simp [hawake]

theorem update_zero : p.update 0 acts = p.killed ↔ (acts → p.killed = 0) := by
  have hno : ¬ p.Resumes 0 := fun h => absurd h.1 (by decide)
  rw [update, if_neg hno]
  split
  · rename_i hacts
    exact ⟨fun h _ => h.symm, fun h => (h hacts.1).symm⟩
  · rename_i hno
    refine iff_of_true rfl fun hacts => ?_
    rcases Nat.eq_zero_or_pos p.killed with hzero | hpos
    · exact hzero
    · exact absurd ⟨hacts, .inr hpos⟩ hno

theorem update_spared (hsig : sig ≠ 0) :
    p.update sig acts = p.killed ∨ p.update sig acts = 0 ↔
      (acts → p.killed ≠ 0 ∧ p.killed ≤ sig ∨ p.Resumes sig) := by
  rw [update]
  split
  · rename_i hresumes
    exact iff_of_true (.inr rfl) fun _ => .inr hresumes
  rename_i hno
  split
  · rename_i hacts
    refine iff_of_false ?_ fun h => ?_
    · rcases hacts.2 with hk | hk <;> omega
    · rcases h hacts.1 with ⟨hk, hle⟩ | hresumes
      · rcases hacts.2 with hk' | hk' <;> omega
      · exact hno hresumes
  · rename_i hkept
    refine iff_of_true (.inl rfl) fun hacts => .inl ?_
    have hk := not_or.mp fun h => hkept ⟨hacts, h⟩
    exact ⟨hk.1, Nat.le_of_not_lt hk.2⟩

theorem update_default (hsig : sig ≠ 0) :
    (p.update sig acts ≠ 0 ↔ p.killed ≠ 0 ∨ p.Terminates sig) ↔
      if p.killed = 0 then (acts ↔ p.Terminates sig) else ¬ p.Resumes sig := by
  by_cases hk : p.killed = 0
  · have hno : ¬ p.Resumes sig := fun h => absurd (hk.symm.trans h.2) (by decide)
    rw [if_pos hk, update, if_neg hno]
    by_cases hacts : acts
    · simp [hk, hacts, hsig]
    · simp [hk, hacts]
  · rw [if_neg hk, update]
    split
    · rename_i hresumes
      simp [hk, hresumes]
    · rename_i hno
      simp only [hno, not_false_eq_true, iff_true, hk, ne_eq, true_or]
      split
      · exact hsig
      · exact hk

/-- Sending a signal is right exactly under the condition. -/
theorem receive_respects_iff (hmax : sig ≤ 64)
    (hth : sig = 0 → th.task.sigPending = (p.thread i).task.sigPending) :
    p.Respects i sig (p.receive i th sig (p.update sig acts)) ↔ p.Meets i sig acts := by
  have hkilled : (p.receive i th sig (p.update sig acts)).killed = p.update sig acts := rfl
  constructor
  · rintro ⟨hzero, hspared, hdefault⟩
    refine ⟨?_, fun hsig hcase => (update_spared hsig).mp (hspared hsig hcase), fun hsig hheld hdfl => ?_⟩
    · rintro rfl
      obtain ⟨hkept, _, hstate⟩ := hzero rfl
      exact ⟨state_receive.mp hstate, update_zero.mp hkept⟩
    · have hiff := hdefault hsig hheld hdfl
      rw [handleSignal_killed hsig hmax hdfl] at hiff
      exact (update_default hsig).mp hiff
  · rintro ⟨hzero, hspared, hdefault⟩
    refine ⟨?_, fun hsig hcase => (update_spared hsig).mpr (hspared hsig hcase), fun hsig hheld hdfl => ?_⟩
    · rintro rfl
      obtain ⟨hstate, hacts⟩ := hzero rfl
      exact ⟨update_zero.mpr hacts, pending_receive (hth rfl), state_receive.mpr hstate⟩
    · rw [handleSignal_killed hsig hmax hdfl, hkilled]
      exact (update_default hsig).mpr (hdefault hsig hheld hdfl)

end

/-- `kill` wants to kill for a signal without a handler that is not a real-time signal. -/
def KillActs (p : Proc) (sig : Nat) : Prop := p.dfl p.current sig = true ∧ sig < SIGRTMIN

/-- `tgkill` wants to kill for a signal without a handler in the current thread. -/
def TgkillActs (p : Proc) (sig : Nat) : Prop := p.dfl p.current sig = true

instance (p : Proc) (sig : Nat) : Decidable (p.KillActs sig) :=
  inferInstanceAs (Decidable (p.dfl p.current sig = true ∧ sig < SIGRTMIN))

instance (p : Proc) (sig : Nat) : Decidable (p.TgkillActs sig) :=
  inferInstanceAs (Decidable (p.dfl p.current sig = true))

theorem kill_respects_iff (hmax : sig ≤ 64) :
    p.Respects p.current sig (p.kill sig) ↔ p.Meets p.current sig (p.KillActs sig) := by
  have hupdate : killUpdate p.killed sig (p.dfl p.current sig) = p.update sig (p.KillActs sig) := by
    have hle : ¬ Process.SIGRTMAX < sig := Nat.not_lt.mpr hmax
    simp only [killUpdate, update, Resumes, KillActs, hle, or_false, and_assoc]
    rfl
  unfold kill
  rw [hupdate]
  refine receive_respects_iff hmax ?_
  rintro rfl
  rfl

theorem tgkill_respects_iff (hmax : sig ≤ 64) :
    p.Respects i sig (p.tgkill i sig) ↔ p.Meets i sig (p.TgkillActs sig) := by
  have hupdate : tgkillUpdate p.killed sig (p.dfl p.current sig) = p.update sig (p.TgkillActs sig) := rfl
  unfold tgkill
  rw [hupdate]
  refine receive_respects_iff hmax ?_
  rintro rfl
  rfl

end Proc

/-! ## The process table -/

section

variable {sender : UInt32} {before after : List Proc} {p : Proc} {sig tid : Nat} {i : Fin p.threadNum}

/-- `kill` finds the first process with the number. -/
theorem kill_found (hperm : p.Permits sender) (hfirst : ∀ q ∈ before, q.pid ≠ p.pid) :
    kill sender (before ++ p :: after) p.pid sig = (0, before ++ p.kill sig :: after) := by
  induction before with
  | nil => simp only [List.nil_append, kill, if_true, if_pos hperm]
  | cons q before ih =>
    have hq : q.pid ≠ p.pid := hfirst q List.mem_cons_self
    simp only [List.cons_append, kill, if_neg hq, ih fun r hr => hfirst r (List.mem_cons_of_mem _ hr)]

/-- `tgkill` finds the first process with the number that has the thread. -/
theorem tgkill_found (hperm : p.Permits sender) (hthread : p.findThread tid = some i)
    (hfirst : ∀ q ∈ before, q.pid = p.pid → q.findThread tid = none) :
    tgkill sender (before ++ p :: after) p.pid tid sig = (0, before ++ p.tgkill i sig :: after) := by
  induction before with
  | nil => simp only [List.nil_append, tgkill, if_true, hthread, if_pos hperm]
  | cons q before ih =>
    have hq : (if q.pid = p.pid then q.findThread tid else none) = none := by
      split
      · exact hfirst q List.mem_cons_self ‹_›
      · rfl
    simp only [List.cons_append, tgkill, hq, ih fun r hr => hfirst r (List.mem_cons_of_mem _ hr)]

end

/-- A signal that a permitted sender sends respects the disposition and the mask of the receiving thread
exactly under `Meets`, for `kill` and for `tgkill` with the signals that each of them acts on. -/
theorem sending_respects {sender : UInt32} {before after : List Proc} {p : Proc} {sig : Nat} (hsig : sig ≤ 64)
    (hperm : p.Permits sender) :
    ((∀ q ∈ before, q.pid ≠ p.pid) → ∃ p',
        kill sender (before ++ p :: after) p.pid sig = (0, before ++ p' :: after) ∧
          (p.Respects p.current sig p' ↔ p.Meets p.current sig (p.KillActs sig))) ∧
      ∀ tid i, p.findThread tid = some i → (∀ q ∈ before, q.pid = p.pid → q.findThread tid = none) → ∃ p',
        tgkill sender (before ++ p :: after) p.pid tid sig = (0, before ++ p' :: after) ∧
          (p.Respects i sig p' ↔ p.Meets i sig (p.TgkillActs sig)) := by
  constructor
  · intro hfirst
    exact ⟨p.kill sig, kill_found hperm hfirst, Proc.kill_respects_iff hsig⟩
  · intro tid i hthread hfirst
    exact ⟨p.tgkill i sig, tgkill_found hperm hthread hfirst, Proc.tgkill_respects_iff hsig⟩

/-- A running process with one thread that blocks the signals of `mask`. -/
def daemon (mask : UInt64) : Proc where
  pid := 7
  ruid := 0
  euid := 0
  state := .running
  killed := 0
  stopped := false
  stopSignal := 0
  continued := false
  threadNum := 1
  thread _ := ⟨7, false, { Signal.newThread.task with sigSet := mask }⟩
  current := ⟨0, Nat.zero_lt_one⟩

/-- `SIGTERM` kills a process that does not block it, as it should. -/
theorem sending_respects_term :
    ∃ p', kill 0 [daemon 0] 7 15 = (0, [p']) ∧ (daemon 0).Respects (daemon 0).current 15 p' := by
  obtain ⟨p', hkill, hiff⟩ := (@sending_respects 0 [] [] (daemon 0) 15 (by decide)
    (.inl rfl)).1 (by simp)
  refine ⟨p', hkill, hiff.mpr ⟨by decide, ?_, ?_⟩⟩
  · rintro _ (hheld | hdfl | hharmless) _
    · exact absurd hheld (by decide)
    · exact absurd hdfl (by decide)
    · exact absurd hharmless (by decide)
  · rintro _ _ _
    rw [if_pos (by decide)]
    exact iff_of_true ⟨by decide, by decide⟩ ⟨by decide, by decide, by decide, by decide⟩

/-- `SIGTERM` kills a process that blocks it. -/
theorem kill_ignores_mask :
    ¬ ∀ (sender : UInt32) (p p' : Proc) (sig : Nat), sig ≤ 64 → p.Permits sender →
      kill sender [p] p.pid sig = (0, [p']) → p.Respects p.current sig p' := by
  intro h
  have hresp := h 0 (daemon 0x4000) _ 15 (by decide) (.inl rfl)
    (@kill_found 0 [] [] (daemon 0x4000) 15 (.inl rfl) (by simp))
  have hspared := hresp.spared (by decide) (.inl (by decide))
  exact absurd hspared (by decide)

end SC7.Kill
