-- SUMMARY: The system calls `ppoll` and `pselect6`: their wait loop, the temporary signal mask, and that the mask is undone on every way out.
import SC7.Kernel.SignalMask

/-!
# `ppoll` and `pselect6`

Both calls install a mask, poll their descriptors until something ends the wait, and put the old mask
back. A round is one turn of the wait loop: what the descriptors answer, what the clock shows, and what
the other threads do while the caller has yielded. The loop has no bound of its own, so a call is run
on a list of rounds and has not returned (`none`) if they do not end it.

A user pointer is `none` if it is null. What it points to is `none` if `access_ok` or `copyin` refuses it.
-/

namespace SC7.Select

open Function (update)
open Signal (Task Thread Threads Tid)

def EINTR : Int := 4
def EBADF : Int := 9
def ENOMEM : Int := 12
def EFAULT : Int := 14
def EINVAL : Int := 22

def POLLIN : Nat := 0x0001
def POLLOUT : Nat := 0x0004
def POLLNVAL : Nat := 0x0020

def NOFILE : Nat := 256
def FD_SETSIZE : Nat := 1024
def CLK_FREQ : Nat := 10000000

structure Timespec where
  tvSec : Int
  tvNsec : Int
  deriving DecidableEq, Repr

def Timespec.Bad (ts : Timespec) : Prop := ts.tvSec < 0 ∨ ts.tvNsec < 0 ∨ ts.tvNsec ≥ 1000000000

instance (ts : Timespec) : Decidable ts.Bad := inferInstanceAs (Decidable (_ ∨ _ ∨ _))

/-- The ticks of the clock in this time. -/
def Timespec.ticks (ts : Timespec) : Nat := ts.tvSec.toNat * CLK_FREQ + ts.tvNsec.toNat * CLK_FREQ / 1000000000

/-- `end_time`. -/
def endTime (now : Nat) (ts : Timespec) : Nat := (now + ts.ticks) % 2 ^ 64

/-! ## Rounds -/

/-- A step of another thread, or something that happens to a thread. A thread writes only its own mask
and that of a thread it makes. -/
inductive OtherStep (me : Tid) (s : Threads) : Threads → Prop where
  | act (tid : Tid) (th : Thread) (op : Signal.MaskOp) (s' : Threads) (hne : tid ≠ me) (hth : s tid = some th)
      (hact : Threads.Act s tid th op s') : OtherStep me s s'
  | other (tid : Tid) (th th' : Thread) (hth : s tid = some th) (halike : th.Alike th') :
      OtherStep me s (update s tid (some th'))
  | reap (tid : Tid) (hne : tid ≠ me) : OtherStep me s (update s tid none)

/-- One turn of a wait loop of thread `me`. -/
structure Round (me : Tid) where
  /-- The file at this index of `ofile`, as its `poll` operation. -/
  ofile : Nat → Option (Nat → Nat)
  /-- `r_time` at the check of the timeout. -/
  time : Nat
  /-- What happens between the call of `yield` and its return. -/
  others : Threads → Threads
  steps : ∀ s, Reaches (OtherStep me) s (others s)

/-- Why a round in which no descriptor is ready ends the wait, or that it does not. -/
inductive Verdict where
  | killed
  | interrupted
  | expired
  | goesOn
  deriving DecidableEq, Repr

variable {me : Tid} {β : Type}

/-- The checks behind the scan. `ppoll` without descriptors does not look at `killed`. -/
def Round.verdict (r : Round me) (looksAtKilled : Bool) (stop : Option Nat) (th : Thread) : Verdict × Thread :=
  if looksAtKilled = true ∧ th.task.killed ≠ 0 then (.killed, th)
  else
    let (sig, task) := th.task.checkPendingSignals
    if sig ≠ 0 then (.interrupted, { th with task := task })
    else if task.signalInterrupted then
      (.interrupted, { th with task := { task with signalInterrupted := false } })
    else if stop.any (· ≤ r.time) then (.expired, { th with task := task })
    else (.goesOn, { th with task := task })

/-- A call in its wait loop, or behind it; `b` is what it scans. -/
inductive Wait (β : Type) where
  | waiting (b : β) (s : Threads)
  | done (ret : Int) (b : β) (s : Threads)

/-- One turn of the loop. -/
def Wait.step (scan : Round me → β → Int × β) (looksAtKilled : Bool) (stop : Option Nat) (w : Wait β)
    (r : Round me) : Wait β :=
  match w with
  | .done ret b s => .done ret b s
  | .waiting b s =>
    match s me with
    | none => .waiting b s
    | some th =>
      let (ret, b) := scan r b
      if ret ≠ 0 then .done ret b s
      else
        match r.verdict looksAtKilled stop th with
        | (.killed, th) => .done 0 b (update s me (some th))
        | (.interrupted, th) => .done (-EINTR) b (update s me (some th))
        | (.expired, th) => .done 0 b (update s me (some th))
        | (.goesOn, th) => .waiting b (r.others (update s me (some th)))

def Wait.run (scan : Round me → β → Int × β) (looksAtKilled : Bool) (stop : Option Nat) (rounds : List (Round me))
    (b : β) (s : Threads) : Wait β :=
  rounds.foldl (Wait.step scan looksAtKilled stop) (.waiting b s)

/-! ## The mask and the timeout -/

/-- The mask of the calling thread. -/
def maskOf (me : Tid) (s : Threads) : Option UInt64 := (s me).map fun th => th.task.sigSet

def setMask (me : Tid) (mask : UInt64) (s : Threads) : Threads :=
  update s me ((s me).map fun th => th.setMask mask)

/-- Puts `old_sigmask` back, if there was a mask. -/
def restore (me : Tid) (old : Option UInt64) (s : Threads) : Threads :=
  match old with
  | none => s
  | some mask => setMask me mask s

/-- The part before the loop: the mask, then the timeout. On success it returns the mask to put back and
the time to stop; `adjust` is what the call makes of the timeout. -/
def enter (me : Tid) (sigmask : Option (Option UInt64)) (timeout : Option (Option Timespec))
    (adjust : Timespec → Timespec) (now : Nat) (s : Threads) :
    Except (Int × Threads) (Option UInt64 × Option Nat × Threads) :=
  match sigmask with
  | some none => .error (-EFAULT, s)
  | _ =>
    let old := if sigmask.isSome then maskOf me s else none
    let s := match sigmask with
      | some (some mask) => setMask me mask s
      | _ => s
    match timeout with
    | none => .ok (old, none, s)
    | some none => .error (-EFAULT, restore me old s)
    | some (some ts) =>
      if ts.Bad then .error (-EINVAL, restore me old s)
      else .ok (old, some (endTime now (adjust ts)), s)

/-! ## `ppoll` -/

structure PollFd where
  fd : Int
  events : Nat
  revents : Nat
  deriving DecidableEq, Repr

structure PpollArgs where
  nfds : Int
  /-- The pointer is null or -1. -/
  badPollfd : Bool
  /-- `kalloc` returns a page. -/
  alloc : Bool
  pollfd : Option (List PollFd)
  ts : Option (Option Timespec)
  sigmask : Option (Option UInt64)
  copyout : Bool

/-- The events of one entry. -/
def pollOne (ofile : Nat → Option (Nat → Nat)) (p : PollFd) : PollFd :=
  if p.fd < 0 then { p with revents := 0 }
  else
    match ofile p.fd.toNat with
    | none => { p with revents := POLLNVAL }
    | some poll => { p with revents := poll p.events }

/-- The scan of `ppoll`: the number of entries with events. -/
def pollAll (r : Round me) (fds : List PollFd) : Int × List PollFd :=
  let fds := fds.map (pollOne r.ofile)
  (fds.countP (·.revents ≠ 0), fds)

/-- `sys_ppoll`: the result, the array that was copied out, and the threads. -/
def sysPpoll (me : Tid) (a : PpollArgs) (now : Nat) (rounds : List (Round me)) (s : Threads) :
    Option (Int × Option (List PollFd) × Threads) :=
  if a.nfds < 0 ∨ a.nfds > 1024 then some (-EINVAL, none, s)
  else if a.nfds > 0 ∧ a.badPollfd then some (-EFAULT, none, s)
  else if a.nfds = 0 then
    match enter me a.sigmask a.ts id now s with
    | .error (ret, s) => some (ret, none, s)
    | .ok (old, stop, s) =>
      match Wait.run (fun _ (_ : Unit) => (0, ())) false stop rounds () s with
      | .waiting .. => none
      | .done ret _ s => some (ret, none, restore me old s)
  else if a.alloc = false then some (-ENOMEM, none, s)
  else
    match a.pollfd with
    | none => some (-EFAULT, none, s)
    | some fds =>
      match enter me a.sigmask a.ts id now s with
      | .error (ret, s) => some (ret, none, s)
      | .ok (old, stop, s) =>
        match Wait.run pollAll true stop rounds fds s with
        | .waiting .. => none
        | .done ret fds s =>
          let s := restore me old s
          if a.copyout then some (ret, some fds, s) else some (-EFAULT, none, s)

/-! ## `pselect6` -/

/-- A `fd_set`: the descriptors whose bits are set. -/
@[ext] structure FdSet where
  bits : Finset Nat
  lt : ∀ fd ∈ bits, fd < FD_SETSIZE

def FdSet.clr (set : FdSet) (fd : Nat) : FdSet :=
  ⟨set.bits.erase fd, fun fd' h => set.lt fd' (Finset.mem_of_mem_erase h)⟩

/-- `rfds`, `wfds` and `efds`; `none` where the pointer is null. -/
structure Sets where
  read : Option FdSet
  write : Option FdSet
  except : Option FdSet

/-- `FD_ISSET` in a set that may be missing. -/
def isset (set : Option FdSet) (fd : Nat) : Prop := ∃ t, set = some t ∧ fd ∈ t.bits

instance (set : Option FdSet) (fd : Nat) : Decidable (isset set fd) :=
  match set with
  | none => .isFalse fun ⟨_, h, _⟩ => nomatch h
  | some t => decidable_of_iff (fd ∈ t.bits) ⟨fun h => ⟨t, rfl, h⟩, fun ⟨_, h, hmem⟩ => Option.some.inj h ▸ hmem⟩

/-- The file of a descriptor that is below `NOFILE` and open. -/
def Round.file (r : Round me) (fd : Nat) : Option (Nat → Nat) := if fd < NOFILE then r.ofile fd else none

/-- The check of one descriptor in one of the first two sets: what it adds to the count, and the set.
`none` means that the descriptor is not open. -/
def checkFd (r : Round me) (events fd : Nat) (set : Option FdSet) : Option (Nat × Option FdSet) :=
  if isset set fd then
    match r.file fd with
    | none => none
    | some poll => if poll events ≠ 0 then some (1, set) else some (0, set.map (·.clr fd))
  else some (0, set)

/-- The same in the third set, where nothing is ever ready. -/
def checkExcept (r : Round me) (fd : Nat) (set : Option FdSet) : Option (Option FdSet) :=
  if isset set fd then
    match r.file fd with
    | none => none
    | some _ => some (set.map (·.clr fd))
  else some set

/-- The loop of `do_select` over the descriptors that are left. -/
def selectLoop (r : Round me) : List Nat → Nat → Sets → Int × Sets
  | [], ret, sets => (ret, sets)
  | fd :: fds, ret, sets =>
    match checkFd r POLLIN fd sets.read with
    | none => (-EBADF, sets)
    | some (n, rd) =>
      let sets := { sets with read := rd }
      match checkFd r POLLOUT fd sets.write with
      | none => (-EBADF, sets)
      | some (m, wr) =>
        let sets := { sets with write := wr }
        match checkExcept r fd sets.except with
        | none => (-EBADF, sets)
        | some ex => selectLoop r fds (ret + n + m) { sets with except := ex }

def doSelect (nfds : Int) (r : Round me) (sets : Sets) : Int × Sets :=
  if nfds < 0 then (-EINVAL, sets)
  else if sets.read = none ∧ sets.write = none ∧ sets.except = none then (0, sets)
  else selectLoop r (List.range nfds.toNat) 0 sets

/-- A pointer to a `fd_set`: what is read there, and whether the result can be written back. -/
structure SetPtr where
  value : Option FdSet
  writable : Bool

structure PselectArgs where
  nfds : Int
  readfds : Option SetPtr
  writefds : Option SetPtr
  exceptfds : Option SetPtr
  timeout : Option (Option Timespec)
  sigmask : Option (Option UInt64)

/-- The three sets, unless one of them cannot be read. -/
def PselectArgs.sets (a : PselectArgs) : Option Sets :=
  if a.readfds.any (·.value.isNone) ∨ a.writefds.any (·.value.isNone) ∨ a.exceptfds.any (·.value.isNone) then none
  else some ⟨a.readfds.bind (·.value), a.writefds.bind (·.value), a.exceptfds.bind (·.value)⟩

def PselectArgs.writable (a : PselectArgs) : Bool :=
  a.readfds.all (·.writable) && a.writefds.all (·.writable) && a.exceptfds.all (·.writable)

/-- Whatever the caller asks for, the call waits for two seconds and the nanoseconds. -/
def twoSeconds (ts : Timespec) : Timespec := { ts with tvSec := 2 }

/-- `sys_pselect6_time32`: the result, the sets that were copied out, and the threads. -/
def sysPselect6 (me : Tid) (a : PselectArgs) (now : Nat) (rounds : List (Round me)) (s : Threads) :
    Option (Int × Option Sets × Threads) :=
  if a.nfds < 0 ∨ a.nfds > FD_SETSIZE then some (-EINVAL, none, s)
  else
    match a.sets with
    | none => some (-EFAULT, none, s)
    | some sets =>
      match enter me a.sigmask a.timeout twoSeconds now s with
      | .error (ret, s) => some (ret, none, s)
      | .ok (old, stop, s) =>
        match Wait.run (doSelect a.nfds) true stop rounds sets s with
        | .waiting .. => none
        | .done ret sets s =>
          let s := restore me old s
          if a.writable then some (ret, some sets, s) else some (-EFAULT, none, s)

/-! ## The mask of the caller -/

section Mask

variable {s s' : Threads} {mask m : UInt64} {th : Thread}

theorem maskOf_of_eq (h : s me = some th) : maskOf me s = some th.task.sigSet := by rw [maskOf, h, Option.map_some]

theorem maskOf_update_self (th : Thread) : maskOf me (update s me (some th)) = some th.task.sigSet :=
  maskOf_of_eq (Function.update_self ..)

theorem maskOf_update_of_ne {tid : Tid} (hne : tid ≠ me) (o : Option Thread) :
    maskOf me (update s tid o) = maskOf me s := by
  rw [maskOf, maskOf, Function.update_of_ne (Ne.symm hne)]

theorem maskOf_setMask (hlive : maskOf me s = some m) : maskOf me (setMask me mask s) = some mask := by
  obtain ⟨th, hth, -⟩ := Option.map_eq_some_iff.mp hlive
  rw [setMask, hth, Option.map_some, maskOf_update_self]
  rfl

/-- No other thread writes the mask of this one. -/
theorem OtherStep.maskOf (h : OtherStep me s s') (hlive : maskOf me s = some m) : maskOf me s' = some m := by
  obtain ⟨mine, hmine, hm⟩ := Option.map_eq_some_iff.mp hlive
  cases h with
  | act tid th op s' hne hth hact =>
    have hchild : ∀ child, s child = none → child ≠ me := by
      rintro child hfree rfl
      rw [hmine] at hfree
      cases hfree
    cases hact with
    | sigprocmask how set => rw [maskOf_update_of_ne hne, hlive]
    | sigaction signum act _ _ _ =>
      rw [Select.maskOf, Threads.setSigaction, hmine, Option.map_some, Option.map_some, ← hm]
      split <;> rfl
    | deliver arch env => rw [maskOf_update_of_ne hne, hlive]
    | sigreturn => rw [maskOf_update_of_ne hne, hlive]
    | selectEnter sigmask _ => rw [maskOf_update_of_ne hne, hlive]
    | selectLeave old _ => rw [maskOf_update_of_ne hne, hlive]
    | fork child new sigchld hfree _ => rw [maskOf_update_of_ne (hchild child hfree), maskOf_update_of_ne hne, hlive]
    | clone child new sigMask hfree _ => rw [maskOf_update_of_ne (hchild child hfree), hlive]
    | cloneThread child new sigMask hfree _ _ => rw [maskOf_update_of_ne (hchild child hfree), hlive]
    | exit => rw [maskOf_update_of_ne hne, hlive]
  | other tid th th' hth halike =>
    by_cases hne : tid = me
    · subst hne
      rw [maskOf_update_self, halike.sigSet, ← maskOf_of_eq hth, hlive]
    · rw [maskOf_update_of_ne hne, hlive]
  | reap tid hne => rw [maskOf_update_of_ne hne, hlive]

theorem Round.maskOf_others (r : Round me) (hlive : maskOf me s = some m) : maskOf me (r.others s) = some m :=
  (r.steps s).invariant hlive fun _ _ h hstep => hstep.maskOf h

/-- The checks of a round write pending signals and the flag, not the mask. -/
theorem Round.verdict_sigSet (r : Round me) (looksAtKilled : Bool) (stop : Option Nat) (th : Thread) :
    (r.verdict looksAtKilled stop th).2.task.sigSet = th.task.sigSet := by
  obtain ⟨p, hp⟩ := th.task.checkPendingSignals_eq
  have hsame : th.task.checkPendingSignals.2.sigSet = th.task.sigSet := by rw [hp]
  rw [verdict]
  split
  · rfl
  · simp only
    split
    · exact hsame
    · split
      · exact hsame
      · split
        · exact hsame
        · exact hsame

/-- The threads, wherever the call is. -/
def Wait.threads : Wait β → Threads
  | .waiting _ s => s
  | .done _ _ s => s

theorem Wait.step_maskOf (scan : Round me → β → Int × β) (looksAtKilled : Bool) (stop : Option Nat) (r : Round me)
    {w : Wait β} (h : maskOf me w.threads = some m) :
    maskOf me (w.step scan looksAtKilled stop r).threads = some m := by
  cases w with
  | done ret b s => exact h
  | waiting b s =>
    rw [step]
    obtain ⟨th, hth, hm⟩ := Option.map_eq_some_iff.mp h
    have hth : s me = some th := hth
    rw [hth]
    dsimp only
    split
    · exact h
    · have hsigSet := r.verdict_sigSet looksAtKilled stop th
      have hupdate : ∀ th', th'.task.sigSet = th.task.sigSet →
          maskOf me (update s me (some th')) = some m := by
        intro th' heq
        rw [maskOf_update_self, heq, hm]
      split
      all_goals
        rename_i th' hverdict
        rw [hverdict] at hsigSet
      · exact hupdate th' hsigSet
      · exact hupdate th' hsigSet
      · exact hupdate th' hsigSet
      · exact r.maskOf_others (hupdate th' hsigSet)

theorem Wait.run_maskOf (scan : Round me → β → Int × β) (looksAtKilled : Bool) (stop : Option Nat)
    (rounds : List (Round me)) (b : β) (h : maskOf me s = some m) :
    maskOf me (Wait.run scan looksAtKilled stop rounds b s).threads = some m := by
  rw [run]
  generalize hw : Wait.waiting b s = w
  have h : maskOf me w.threads = some m := by rw [← hw]; exact h
  clear hw
  induction rounds generalizing w with
  | nil => exact h
  | cons r rounds ih => exact ih _ (step_maskOf scan looksAtKilled stop r h)

/-- `restore` gives the mask `m` back from any mask the loop has left. -/
def Restores (me : Tid) (old : Option UInt64) (m : UInt64) (s : Threads) : Prop :=
  ∃ cur, maskOf me s = some cur ∧ (old = some m ∨ old = none ∧ cur = m)

theorem Restores.maskOf {old : Option UInt64} (h : Restores me old m s) : maskOf me (restore me old s) = some m := by
  obtain ⟨cur, hcur, rfl | ⟨rfl, rfl⟩⟩ := h
  · exact maskOf_setMask hcur
  · exact hcur

theorem Restores.run {old : Option UInt64} (h : Restores me old m s) (scan : Round me → β → Int × β)
    (looksAtKilled : Bool) (stop : Option Nat) (rounds : List (Round me)) (b : β) :
    Restores me old m (Wait.run scan looksAtKilled stop rounds b s).threads := by
  obtain ⟨cur, hcur, hold⟩ := h
  exact ⟨cur, Wait.run_maskOf scan looksAtKilled stop rounds b hcur, hold⟩

/-- The part before the loop either fails with the mask as it was, or knows how to put it back. -/
theorem enter_mask (sigmask : Option (Option UInt64)) (timeout : Option (Option Timespec))
    (adjust : Timespec → Timespec) (now : Nat) (h : maskOf me s = some m) :
    match enter me sigmask timeout adjust now s with
    | .error (_, s') => maskOf me s' = some m
    | .ok (old, _, s') => Restores me old m s' := by
  have hrestores : ∀ old s₁, (old = none ∧ s₁ = s ∨ ∃ mask, old = some m ∧ s₁ = setMask me mask s) →
      Restores me old m s₁ := by
    rintro old s₁ (⟨rfl, rfl⟩ | ⟨mask, rfl, rfl⟩)
    · exact ⟨m, h, .inr ⟨rfl, rfl⟩⟩
    · exact ⟨mask, maskOf_setMask h, .inl rfl⟩
  -- whichever mask is installed, the timeout decides between the same four ends
  have htimeout : ∀ old s₁, Restores me old m s₁ →
      match (match timeout with
        | none => .ok (old, none, s₁)
        | some none => .error (-EFAULT, restore me old s₁)
        | some (some ts) =>
          if ts.Bad then .error (-EINVAL, restore me old s₁)
          else .ok (old, some (endTime now (adjust ts)), s₁) :
          Except (Int × Threads) (Option UInt64 × Option Nat × Threads)) with
      | .error (_, s') => maskOf me s' = some m
      | .ok (old, _, s') => Restores me old m s' := by
    intro old s₁ hold
    match timeout with
    | none => exact hold
    | some none => exact hold.maskOf
    | some (some ts) =>
      dsimp only
      split
      · rename_i heq
        split at heq
        · cases heq
          exact hold.maskOf
        · cases heq
      · rename_i heq
        split at heq
        · cases heq
        · cases heq
          exact hold
  match sigmask with
  | none => exact htimeout none s (hrestores none s (.inl ⟨rfl, rfl⟩))
  | some none => exact h
  | some (some mask) =>
    have hold := htimeout (maskOf me s) (setMask me mask s) (hrestores _ _ (.inr ⟨mask, h, rfl⟩))
    exact hold

theorem sysPpoll_maskOf (a : PpollArgs) (now : Nat) (rounds : List (Round me)) {ret : Int}
    {out : Option (List PollFd)} (h : maskOf me s = some m) (hcall : sysPpoll me a now rounds s = some (ret, out, s')) :
    maskOf me s' = some m := by
  have henter := enter_mask a.sigmask a.ts id now h
  rw [sysPpoll] at hcall
  split at hcall
  · cases hcall
    exact h
  split at hcall
  · cases hcall
    exact h
  split at hcall
  · split at hcall
    · rename_i heq
      cases hcall
      rw [heq] at henter
      exact henter
    · rename_i old stop s₁ heq
      rw [heq] at henter
      have hrun := henter.run (fun _ (_ : Unit) => (0, ())) false stop rounds ()
      split at hcall
      · cases hcall
      · rename_i hdone
        cases hcall
        rw [hdone] at hrun
        exact hrun.maskOf
  split at hcall
  · cases hcall
    exact h
  split at hcall
  · cases hcall
    exact h
  · rename_i fds _
    split at hcall
    · rename_i heq
      cases hcall
      rw [heq] at henter
      exact henter
    · rename_i old stop s₁ heq
      rw [heq] at henter
      have hrun := henter.run pollAll true stop rounds fds
      split at hcall
      · cases hcall
      · rename_i hdone
        rw [hdone] at hrun
        split at hcall <;> cases hcall <;> exact hrun.maskOf

theorem sysPselect6_maskOf (a : PselectArgs) (now : Nat) (rounds : List (Round me)) {ret : Int}
    {out : Option Sets} (h : maskOf me s = some m) (hcall : sysPselect6 me a now rounds s = some (ret, out, s')) :
    maskOf me s' = some m := by
  have henter := enter_mask a.sigmask a.timeout twoSeconds now h
  rw [sysPselect6] at hcall
  split at hcall
  · cases hcall
    exact h
  split at hcall
  · cases hcall
    exact h
  · rename_i sets _
    split at hcall
    · rename_i heq
      cases hcall
      rw [heq] at henter
      exact henter
    · rename_i old stop s₁ heq
      rw [heq] at henter
      have hrun := henter.run (doSelect a.nfds) true stop rounds sets
      split at hcall
      · cases hcall
      · rename_i hdone
        rw [hdone] at hrun
        split at hcall <;> cases hcall <;> exact hrun.maskOf

/-- Whenever one of the two calls returns, the mask of its thread is what it was before the call. -/
theorem temporary_mask_undone (hme : s me = some th) :
    (∀ a now (rounds : List (Round me)) ret out s', sysPpoll me a now rounds s = some (ret, out, s') →
        maskOf me s' = some th.task.sigSet) ∧
      ∀ a now (rounds : List (Round me)) ret out s', sysPselect6 me a now rounds s = some (ret, out, s') →
        maskOf me s' = some th.task.sigSet :=
  ⟨fun a now rounds _ _ _ => sysPpoll_maskOf a now rounds (maskOf_of_eq hme),
    fun a now rounds _ _ _ => sysPselect6_maskOf a now rounds (maskOf_of_eq hme)⟩

end Mask

/-- A round in which no descriptor is open and no other thread does anything. -/
def idleRound (me : Tid) (time : Nat) : Round me := ⟨fun _ => none, time, id, fun _ => .refl⟩

/-- `ppoll(NULL, 0, {1, 0}, {all signals})` that times out in its second round. -/
def sleepArgs : PpollArgs := ⟨0, true, true, none, some (some ⟨1, 0⟩), some (some 0xFFFFFFFFFFFFFFFF), true⟩

theorem temporary_mask_undone_timeout :
    ∃ s', sysPpoll 1 sleepArgs 0 [idleRound 1 5, idleRound 1 10000000] Signal.oneThread = some (0, none, s') ∧
      maskOf 1 s' = some 0 := by
  obtain ⟨s', hcall⟩ : ∃ s', sysPpoll 1 sleepArgs 0 [idleRound 1 5, idleRound 1 10000000] Signal.oneThread =
      some (0, none, s') := ⟨_, rfl⟩
  have hme : Signal.oneThread 1 = some Signal.newThread := rfl
  exact ⟨s', hcall, (temporary_mask_undone hme).1 _ _ _ _ _ _ hcall⟩

end SC7.Select
