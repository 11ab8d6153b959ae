-- SUMMARY: Runs of handlers that are entered and returned from: each `sigreturn` gives back the context of its delivery, under which conditions.
import SC7.Kernel.Signal

/-!
# Deliveries and returns

A run is any order of deliveries, of user code and of calls of `sigreturn`. The contexts of the
handlers that have been entered and not returned from are kept beside the thread, and compared with
the frames that the kernel has saved.
-/

namespace SC7.Signal

namespace Task

variable {arch : Arch} {env : Env} {t t' : Task} {sig : Nat}

/-! ## What the parts of a delivery leave alone -/

/-- The trap frame, the mask, the frames and the dispositions stay, and the thread goes on. -/
structure Same (t t' : Task) : Prop where
  tf : t'.tf = t.tf
  sigSet : t'.sigSet = t.sigSet
  frames : t'.frames = t.frames
  sigaction : t'.sigaction = t.sigaction
  exited : t'.exited = t.exited
  stack : t'.vma = t.vma ∧ t'.altSp = t.altSp ∧ t'.altSize = t.altSize

theorem Same.refl (t : Task) : Same t t := ⟨rfl, rfl, rfl, rfl, rfl, rfl, rfl, rfl⟩

theorem same_clearPending (t : Task) (sig : Nat) : Same t (t.clearPending sig) :=
  ⟨rfl, rfl, rfl, rfl, rfl, rfl, rfl, rfl⟩

/-- The search clears pending signals only. -/
theorem pendingLoop_eq (sigs : List Nat) (pending : UInt64) (t : Task) :
    ∃ p, (pendingLoop sigs pending t).2 = { t with sigPending := p } := by
  fun_induction pendingLoop sigs pending t with
  | case1 pending t => exact ⟨t.sigPending, rfl⟩
  | case2 sig sigs pending t hbit hign t' pending' hnone => exact ⟨t'.sigPending, rfl⟩
  | case3 sig sigs pending t hbit hign t' pending' hsome ih => exact ih
  | case4 sig sigs pending t hbit hign => exact ⟨t.sigPending, rfl⟩
  | case5 sig sigs pending t hbit ih => exact ih

theorem checkPendingSignals_eq (t : Task) :
    ∃ p, t.checkPendingSignals.2 = { t with sigPending := p } := by
  rw [checkPendingSignals]
  split
  · exact ⟨t.sigPending, rfl⟩
  · simp only
    split
    · exact ⟨t.sigPending, rfl⟩
    · exact pendingLoop_eq _ _ t

theorem same_handleSignal (t : Task) (sig : Nat) : Same t (t.handleSignal sig).2 := by
  rw [handleSignal]
  split
  · exact same_clearPending t sig
  · split
    · exact Same.refl t
    · split
      · simp only
        split <;> exact ⟨rfl, rfl, rfl, rfl, rfl, rfl, rfl, rfl⟩
      · split
        · exact same_clearPending t sig
        · split
          · simp only
            split
            · exact ⟨rfl, rfl, rfl, rfl, rfl, rfl, rfl, rfl⟩
            · split
              · split <;> exact ⟨rfl, rfl, rfl, rfl, rfl, rfl, rfl, rfl⟩
              · split <;> exact ⟨rfl, rfl, rfl, rfl, rfl, rfl, rfl, rfl⟩
          · exact same_clearPending t sig

/-- A signal that is not for cancellation does not end the thread. -/
theorem handleSignal_shouldExit (t : Task) (sig : Nat)
    (hsig : t.cancelEnabled = false ∨ sig ≠ SIGCANCEL ∧ sig ≠ SIGCANCEL + 1) :
    (t.handleSignal sig).2.shouldExit = t.shouldExit := by
  rw [handleSignal]
  split
  · rfl
  · split
    · rfl
    · split
      · rename_i hcancel
        obtain hoff | ⟨hne, hne'⟩ := hsig
        · simp only [hoff]
          rfl
        · exact absurd hcancel (by tauto)
      · split
        · rfl
        · split
          · simp only
            split
            · rfl
            · split
              · split <;> rfl
              · split <;> rfl
          · rfl

/-! ## A delivery -/

/-- There is a stack for the handler, and what is written there can be written. -/
def StackReady (env : Env) (t : Task) (sig : Nat) : Prop :=
  if (t.sigaction sig).flags ≠ 0 then
    ∃ sp, t.handlerStack (t.tf.sp - siginfoSize - ucontextSize) (siginfoSize + ucontextSize) = some sp ∧
      t.safeWrite env sp siginfoSize = true ∧ t.safeWrite env (sp + siginfoSize) ucontextSize = true
  else ∃ sp, t.handlerStack (alignDown16 (t.tf.sp - 128)) 128 = some sp

/-- The state is one from which the handler of the next signal, if there is one, is entered and from
which it can come back: there is memory for the frame and a stack, the handler is above the first
page, the signal does not cancel the thread, and `a0` is 0. -/
def Deliverable (env : Env) (t : Task) : Prop :=
  let sig := t.checkPendingSignals.1
  sig ≠ 0 → (t.sigaction sig).handler ≠ 0 →
    env.kalloc = true ∧ env.kmalloc = true ∧ t.StackReady env sig ∧
      0x1000 ≤ (t.sigaction sig).handler ∧
      (t.cancelEnabled = false ∨ sig ≠ SIGCANCEL ∧ sig ≠ SIGCANCEL + 1) ∧ t.tf.a0 = 0

theorem StackReady.congr (h : t.StackReady env sig) (hact : t'.sigaction = t.sigaction)
    (hsp : t'.tf.sp = t.tf.sp)
    (hstack : t'.vma = t.vma ∧ t'.altSp = t.altSp ∧ t'.altSize = t.altSize) :
    t'.StackReady env sig := by
  simp only [StackReady, handlerStack, safeWrite, validStackAddr, hact, hsp, hstack.1, hstack.2.1,
    hstack.2.2] at h ⊢
  exact h

/-- With a stack the arguments are set, and what a later `sigreturn` reads stays. -/
theorem setArgs_ready (h : t.StackReady env sig) :
    (t.setArgs env sig).1 = true ∧ (t.setArgs env sig).2.frames = t.frames ∧
      (t.setArgs env sig).2.sigaction = t.sigaction ∧ (t.setArgs env sig).2.exited = t.exited ∧
      (t.setArgs env sig).2.shouldExit = t.shouldExit := by
  rw [StackReady] at h
  simp only [setArgs]
  split at h
  · rename_i hflags
    obtain ⟨sp, hsp, hinfo, hcontext⟩ := h
    have hsp' : ({ t with tf := { t.tf with a0 := UInt64.ofNat sig } } : Task).handlerStack
        (t.tf.sp - siginfoSize - ucontextSize) (siginfoSize + ucontextSize) = some sp := hsp
    rw [if_pos hflags]
    simp only [hsp']
    have hinfo' : ({ t with tf := { t.tf with a0 := UInt64.ofNat sig } } : Task).safeWrite env sp
        siginfoSize = true := hinfo
    have hcontext' : ({ t with tf := { t.tf with a0 := UInt64.ofNat sig } } : Task).safeWrite env
        (sp + siginfoSize) ucontextSize = true := hcontext
    rw [if_pos hinfo', if_pos hcontext']
    exact ⟨rfl, rfl, rfl, rfl, rfl⟩
  · rename_i hflags
    obtain ⟨sp, hsp⟩ := h
    have hsp' : ({ t with tf := { t.tf with a0 := UInt64.ofNat sig } } : Task).handlerStack
        (alignDown16 (t.tf.sp - 128)) 128 = some sp := hsp
    rw [if_neg hflags]
    simp only [hsp']
    exact ⟨trivial, trivial, trivial, trivial, trivial⟩

/-- The end of a delivery, from the state after `handle_signal`. -/
theorem delivered {p : UInt64} (hsame : Same { t with sigPending := p } t') (hk : env.kalloc = true)
    (hm : env.kmalloc = true) (hstack : t.StackReady env sig)
    (hhandler : 0x1000 ≤ (t.sigaction sig).handler) (hexit : t'.shouldExit = t.shouldExit)
    (hgo : ¬ t.shouldExit = true) (hexited : t.exited = false) (ha0 : t.tf.a0 = 0) :
    let args := (t'.saveFrame env sig).setArgs env sig
    let r := if args.1 then args.2.enterHandler arch sig else (0, args.2)
    r.2.frames = ⟨sig, t.tf.ra, t.sigSet, t.tf⟩ :: t.frames ∧ r.1 = 1 ∧ r.2.exited = false ∧ t.tf.a0 = 0 := by
  have hsave : t'.saveFrame env sig =
      { t' with frames := ⟨sig, t.tf.ra, t.sigSet, t.tf⟩ :: t.frames } := by
    rw [saveFrame, hk, hm, hsame.tf, hsame.sigSet, hsame.frames]
    rfl
  have hready : (t'.saveFrame env sig).StackReady env sig := by
    rw [hsave]
    exact hstack.congr hsame.sigaction (congrArg Trapframe.sp hsame.tf) hsame.stack
  obtain ⟨hok, hframes, hact, hex, hshould⟩ := setArgs_ready hready
  have hhigh : ¬ (((t'.saveFrame env sig).setArgs env sig).2.sigaction sig).handler < 0x1000 := by
    rw [hact, hsave]
    simp only [hsame.sigaction]
    exact UInt64.not_lt.mpr hhandler
  simp only [hok, if_true, enterHandler, if_neg hhigh]
  refine ⟨?_, trivial, ?_, ha0⟩
  · rw [hframes, hsave]
  · rw [hex, hshould, hsave]
    simp only [hsame.exited, hexit, hexited]
    simpa using hgo

/-- A delivery from a deliverable state enters no handler and saves no frame, or it does both. -/
theorem Deliverable.cases (arch : Arch) (h : t.Deliverable env) (hexited : t.exited = false) :
    ((t.checkAndHandleSignals arch env).2.frames = t.frames ∧
        ((t.checkAndHandleSignals arch env).1 = 0 ∨
          (t.checkAndHandleSignals arch env).2.exited = true)) ∨
      ∃ sig, (t.checkAndHandleSignals arch env).2.frames = ⟨sig, t.tf.ra, t.sigSet, t.tf⟩ :: t.frames ∧
        (t.checkAndHandleSignals arch env).1 = 1 ∧
        (t.checkAndHandleSignals arch env).2.exited = false ∧ t.tf.a0 = 0 := by
  rw [checkAndHandleSignals]
  split
  · exact .inl ⟨rfl, .inl rfl⟩
  · split
    · exact .inl ⟨rfl, .inr rfl⟩
    · split
      · exact .inl ⟨rfl, .inr rfl⟩
      · rename_i hzombie hcancel hgo
        obtain ⟨p, hpend⟩ := checkPendingSignals_eq t
        generalize hcheck : t.checkPendingSignals = found at hpend
        obtain ⟨sig, t₁⟩ := found
        simp only at hpend ⊢
        subst hpend
        split
        · exact .inl ⟨rfl, .inl rfl⟩
        · rename_i hsig
          have hsame := same_handleSignal { t with sigPending := p } sig
          have hexit := handleSignal_shouldExit { t with sigPending := p } sig
          generalize hdone : ({ t with sigPending := p } : Task).handleSignal sig = done at hsame hexit
          obtain ⟨handled, t₂⟩ := done
          simp only at hsame hexit ⊢
          split
          · rename_i hdeliver
            have hact : t₂.sigaction sig = t.sigaction sig := by rw [hsame.sigaction]
            have hready := h (by rw [hcheck]; exact hsig)
            simp only [hcheck] at hready
            obtain ⟨hk, hm, hstack, hhandler, hnocancel, ha0⟩ := hready (by rw [← hact]; exact hdeliver.2)
            refine .inr ⟨sig, ?_⟩
            exact delivered hsame hk hm hstack hhandler (hexit hnocancel) hgo hexited ha0
          · exact .inl ⟨hsame.frames, .inl rfl⟩

/-- `sigreturn` takes the newest frame, and its result goes to `a0`. -/
theorem syscallSigreturn_cons {frame : Frame} {frames : List Frame} (h : t.frames = frame :: frames)
    (hzombie : t.zombie = false) :
    t.syscallSigreturn.tf = { frame.tf with a0 := 0 } ∧ t.syscallSigreturn.sigSet = frame.signalMask ∧
      t.syscallSigreturn.frames = frames := by
  simp only [syscallSigreturn, sysSigreturn, restoreSignalContext, h, hzombie]
  cases t.shouldExit <;> exact ⟨rfl, rfl, rfl⟩

theorem syscallSigreturn_nil (h : t.frames = []) : t.syscallSigreturn.frames = [] := by
  simp only [syscallSigreturn, sysSigreturn, h, List.isEmpty_nil, if_true]

end Task

/-! ## Runs -/

/-- A thread with the contexts (trap frame and mask) of the handlers it has entered and not returned
from, the newest first. -/
structure Run where
  task : Task
  entered : List (Trapframe × UInt64)

/-- What happens to a thread. -/
inductive Event where
  /-- User code and other system calls: everything but the saved frames may change. -/
  | user (task : Task)
  | deliver (env : Env)
  | sigreturn

namespace Run

variable {arch : Arch} {r r' : Run} {e : Event}

/-- One event; none for a thread that has ended. -/
def step (arch : Arch) (r : Run) (e : Event) : Option Run :=
  if r.task.exited || r.task.zombie then none
  else
    match e with
    | .user task => some { r with task := { task with frames := r.task.frames } }
    | .deliver env =>
      let (ret, task) := r.task.checkAndHandleSignals arch env
      some
        { task
          entered :=
            if ret = 1 ∧ task.exited = false then (r.task.tf, r.task.sigSet) :: r.entered
            else r.entered }
    | .sigreturn => some { task := r.task.syscallSigreturn, entered := r.entered.tail }

def Step (arch : Arch) (r r' : Run) : Prop := ∃ e, r.step arch e = some r'

/-- A step whose delivery, if it is one, is from a deliverable state. -/
def SafeStep (arch : Arch) (r r' : Run) : Prop :=
  ∃ e, r.step arch e = some r' ∧ ∀ env, e = .deliver env → r.task.Deliverable env

/-- A thread that is in no handler. -/
def Fresh (r : Run) : Prop := r.task.frames = [] ∧ r.entered = []

/-- There is one frame for each handler, and a `sigreturn` of a thread that is not to end gives back
the trap frame and the mask of the last delivery. -/
structure Inverse (r : Run) : Prop where
  count : r.task.frames.length = r.entered.length
  back : ∀ tf mask rest, r.entered = (tf, mask) :: rest → r.task.exited = false →
    r.task.zombie = false → r.task.shouldExit = false →
      r.task.syscallSigreturn.tf = tf ∧ r.task.syscallSigreturn.sigSet = mask

/-- The frames hold the contexts of the handlers, and `a0` is 0 in all of them. -/
structure Matched (r : Run) : Prop where
  frames : (r.task.frames.map fun f => (f.tf, f.signalMask)) = r.entered
  zero : ∀ f ∈ r.task.frames, f.tf.a0 = 0

theorem Matched.inverse (h : r.Matched) : r.Inverse where
  count := by rw [← h.frames, List.length_map]
  back tf mask rest hentered _ hzombie _ := by
    rw [← h.frames, List.map_eq_cons_iff] at hentered
    obtain ⟨frame, frames, hframes, hcontext, -⟩ := hentered
    cases hcontext
    obtain ⟨htf, hmask, -⟩ := Task.syscallSigreturn_cons hframes hzombie
    refine ⟨?_, hmask⟩
    have ha0 : frame.tf.a0 = 0 := h.zero frame (by rw [hframes]; exact List.mem_cons_self)
    rw [htf, ← ha0]

theorem Matched.step (h : r.Matched) (hstep : SafeStep arch r r') : r'.Matched := by
  obtain ⟨e, hstep, hsafe⟩ := hstep
  simp only [Run.step] at hstep
  split at hstep
  · cases hstep
  · rename_i hlive
    rw [Bool.or_eq_true, not_or, Bool.not_eq_true, Bool.not_eq_true] at hlive
    cases e with
    | user task =>
      cases hstep
      exact ⟨h.frames, h.zero⟩
    | deliver env =>
      obtain ⟨hframes, hret⟩ | ⟨sig, hframes, hret, hgo, ha0⟩ := (hsafe env rfl).cases arch hlive.1
      · rw [← Option.some.inj hstep]
        have hnot : ¬ ((r.task.checkAndHandleSignals arch env).1 = 1 ∧
            (r.task.checkAndHandleSignals arch env).2.exited = false) := by
          rintro ⟨hone, hgo⟩
          obtain hzero | hexit := hret
          · rw [hzero] at hone
            cases hone
          · rw [hexit] at hgo
            cases hgo
        simp only [if_neg hnot]
        exact ⟨by simp only [hframes]; exact h.frames, by simp only [hframes]; exact h.zero⟩
      · rw [← Option.some.inj hstep]
        simp only [if_pos (And.intro hret hgo)]
        constructor
        · simp only [hframes, List.map_cons, h.frames]
        · simp only [hframes, List.forall_mem_cons]
          exact ⟨ha0, h.zero⟩
    | sigreturn =>
      cases hstep
      cases hframes : r.task.frames with
      | nil =>
        have hnil := Task.syscallSigreturn_nil hframes
        have hentered : r.entered = [] := by rw [← h.frames, hframes, List.map_nil]
        exact ⟨by rw [hnil, hentered]; rfl, by rw [hnil]; exact nofun⟩
      | cons frame frames =>
        obtain ⟨-, -, hrest⟩ := Task.syscallSigreturn_cons hframes hlive.2
        constructor
        · rw [hrest, ← h.frames, hframes, List.map_cons, List.tail_cons]
        · intro f hf
          rw [hrest] at hf
          exact h.zero f (by rw [hframes]; exact List.mem_cons_of_mem _ hf)

/-! ## One delivery -/

/-- A thread with signal 1 pending, whose handler is at 0x2000, and with `a0` as given. -/
def hangup (a0 : UInt64) : Run where
  task :=
    { tf := ⟨0x1000, 0, 0x10000, a0, 0, 0, fun _ => 0⟩
      sigSet := 0
      sigPending := 1
      sigaction := fun _ => ⟨0x2000, 0⟩
      frames := []
      altSp := 0
      altSize := 0
      currentSignal := 0
      signalInterrupted := false
      handlingSignal := 0
      cancelEnabled := true
      cancelRequested := false
      shouldExit := false
      exited := false
      zombie := false
      killed := 0
      stopped := false
      stopSignal := 0
      continued := false
      sigTrapframe := ⟨0, 0, 0, 0, 0, 0, fun _ => 0⟩
      vma := [] }
  entered := []

/-- There is memory, and every address can be written. -/
def ample : Env := ⟨true, true, fun _ _ => true⟩

/-- The thread in its handler. -/
def inHandler (a0 : UInt64) : Run where
  task := ((hangup a0).task.checkAndHandleSignals .riscv ample).2
  entered := [((hangup a0).task.tf, 0)]

theorem checkPendingSignals_hangup (a0 : UInt64) :
    (hangup a0).task.checkPendingSignals = (1, (hangup a0).task) := by
  have hrange : List.range' 1 SIGRTMAX = 1 :: List.range' 2 63 := rfl
  have hpending : (1 : UInt64) &&& ~~~0 = 1 := by decide
  have hbit : (1 : UInt64) &&& sigBit 1 ≠ 0 := by decide
  have hign : (0x2000 : UInt64) ≠ SIG_IGN := by decide
  simp only [Task.checkPendingSignals, hangup, hrange, hpending, Task.pendingLoop, if_pos hbit, if_neg hign]
  rfl

theorem delivered_hangup (a0 : UInt64) :
    ((hangup a0).task.checkAndHandleSignals .riscv ample).1 = 1 ∧
      ((hangup a0).task.checkAndHandleSignals .riscv ample).2.exited = false ∧
      ((hangup a0).task.checkAndHandleSignals .riscv ample).2.zombie = false ∧
      ((hangup a0).task.checkAndHandleSignals .riscv ample).2.shouldExit = false ∧
      ((hangup a0).task.checkAndHandleSignals .riscv ample).2.frames = [⟨1, 0, 0, (hangup a0).task.tf⟩] := by
  rw [Task.checkAndHandleSignals, checkPendingSignals_hangup]
  simp [hangup, Task.handleSignal, Task.saveFrame, Task.setArgs, Task.handlerStack,
    Task.validStackAddr, Task.enterHandler, Task.clearPending, ample, SIGRTMAX, SIGCANCEL, SIG_IGN,
    SIG_DFL]

theorem step_hangup (a0 : UInt64) : (hangup a0).step .riscv (.deliver ample) = some (inHandler a0) := by
  obtain ⟨hret, hgo, -⟩ := delivered_hangup a0
  have hlive : ¬ ((hangup a0).task.exited || (hangup a0).task.zombie) = true := nofun
  simp only [step, if_neg hlive, if_pos (And.intro hret hgo), inHandler]
  rfl

theorem deliverable_hangup : (hangup 0).task.Deliverable ample := by
  simp only [Task.Deliverable, checkPendingSignals_hangup]
  intro _ _
  refine ⟨rfl, rfl, ?_, by decide, .inr (by decide), rfl⟩
  have hflags : ¬ ((hangup 0).task.sigaction 1).flags ≠ 0 := by decide
  rw [Task.StackReady, if_neg hflags]
  exact ⟨_, rfl⟩

theorem reaches_inHandler : Reaches (SafeStep .riscv) (hangup 0) (inHandler 0) := by
  refine Relation.ReflTransGen.single ⟨.deliver ample, step_hangup 0, ?_⟩
  rintro env henv
  cases henv
  exact deliverable_hangup

/-! ## The result -/

/-- If every delivery is from a deliverable state, deliveries and returns are inverse. -/
theorem sigreturn_inverse {r₀ : Run} (hfresh : r₀.Fresh) (hrun : Reaches (SafeStep arch) r₀ r) :
    r.Inverse := by
  have hstart : r₀.Matched := by
    refine ⟨?_, ?_⟩
    · rw [hfresh.1, hfresh.2, List.map_nil]
    · rw [hfresh.1]
      exact nofun
  exact (hrun.invariant hstart fun _ _ ht hstep => ht.step hstep).inverse

theorem sigreturn_inverse_hangup : (hangup 0).Fresh ∧ (inHandler 0).Inverse :=
  ⟨⟨rfl, rfl⟩, sigreturn_inverse ⟨rfl, rfl⟩ reaches_inHandler⟩

/-- With 5 in `a0` at the delivery, the thread comes back with 0. -/
theorem not_inverse_hangup :
    ¬ ∀ arch r₀ r, r₀.Fresh → Reaches (Step arch) r₀ r → r.Inverse := by
  intro hall
  have hstep : Step .riscv (hangup 5) (inHandler 5) := ⟨.deliver ample, step_hangup 5⟩
  have hinv := hall .riscv (hangup 5) (inHandler 5) ⟨rfl, rfl⟩ (.single hstep)
  obtain ⟨-, hgo, hzombie, hstay, hframes⟩ := delivered_hangup 5
  obtain ⟨hback, -⟩ := hinv.back _ _ _ rfl hgo hzombie hstay
  obtain ⟨htf, -, -⟩ := Task.syscallSigreturn_cons hframes hzombie
  have ha0 : (0 : UInt64) = 5 := congrArg Trapframe.a0 (htf.symm.trans hback)
  exact absurd ha0 (by decide)

end Run

end SC7.Signal
