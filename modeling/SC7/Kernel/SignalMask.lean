-- SUMMARY: The signal masks of threads: every operation that writes one, and when `SIGKILL` and `SIGSTOP` stay out of them.
import SC7.Base.Bits
import SC7.Kernel.SignalFrames

/-!
# Signal masks

Threads with their masks, the masks that `pselect6` and `ppoll` keep for the time after the call, and
the masks in the frames of the handlers that run. `sigprocmask` is meant to keep `SIGKILL` and `SIGSTOP`
out of the mask and puts them in; `pselect6`, `ppoll` and `clone` take the mask of the caller as it is;
the other operations only copy masks that are there or add the signal that is handled.
-/

namespace SC7.Signal

open Function (update update_of_ne update_self)
open SC7

def SIGKILL : Nat := 9
def SIGTERM : Nat := 15
def SIGSTKFLT : Nat := 16
def SIG_BLOCK : Int := 0
def SIG_UNBLOCK : Int := 1
def SIG_SETMASK : Int := 2

/-- `full_sigset`. -/
def fullSigset : UInt64 := 0xFFFFFFFFFFFFFFFF

/-- The last two assignments of `sigprocmask`. -/
def specialRule (mask : UInt64) : UInt64 :=
  (mask ||| (sigBit SIGKILL ||| sigBit SIGSTOP)) &&& ~~~(1 <<< UInt64.ofNat SIGTERM)

/-- `sigprocmask`, on the mask of the thread. -/
def sigprocmask (how : Int) (set mask : UInt64) : Int × UInt64 :=
  if how = SIG_BLOCK then (0, specialRule (mask ||| set))
  else if how = SIG_UNBLOCK then (0, specialRule (mask &&& ~~~set))
  else if how = SIG_SETMASK then (0, specialRule set)
  else (-1, mask)

/-- A thread: what `signal.c` works on, its process, the mask to restore at the end of a `pselect6` or
`ppoll` that is going on, and whether it has called `exit`. -/
structure Thread where
  task : Task
  pid : Nat
  oldSigmask : Option UInt64
  exiting : Bool

abbrev Tid := Nat

/-- The threads of all processes. -/
abbrev Threads := Tid → Option Thread

namespace Thread

def setMask (th : Thread) (mask : UInt64) : Thread :=
  { th with task := { th.task with sigSet := mask } }

/-- `set_sigaction`, for one thread. -/
def setSigaction (th : Thread) (signum : Nat) (act : SigAction) : Thread :=
  { th with task := { th.task with sigaction := update th.task.sigaction signum act } }

/-- The default `SIG_IGN` for `SIGCHLD` that `sys_clone` sets. -/
def ignoreChild (th : Thread) : Thread :=
  if (th.task.sigaction SIGCHLD).handler = 0 then th.setSigaction SIGCHLD ⟨SIG_IGN, 0⟩ else th

/-- `exit`: all signals are masked, and the thread does not come back. -/
def exit (th : Thread) : Thread := { th.setMask fullSigset with exiting := true }

end Thread

/-- The actions of one thread; `set` and `sigMask` are what the call read from user memory. -/
inductive MaskOp where
  | sigprocmask (how : Int) (set : UInt64)
  | sigaction (signum : Nat) (act : SigAction)
  | deliver (arch : Arch) (env : Env)
  | sigreturn
  | selectEnter (sigmask : UInt64)
  | selectLeave
  | fork (child : Tid) (th : Thread) (sigchld : Bool)
  | clone (child : Tid) (th : Thread) (sigMask : UInt64)
  | cloneThread (child : Tid) (th : Thread) (sigMask : UInt64)
  | exit

/-- The signal fields of a thread that `alloc_thread` has set up. -/
structure Thread.Fresh (th : Thread) : Prop where
  sigSet : th.task.sigSet = 0
  sigaction : ∀ sig, th.task.sigaction sig = ⟨0, 0⟩
  frames : th.task.frames = []
  oldSigmask : th.oldSigmask = none
  exiting : th.exiting = false

/-- What other code may do to a thread: send signals, stop it, change its registers. -/
structure Thread.Alike (th th' : Thread) : Prop where
  sigSet : th'.task.sigSet = th.task.sigSet
  sigaction : th'.task.sigaction = th.task.sigaction
  frames : th'.task.frames = th.task.frames
  pid : th'.pid = th.pid
  oldSigmask : th'.oldSigmask = th.oldSigmask
  exiting : th'.exiting = th.exiting

namespace Threads

/-- `set_sigaction`, for all threads of the process. -/
def setSigaction (s : Threads) (pid signum : Nat) (act : SigAction) : Threads := fun tid =>
  (s tid).map fun th => if th.pid = pid then th.setSigaction signum act else th

/-- One action of thread `tid`. The threads that a call makes come from `alloc_thread`. -/
inductive Act (s : Threads) (tid : Tid) (th : Thread) : MaskOp → Threads → Prop where
  | sigprocmask (how : Int) (set : UInt64) : Act s tid th (.sigprocmask how set)
        (update s tid (some (th.setMask (sigprocmask how set th.task.sigSet).2)))
  | sigaction (signum : Nat) (act : SigAction) (hrange : 0 < signum ∧ signum < SIGRTMAX)
      (hkill : signum ≠ SIGKILL) (hstop : signum ≠ SIGSTOP) :
      Act s tid th (.sigaction signum act) (s.setSigaction th.pid signum act)
  | deliver (arch : Arch) (env : Env) : Act s tid th (.deliver arch env)
        (update s tid (some { th with task := (th.task.checkAndHandleSignals arch env).2 }))
  | sigreturn :
      Act s tid th .sigreturn (update s tid (some { th with task := th.task.syscallSigreturn }))
  | selectEnter (sigmask : UInt64) (hout : th.oldSigmask = none) : Act s tid th (.selectEnter sigmask)
        (update s tid
          (some { th.setMask sigmask with oldSigmask := some th.task.sigSet }))
  | selectLeave (old : UInt64) (hin : th.oldSigmask = some old) : Act s tid th .selectLeave
        (update s tid (some { th.setMask old with oldSigmask := none }))
  | fork (child : Tid) (new : Thread) (sigchld : Bool) (hfree : s child = none) (hnew : new.Fresh) :
      Act s tid th (.fork child new sigchld)
        (update (update s tid (some (if sigchld then th.ignoreChild else th))) child (some new))
  | clone (child : Tid) (new : Thread) (sigMask : UInt64) (hfree : s child = none) (hnew : new.Fresh) :
      Act s tid th (.clone child new sigMask) (update s child (some (new.setMask sigMask)))
  | cloneThread (child : Tid) (new : Thread) (sigMask : UInt64) (hfree : s child = none)
      (hnew : new.Fresh) (hpid : new.pid = th.pid) :
      Act s tid th (.cloneThread child new sigMask) (update s child
          (some { new with
            task := { new.task with sigSet := th.task.sigSet &&& sigMask, sigaction := th.task.sigaction } }))
  | exit : Act s tid th .exit (update s tid (some th.exit))

/-- One step of the system: an action of a thread that has not called `exit`, something else that
happens to a thread, or its end. -/
inductive Step (meets : MaskOp → Prop) (s : Threads) : Threads → Prop where
  | act (tid : Tid) (th : Thread) (op : MaskOp) (s' : Threads) (hth : s tid = some th)
      (hrun : th.exiting = false) (hmeets : meets op) (hact : Act s tid th op s') : Step meets s s'
  | other (tid : Tid) (th th' : Thread) (hth : s tid = some th) (halike : th.Alike th') :
      Step meets s (update s tid (some th'))
  | reap (tid : Tid) : Step meets s (update s tid none)

end Threads

/-! ## Signals in a mask -/

/-- The mask holds the signal back. -/
def Blocks (mask : UInt64) (sig : Nat) : Prop := mask &&& sigBit sig ≠ 0

instance (mask : UInt64) (sig : Nat) : Decidable (Blocks mask sig) :=
  inferInstanceAs (Decidable (mask &&& sigBit sig ≠ 0))

/-- A signal number that has a bit. -/
def IsSignal (sig : Nat) : Prop := 1 ≤ sig ∧ sig ≤ SIGRTMAX

instance (sig : Nat) : Decidable (IsSignal sig) := inferInstanceAs (Decidable (1 ≤ sig ∧ sig ≤ SIGRTMAX))

section

variable {mask mask' set : UInt64} {sig sig' : Nat}

variable (h : IsSignal sig)

include h

theorem IsSignal.lt : sig - 1 < 64 := by
  obtain ⟨_, hhi⟩ := h
  simp only [SIGRTMAX] at hhi
  omega

theorem blocks_iff : Blocks mask sig ↔ mask.toBitVec.getLsbD (sig - 1) = true :=
  Bits.and_one_shiftLeft_ne_zero h.lt

theorem blocks_or : Blocks (mask ||| mask') sig ↔ Blocks mask sig ∨ Blocks mask' sig := by
  rw [blocks_iff h, blocks_iff h, blocks_iff h, UInt64.toBitVec_or, BitVec.getLsbD_or, Bool.or_eq_true]

theorem blocks_and : Blocks (mask &&& mask') sig ↔ Blocks mask sig ∧ Blocks mask' sig := by
  rw [blocks_iff h, blocks_iff h, blocks_iff h, UInt64.toBitVec_and, BitVec.getLsbD_and, Bool.and_eq_true]

theorem blocks_not : Blocks (~~~mask) sig ↔ ¬ Blocks mask sig := by
  rw [blocks_iff h, blocks_iff h, UInt64.toBitVec_not, BitVec.getLsbD_not]
  simp [h.lt]

theorem blocks_sigBit (h' : IsSignal sig') : Blocks (sigBit sig') sig ↔ sig = sig' := by
  rw [blocks_iff h, sigBit, Bits.toBitVec_one_shiftLeft h'.lt, BitVec.getLsbD_twoPow]
  obtain ⟨hlo, _⟩ := h
  obtain ⟨hlo', hhi'⟩ := h'
  simp only [SIGRTMAX] at hhi'
  simp only [Bool.and_eq_true, decide_eq_true_eq]
  omega

/-- The special rule of `sigprocmask`: both signals get blocked, and the signal after `SIGTERM` gets
unblocked. -/
theorem blocks_specialRule :
    Blocks (specialRule mask) sig ↔ (Blocks mask sig ∨ sig = SIGKILL ∨ sig = SIGSTOP) ∧ sig ≠ SIGSTKFLT := by
  have hterm : (1 <<< UInt64.ofNat SIGTERM : UInt64) = sigBit SIGSTKFLT := rfl
  rw [specialRule, hterm, blocks_and h, blocks_not h, blocks_or h, blocks_or h,
    blocks_sigBit h (by decide), blocks_sigBit h (by decide), blocks_sigBit h (by decide)]

end

/-- Neither of the two signals that cannot be blocked is blocked. -/
structure Clean (mask : UInt64) : Prop where
  kill : ¬ Blocks mask SIGKILL
  stop : ¬ Blocks mask SIGSTOP

theorem Clean.zero : Clean 0 := ⟨by decide, by decide⟩

theorem Clean.and {mask mask' : UInt64} (h : Clean mask) : Clean (mask &&& mask') where
  kill hno := h.kill ((blocks_and (by decide)).mp hno).1
  stop hno := h.stop ((blocks_and (by decide)).mp hno).1

theorem Clean.or_sigBit {mask : UInt64} {sig : Nat} (h : Clean mask) (hsig : IsSignal sig)
    (hkill : sig ≠ SIGKILL) (hstop : sig ≠ SIGSTOP) : Clean (mask ||| sigBit sig) where
  kill hno := by
    rcases (blocks_or (by decide)).mp hno with hold | hnew
    · exact h.kill hold
    · exact hkill ((blocks_sigBit (by decide) hsig).mp hnew).symm
  stop hno := by
    rcases (blocks_or (by decide)).mp hno with hold | hnew
    · exact h.stop hold
    · exact hstop ((blocks_sigBit (by decide) hsig).mp hnew).symm

/-- A call of `sigprocmask` leaves the mask clean exactly if it is refused. -/
theorem sigprocmask_clean_iff (how : Int) (set : UInt64) {mask : UInt64} (h : Clean mask) :
    Clean (sigprocmask how set mask).2 ↔ how ≠ SIG_BLOCK ∧ how ≠ SIG_UNBLOCK ∧ how ≠ SIG_SETMASK := by
  have hspecial : ∀ m, ¬ Clean (specialRule m) := fun m hclean =>
    hclean.kill ((blocks_specialRule (by decide)).mpr ⟨.inr (.inl rfl), by decide⟩)
  unfold sigprocmask
  split
  · rename_i heq
    exact iff_of_false (hspecial _) fun hne => hne.1 heq
  split
  · rename_i heq
    exact iff_of_false (hspecial _) fun hne => hne.2.1 heq
  split
  · rename_i heq
    exact iff_of_false (hspecial _) fun hne => hne.2.2 heq
  · exact iff_of_true h ⟨‹_›, ‹_›, ‹_›⟩

/-- The bits of the other signals are those that the call asked for. -/
def Exact (how : Int) (set mask mask' : UInt64) : Prop :=
  ∀ sig, IsSignal sig → sig ≠ SIGKILL → sig ≠ SIGSTOP →
    (Blocks mask' sig ↔ if how = SIG_UNBLOCK then Blocks mask sig ∧ ¬ Blocks set sig else Blocks set sig)

/-- The one signal that `SIG_UNBLOCK` and `SIG_SETMASK` get wrong is that after `SIGTERM`. -/
theorem sigprocmask_exact_iff (set mask : UInt64) {how : Int} (hhow : how = SIG_UNBLOCK ∨ how = SIG_SETMASK) :
    Exact how set mask (sigprocmask how set mask).2 ↔
      if how = SIG_UNBLOCK then Blocks mask SIGSTKFLT → Blocks set SIGSTKFLT else ¬ Blocks set SIGSTKFLT := by
  rcases hhow with rfl | rfl
  · have hres : (sigprocmask SIG_UNBLOCK set mask).2 = specialRule (mask &&& ~~~set) := rfl
    rw [hres, if_pos rfl]
    constructor
    · intro hexact hmask
      by_contra hset
      have hbad := (hexact SIGSTKFLT (by decide) (by decide) (by decide)).mpr (by
        rw [if_pos rfl]
        exact ⟨hmask, hset⟩)
      exact ((blocks_specialRule (by decide)).mp hbad).2 rfl
    · intro hcond sig hsig hkill hstop
      rw [if_pos rfl, blocks_specialRule hsig, blocks_and hsig, blocks_not hsig]
      constructor
      · rintro ⟨hmask | heq | heq, _⟩
        · exact hmask
        · exact absurd heq hkill
        · exact absurd heq hstop
      · rintro ⟨hmask, hset⟩
        refine ⟨.inl ⟨hmask, hset⟩, ?_⟩
        rintro rfl
        exact hset (hcond hmask)
  · have hres : (sigprocmask SIG_SETMASK set mask).2 = specialRule set := rfl
    have hne : ¬ SIG_SETMASK = SIG_UNBLOCK := by decide
    rw [hres, if_neg hne]
    constructor
    · intro hexact hset
      have hbad := (hexact SIGSTKFLT (by decide) (by decide) (by decide)).mpr (by
        rw [if_neg hne]
        exact hset)
      exact ((blocks_specialRule (by decide)).mp hbad).2 rfl
    · intro hcond sig hsig hkill hstop
      rw [if_neg hne, blocks_specialRule hsig]
      constructor
      · rintro ⟨hset | heq | heq, _⟩
        · exact hset
        · exact absurd heq hkill
        · exact absurd heq hstop
      · intro hset
        refine ⟨.inl hset, ?_⟩
        rintro rfl
        exact hcond hset

/-! ## A delivery -/

namespace Task

variable {arch : Arch} {env : Env} {t t' : Task} {sig : Nat}

/-- What a delivery does to the masks: a frame may keep the old one, and the signal that is handled
may be added. -/
structure Masked (t t' : Task) : Prop where
  sigaction : t'.sigaction = t.sigaction
  sigSet : t'.sigSet = t.sigSet ∨
    ∃ sig, IsSignal sig ∧ (t.sigaction sig).handler ≠ 0 ∧ t'.sigSet = t.sigSet ||| sigBit sig
  frames : ∀ frame ∈ t'.frames, frame ∈ t.frames ∨ frame.signalMask = t.sigSet

theorem Masked.of_eq (hact : t'.sigaction = t.sigaction) (hset : t'.sigSet = t.sigSet)
    (hframes : t'.frames = t.frames) : Masked t t' :=
  ⟨hact, .inl hset, fun _ hmem => .inl (hframes ▸ hmem)⟩

theorem Masked.trans_of_eq {t'' : Task} (h : Masked t t') (hset : t'.sigSet = t.sigSet)
    (h' : Masked t' t'') : Masked t t'' where
  sigaction := h'.sigaction.trans h.sigaction
  sigSet := by
    rw [← hset, ← h.sigaction]
    exact h'.sigSet
  frames frame hmem := by
    rcases h'.frames frame hmem with hold | hmask
    · exact h.frames frame hold
    · exact .inr (hmask.trans hset)

theorem pendingLoop_signal (sigs : List Nat) (pending : UInt64) (t : Task) :
    (pendingLoop sigs pending t).1 = 0 ∨ (pendingLoop sigs pending t).1 ∈ sigs := by
  fun_induction pendingLoop sigs pending t with
  | case1 pending t => exact .inl rfl
  | case2 sig sigs pending t hbit hign t' pending' hnone => exact .inl rfl
  | case3 sig sigs pending t hbit hign t' pending' hsome ih => exact ih.imp_right (List.mem_cons_of_mem _)
  | case4 sig sigs pending t hbit hign => exact .inr List.mem_cons_self
  | case5 sig sigs pending t hbit ih => exact ih.imp_right (List.mem_cons_of_mem _)

theorem checkPendingSignals_signal (t : Task) :
    t.checkPendingSignals.1 = 0 ∨ IsSignal t.checkPendingSignals.1 := by
  rw [checkPendingSignals]
  split
  · exact .inl rfl
  · simp only
    split
    · exact .inl rfl
    · refine (pendingLoop_signal _ _ t).imp_right fun hmem => ?_
      rw [List.mem_range'_1] at hmem
      exact ⟨hmem.1, by omega⟩

theorem setArgs_same (env : Env) (t : Task) (sig : Nat) :
    (t.setArgs env sig).2.sigaction = t.sigaction ∧ (t.setArgs env sig).2.sigSet = t.sigSet ∧
      (t.setArgs env sig).2.frames = t.frames := by
  rw [setArgs]
  simp only
  split
  · split
    · exact ⟨rfl, rfl, rfl⟩
    · split
      · split <;> exact ⟨rfl, rfl, rfl⟩
      · exact ⟨rfl, rfl, rfl⟩
  · split <;> exact ⟨rfl, rfl, rfl⟩

theorem saveFrame_frames (env : Env) (t : Task) (sig : Nat) :
    (t.saveFrame env sig).sigaction = t.sigaction ∧ (t.saveFrame env sig).sigSet = t.sigSet ∧
      ∀ frame ∈ (t.saveFrame env sig).frames, frame ∈ t.frames ∨ frame.signalMask = t.sigSet := by
  rw [saveFrame]
  split
  · refine ⟨rfl, rfl, fun frame hmem => ?_⟩
    rcases List.mem_cons.mp hmem with rfl | hmem
    · exact .inr rfl
    · exact .inl hmem
  · exact ⟨rfl, rfl, fun _ hmem => .inl hmem⟩

theorem enterHandler_masked (arch : Arch) (t : Task) (hsig : IsSignal sig)
    (hhandler : (t.sigaction sig).handler ≠ 0) : Masked t (t.enterHandler arch sig).2 := by
  rw [enterHandler]
  simp only
  split
  · exact .of_eq rfl rfl rfl
  · refine ⟨rfl, ?_, fun frame hmem => .inl hmem⟩
    simp only
    split
    · exact .inr ⟨sig, hsig, hhandler, rfl⟩
    · exact .inl rfl

/-- The frame is saved with the mask from before. -/
theorem checkAndHandleSignals_masked (arch : Arch) (env : Env) (t : Task) :
    Masked t (t.checkAndHandleSignals arch env).2 := by
  rw [checkAndHandleSignals]
  split
  · exact .of_eq rfl rfl rfl
  split
  · exact .of_eq rfl rfl rfl
  split
  · exact .of_eq rfl rfl rfl
  obtain ⟨pending, hpending⟩ := t.checkPendingSignals_eq
  have hsignal := t.checkPendingSignals_signal
  generalize hcheck : t.checkPendingSignals = found at hpending hsignal
  obtain ⟨sig, t₁⟩ := found
  subst hpending
  simp only
  split
  · exact .of_eq rfl rfl rfl
  rename_i hsig
  have hisSignal := hsignal.resolve_left hsig
  have hsame := same_handleSignal { t with sigPending := pending } sig
  generalize handleSignal { t with sigPending := pending } sig = handled at hsame
  obtain ⟨ret, t₂⟩ := handled
  simp only
  split
  · rename_i hhandler
    obtain ⟨hact, hset, hframes⟩ := saveFrame_frames env t₂ sig
    obtain ⟨hact', hset', hframes'⟩ := setArgs_same env (t₂.saveFrame env sig) sig
    generalize (t₂.saveFrame env sig).setArgs env sig = args at hact' hset' hframes'
    obtain ⟨ok, t₃⟩ := args
    simp only at hact' hset' hframes' ⊢
    -- up to here the mask is the old one, and the frame has a copy of it
    have hset₃ : t₃.sigSet = t.sigSet := (hset'.trans hset).trans hsame.sigSet
    have hmasked : Masked t t₃ := by
      refine ⟨(hact'.trans hact).trans hsame.sigaction, .inl hset₃, fun frame hmem => ?_⟩
      rw [hframes'] at hmem
      refine (hframes frame hmem).imp (fun hold => ?_) (fun hmask => hmask.trans hsame.sigSet)
      rwa [hsame.frames] at hold
    have hnonzero : (t₃.sigaction sig).handler ≠ 0 := by
      rw [hact', hact]
      exact hhandler.2
    split
    · exact hmasked.trans_of_eq hset₃ (enterHandler_masked arch t₃ hisSignal hnonzero)
    · exact hmasked
  · exact .of_eq hsame.sigaction hsame.sigSet hsame.frames

/-- What `sigreturn` does to the masks: one may come back from a frame. -/
structure Restored (t t' : Task) : Prop where
  sigaction : t'.sigaction = t.sigaction
  sigSet : t'.sigSet = t.sigSet ∨ ∃ frame ∈ t.frames, t'.sigSet = frame.signalMask
  frames : ∀ frame ∈ t'.frames, frame ∈ t.frames

theorem Restored.refl : Restored t t := ⟨rfl, .inl rfl, fun _ hmem => hmem⟩

theorem restoreSignalContext_restored (t : Task) : Restored t t.restoreSignalContext.2 := by
  rw [restoreSignalContext]
  split
  · exact .refl
  split
  · exact .refl
  · rename_i frame frames hframes
    have hhead : frame ∈ t.frames := by
      rw [hframes]
      exact List.mem_cons_self
    have htail : ∀ f ∈ frames, f ∈ t.frames := by
      intro f hf
      rw [hframes]
      exact List.mem_cons_of_mem _ hf
    simp only
    split <;> exact ⟨rfl, .inr ⟨frame, hhead, rfl⟩, htail⟩

theorem sysSigreturn_restored (t : Task) : Restored t t.sysSigreturn.2 := by
  have hrestored := t.restoreSignalContext_restored
  rw [sysSigreturn]
  split
  · exact .refl
  · generalize t.restoreSignalContext = r at hrestored
    obtain ⟨ret, t'⟩ := r
    simp only at hrestored ⊢
    split <;> exact ⟨hrestored.sigaction, hrestored.sigSet, hrestored.frames⟩

theorem syscallSigreturn_restored (t : Task) : Restored t t.syscallSigreturn := by
  have hrestored := t.sysSigreturn_restored
  exact ⟨hrestored.sigaction, hrestored.sigSet, hrestored.frames⟩

end Task

/-! ## Runs -/

/-- Every mask that the thread has or may get back is clean, and the two signals have no handler. -/
structure Thread.Ok (th : Thread) : Prop where
  sigSet : th.exiting = false → Clean th.task.sigSet
  frames : ∀ frame ∈ th.task.frames, Clean frame.signalMask
  oldSigmask : ∀ old, th.oldSigmask = some old → Clean old
  kill : (th.task.sigaction SIGKILL).handler = 0
  stop : (th.task.sigaction SIGSTOP).handler = 0

namespace Thread

variable {th th' : Thread}

theorem Fresh.ok (h : th.Fresh) : th.Ok where
  sigSet _ := by
    rw [h.sigSet]
    exact .zero
  frames frame hmem := by
    rw [h.frames] at hmem
    cases hmem
  oldSigmask old hold := by
    rw [h.oldSigmask] at hold
    cases hold
  kill := by rw [h.sigaction]
  stop := by rw [h.sigaction]

theorem Ok.alike (h : th.Ok) (halike : th.Alike th') : th'.Ok where
  sigSet hrun := by
    rw [halike.sigSet]
    exact h.sigSet (halike.exiting ▸ hrun)
  frames frame hmem := h.frames frame (halike.frames ▸ hmem)
  oldSigmask old hold := h.oldSigmask old (halike.oldSigmask ▸ hold)
  kill := by rw [halike.sigaction, h.kill]
  stop := by rw [halike.sigaction, h.stop]

theorem Ok.setMask {mask : UInt64} (h : th.Ok) (hmask : Clean mask) : (th.setMask mask).Ok :=
  ⟨fun _ => hmask, h.frames, h.oldSigmask, h.kill, h.stop⟩

theorem Ok.setSigaction {signum : Nat} {act : SigAction} (h : th.Ok) (hkill : signum ≠ SIGKILL)
    (hstop : signum ≠ SIGSTOP) : (th.setSigaction signum act).Ok where
  sigSet := h.sigSet
  frames := h.frames
  oldSigmask := h.oldSigmask
  kill := by
    rw [Thread.setSigaction]
    simp only [update_of_ne (Ne.symm hkill), h.kill]
  stop := by
    rw [Thread.setSigaction]
    simp only [update_of_ne (Ne.symm hstop), h.stop]

theorem Ok.ignoreChild (h : th.Ok) : th.ignoreChild.Ok := by
  rw [Thread.ignoreChild]
  split
  · exact h.setSigaction (by decide) (by decide)
  · exact h

theorem Ok.exit (h : th.Ok) : th.exit.Ok where
  sigSet hrun := by cases hrun
  frames := h.frames
  oldSigmask := h.oldSigmask
  kill := h.kill
  stop := h.stop

theorem Ok.deliver (h : th.Ok) (hrun : th.exiting = false) (arch : Arch) (env : Env) :
    Ok { th with task := (th.task.checkAndHandleSignals arch env).2 } := by
  have hmasked := th.task.checkAndHandleSignals_masked arch env
  have hclean := h.sigSet hrun
  refine ⟨fun _ => ?_, fun frame hmem => ?_, h.oldSigmask, ?_, ?_⟩
  · rcases hmasked.sigSet with heq | ⟨sig, hsig, hhandler, heq⟩
    · rw [heq]
      exact hclean
    · -- the signal that is handled has a handler, so it is neither of the two
      rw [heq]
      refine hclean.or_sigBit hsig ?_ ?_
      · rintro rfl
        exact hhandler h.kill
      · rintro rfl
        exact hhandler h.stop
  · rcases hmasked.frames frame hmem with hold | heq
    · exact h.frames frame hold
    · rw [heq]
      exact hclean
  · rw [hmasked.sigaction, h.kill]
  · rw [hmasked.sigaction, h.stop]

theorem Ok.sigreturn (h : th.Ok) (hrun : th.exiting = false) :
    Ok { th with task := th.task.syscallSigreturn } := by
  have hrestored := th.task.syscallSigreturn_restored
  refine ⟨fun _ => ?_, fun frame hmem => h.frames frame (hrestored.frames frame hmem), h.oldSigmask, ?_, ?_⟩
  · rcases hrestored.sigSet with heq | ⟨frame, hmem, heq⟩
    · rw [heq]
      exact h.sigSet hrun
    · rw [heq]
      exact h.frames frame hmem
  · rw [hrestored.sigaction, h.kill]
  · rw [hrestored.sigaction, h.stop]

end Thread

namespace Threads

variable {s s' : Threads} {tid : Tid} {th : Thread}

/-- All threads are in order. -/
def AllOk (s : Threads) : Prop := ∀ tid th, s tid = some th → th.Ok

theorem AllOk.update (h : s.AllOk) (hth : th.Ok) : AllOk (update s tid (some th)) := by
  intro tid' th' heq
  by_cases htid : tid' = tid
  · subst htid
    rw [update_self] at heq
    cases heq
    exact hth
  · rw [update_of_ne htid] at heq
    exact h tid' th' heq

theorem AllOk.setSigaction {pid signum : Nat} {act : SigAction} (h : s.AllOk) (hkill : signum ≠ SIGKILL)
    (hstop : signum ≠ SIGSTOP) : AllOk (s.setSigaction pid signum act) := by
  intro tid th heq
  simp only [Threads.setSigaction, Option.map_eq_some_iff] at heq
  obtain ⟨th₀, hth₀, rfl⟩ := heq
  split
  · exact (h tid th₀ hth₀).setSigaction hkill hstop
  · exact h tid th₀ hth₀

/-- The operations that keep the two signals out of the mask: a `sigprocmask` that is refused, and a
mask for `pselect6`, `ppoll` or `clone` in which they are not. -/
def KeepsClean : MaskOp → Prop
  | .sigprocmask how _ => how ≠ SIG_BLOCK ∧ how ≠ SIG_UNBLOCK ∧ how ≠ SIG_SETMASK
  | .selectEnter sigmask => Clean sigmask
  | .clone _ _ sigMask => Clean sigMask
  | _ => True

theorem AllOk.act {op : MaskOp} (h : s.AllOk) (hth : s tid = some th) (hrun : th.exiting = false)
    (hmeets : KeepsClean op) (hact : Act s tid th op s') : s'.AllOk := by
  have hok := h tid th hth
  cases hact with
  | sigprocmask how set =>
    exact h.update (hok.setMask ((sigprocmask_clean_iff how set (hok.sigSet hrun)).mpr hmeets))
  | sigaction signum act _ hkill hstop => exact h.setSigaction hkill hstop
  | deliver arch env => exact h.update (hok.deliver hrun arch env)
  | sigreturn => exact h.update (hok.sigreturn hrun)
  | selectEnter sigmask hout =>
    have hmask := hok.setMask hmeets
    refine h.update ⟨hmask.sigSet, hmask.frames, fun old hold => ?_, hmask.kill, hmask.stop⟩
    cases hold
    exact hok.sigSet hrun
  | selectLeave old hin =>
    have hmask := hok.setMask (hok.oldSigmask old hin)
    refine h.update ⟨hmask.sigSet, hmask.frames, fun old hold => ?_, hmask.kill, hmask.stop⟩
    cases hold
  | fork child new sigchld hfree hnew =>
    refine AllOk.update (h.update ?_) hnew.ok
    split
    · exact hok.ignoreChild
    · exact hok
  | clone child new sigMask hfree hnew => exact h.update (hnew.ok.setMask hmeets)
  | cloneThread child new sigMask hfree hnew hpid =>
    have hfresh := hnew.ok
    exact h.update ⟨fun _ => (hok.sigSet hrun).and, hfresh.frames, hfresh.oldSigmask, hok.kill, hok.stop⟩
  | exit => exact h.update hok.exit

theorem AllOk.step (h : s.AllOk) (hstep : Step KeepsClean s s') : s'.AllOk := by
  cases hstep with
  | act tid th op s' hth hrun hmeets hact => exact h.act hth hrun hmeets hact
  | other tid th th' hth halike => exact h.update ((h tid th hth).alike halike)
  | reap tid =>
    intro tid' th' heq
    by_cases htid : tid' = tid
    · subst htid
      rw [update_self] at heq
      cases heq
    · rw [update_of_ne htid] at heq
      exact h tid' th' heq

/-- All threads are as `alloc_thread` leaves them. -/
def Start (s : Threads) : Prop := ∀ tid th, s tid = some th → th.Fresh

/-- Neither `SIGKILL` nor `SIGSTOP` is blocked in any thread that has not called `exit`. -/
def Unblocked (s : Threads) : Prop := ∀ tid th, s tid = some th → th.exiting = false → Clean th.task.sigSet

theorem AllOk.unblocked (h : s.AllOk) : s.Unblocked := fun tid th hth hrun => (h tid th hth).sigSet hrun

end Threads

/-- In every run without a successful `sigprocmask` and without one of the two signals in the mask of a
`pselect6`, `ppoll` or `clone`, no thread blocks `SIGKILL` or `SIGSTOP`; a `sigprocmask` keeps them
unblocked only if it is refused; and the bits that `SIG_UNBLOCK` and `SIG_SETMASK` change are those that
were asked for unless the signal after `SIGTERM` is to be blocked. -/
theorem signal_masks (s s' : Threads) (how : Int) (set mask : UInt64) :
    (s.Start → Reaches (Threads.Step Threads.KeepsClean) s s' → s'.Unblocked) ∧
      (Clean mask →
        (Clean (sigprocmask how set mask).2 ↔
          how ≠ SIG_BLOCK ∧ how ≠ SIG_UNBLOCK ∧ how ≠ SIG_SETMASK)) ∧
      (how = SIG_UNBLOCK ∨ how = SIG_SETMASK →
        (Exact how set mask (sigprocmask how set mask).2 ↔
          if how = SIG_UNBLOCK then Blocks mask SIGSTKFLT → Blocks set SIGSTKFLT
          else ¬ Blocks set SIGSTKFLT)) := by
  refine ⟨fun hstart hrun => ?_, sigprocmask_clean_iff how set, sigprocmask_exact_iff set mask⟩
  have hok : s'.AllOk :=
    hrun.invariant (fun tid th hth => (hstart tid th hth).ok) fun _ _ h hstep => h.step hstep
  exact hok.unblocked

/-- A thread as `alloc_thread` leaves it. -/
def newThread : Thread where
  task :=
    { tf := ⟨0, 0, 0, 0, 0, 0, fun _ => 0⟩
      sigSet := 0
      sigPending := 0
      sigaction := fun _ => ⟨0, 0⟩
      frames := []
      altSp := 0
      altSize := 0
      currentSignal := 0
      signalInterrupted := false
      handlingSignal := -1
      cancelEnabled := true
      cancelRequested := false
      shouldExit := false
      exited := false
      zombie := false
      killed := 0
      stopped := false
      stopSignal := 0
      continued := false
      sigTrapframe := ⟨0, 0, 0, 0, 0, 0, fun _ => 0⟩
      vma := [] }
  pid := 1
  oldSigmask := none
  exiting := false

theorem newThread_fresh : newThread.Fresh := ⟨rfl, fun _ => rfl, rfl, rfl, rfl⟩

/-- A system with one thread. -/
def oneThread : Threads := fun tid => if tid = 1 then some newThread else none

theorem oneThread_start : oneThread.Start := by
  intro tid th hth
  simp only [oneThread] at hth
  split at hth
  · cases hth
    exact newThread_fresh
  · cases hth

/-- A thread that waits in `ppoll` with every signal but the two blocked. -/
theorem signal_masks_ppoll :
    Threads.Unblocked (Function.update oneThread 1
      (some { newThread.setMask 0xFFFFFFFFFFFBFEFF with oldSigmask := some 0 })) := by
  refine (signal_masks oneThread _ SIG_BLOCK 0 0).1 oneThread_start (.single ?_)
  exact .act 1 newThread (.selectEnter 0xFFFFFFFFFFFBFEFF) _ rfl rfl ⟨by decide, by decide⟩ (.selectEnter _ rfl)

/-- A `SIG_BLOCK` of no signal at all blocks `SIGKILL`. -/
theorem sigprocmask_blocks_kill :
    ¬ ∀ s s' : Threads, s.Start → Reaches (Threads.Step fun _ => True) s s' → s'.Unblocked := by
  intro h
  have hun := h oneThread _ oneThread_start
    (.single (.act 1 newThread (.sigprocmask SIG_BLOCK 0) _ rfl rfl trivial (.sigprocmask SIG_BLOCK 0)))
  have hclean := hun 1 _ (Function.update_self _ _ _) rfl
  exact hclean.kill (by decide)

end SC7.Signal
