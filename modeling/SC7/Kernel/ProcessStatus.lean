-- SUMMARY: The status word, who the parent of a process is and why it ends, as an invariant that the sections of the scheduler and of `exit` keep.
import SC7.Kernel.ProcessExit

/-!
# The way of an exit status

The status goes from `exit` through `p->exit_state` and `p->killed` to `waitpid`. Three kinds of steps
lose it: `exit_group` with a status that is not zero, a signal that is noted for a process that is
already in `exit`, and a `waitpid` that comes between two sections of `exit`.
-/

namespace SC7.Process

open Function (update_of_ne update_self)

/-! ## The status word -/

theorem decodes_exited {arg code : Int} (h : arg % 256 = code % 256) :
    Decodes (statusWord 0 code) (.exited arg) := by
  obtain ⟨b, hb⟩ : ∃ b : Nat, (b : Int) = code % 256 := ⟨(code % 256).toNat, by omega⟩
  have hlt : b < 256 := by omega
  have hword : statusWord 0 code = b * 256 := by
    rw [statusWord, if_neg (by decide), ← hb]
    rfl
  have hbits : ∀ b < 256, WTERMSIG (b * 256) = 0 ∧ WEXITSTATUS (b * 256) = b := by decide +kernel
  rw [hword]
  refine ⟨(hbits b hlt).1, ?_, ?_⟩
  · rintro ⟨hpos, hsmall⟩
    omega
  · rw [(hbits b hlt).2, hb, h]

theorem decodes_signaled {killed : Nat} (hpos : 0 < killed) (hle : killed ≤ SIGRTMAX) (code : Int) :
    Decodes (statusWord killed code) (.signaled killed) := by
  have hall : ∀ killed ≤ SIGRTMAX, 0 < killed →
      let word := if killed ∈ coreSignals then killed % 2 ^ 16 ||| 0x80 else killed % 2 ^ 16
      (0 < word % 2 ^ 16 ∧ word % 2 ^ 16 < 0x100) ∧ word &&& 0x7f = killed := by decide
  obtain ⟨hsig, hterm⟩ := hall killed hle hpos
  rw [statusWord, if_pos (Nat.ne_of_gt hpos)]
  refine ⟨hsig, fun hexited => ?_, hterm⟩
  rw [WIFEXITED, WTERMSIG, hterm] at hexited
  omega

/-- The status word of the process tells why it ends. -/
def Proc.Tells (w : Proc) (code : Int) : Prop :=
  ∃ cause, w.cause = some cause ∧ Decodes (statusWord w.killed code) cause

/-- What `exit` is called with is what the program asked for. -/
def Place.ArgOk : Place → Prop
  | .exitCalled arg code | .leaving arg code | .left arg code => arg % 256 = code % 256
  | _ => True

/-- In `exit`. -/
def Place.Ends : Place → Prop
  | .exitCalled _ _ | .exiting _ | .published | .announced => True
  | _ => False

/-- A successful `waitpid` was one of the parent, or of `init` after the exit of the parent, it was for
this child, and its status says how the child ended. -/
structure Reaped.Delivered (e : Reaped) (exited : List Nat) : Prop where
  wanted : e.arg = -1 ∨ e.arg = e.child
  parent : e.reaper = e.forker ∨ e.reaper = 1 ∧ e.forker ∈ exited
  status : ∃ cause, e.cause = some cause ∧ Decodes e.status cause

namespace Sys

variable {n : Nat} {s s' : Sys n} {c : Fin n} {t : Tid}

/-- The exit of the process has begun. -/
def Exiting (s : Sys n) (p : Slot) : Prop :=
  (s.procs p).state = .zombie ∨ ∃ t, s.Live t ∧ (s.threads t).proc = p ∧ (s.threads t).place.Committed

/-- Steps that do not lose a status. -/
def Fair (s : Sys n) : Action n → Prop
  | .callExitGroup _ status => status % 256 = 0
  | .kill p sig dfl => s.Exiting p → killUpdate (s.procs p).killed sig dfl = (s.procs p).killed
  | .tgkill p sig dfl => s.Exiting p → tgkillUpdate (s.procs p).killed sig dfl = (s.procs p).killed
  | .setKilled c sig => ∀ t, s.cpu c = some t → s.Exiting (s.threads t).proc → sig = (s.procOf t).killed
  | .waitpid _ np _ => s.Quiet np
  | _ => True

theorem Fair.calm {a : Action n} (h : s.Fair a) : s.Calm a := by
  cases a <;> first | exact h | trivial

/-- What the sections keep of the way of a status. -/
structure Ledger (s : Sys n) : Prop where
  init : (s.procs initproc).state ≠ .unused ∧ (s.procs initproc).state ≠ .zombie ∧
    (s.procs initproc).pid = 1 ∧ ∀ t, (s.threads t).proc = initproc → ¬ (s.threads t).place.Ends
  unused : ∀ p, ((s.procs p).state = .unused ↔ (s.procs p).pid = 0) ∧
    ((s.procs p).state = .unused → (s.procs p).parent = none)
  distinct : ∀ p p', (s.procs p).state ≠ .unused → (s.procs p).pid = (s.procs p').pid → p = p'
  killed_le : ∀ p, (s.procs p).killed ≤ SIGRTMAX
  parent : ∀ np p, (s.procs np).parent = some p → p ≠ initproc →
    (s.procs p).state ≠ .unused ∧ (s.procs p).pid = (s.procs np).forker
  orphan : ∀ np, (s.procs np).parent = some initproc →
    (s.procs np).forker = 1 ∨ (s.procs np).forker ∈ s.exited
  /-- A process that has given its children away has none. -/
  passed : ∀ p, (s.procs p).state = .zombie →
    (∀ t, s.Live t → (s.threads t).proc = p → (s.threads t).place ≠ .published) →
    ∀ np, (s.procs np).parent ≠ some p
  args : ∀ t, (s.threads t).place.ArgOk
  tells : ∀ t code, s.Live t → (s.threads t).place = .exiting code → (s.procOf t).Tells code
  zombieTells : ∀ p, (s.procs p).state = .zombie → (s.procs p).Tells (s.procs p).exitState
  logged : ∀ e ∈ s.log, 0 < e.child ∧ e.child < s.nextPid ∧ ∀ p, (s.procs p).pid ≠ e.child
  once : (s.log.map Reaped.child).Nodup
  delivered : ∀ e ∈ s.log, e.Delivered s.exited

/-- Changes that leave the relations between processes as they are. -/
theorem Ledger.transport (h : s.Ledger)
    (hinit : ∀ t, (s'.threads t).proc = initproc → ¬ (s'.threads t).place.Ends)
    (hinit' : (s'.procs initproc).state ≠ .zombie)
    (hids : ∀ p, (s'.procs p).pid = (s.procs p).pid ∧ (s'.procs p).parent = (s.procs p).parent ∧
      (s'.procs p).forker = (s.procs p).forker)
    (hunused : ∀ p, (s'.procs p).state = .unused ↔ (s.procs p).state = .unused)
    (hkilled : ∀ p, (s'.procs p).killed ≤ SIGRTMAX)
    (hpassed : ∀ p, (s'.procs p).state = .zombie →
      (∀ t, s'.Live t → (s'.threads t).proc = p → (s'.threads t).place ≠ .published) →
      (s.procs p).state = .zombie ∧ ∀ t, s.Live t → (s.threads t).proc = p → (s.threads t).place ≠ .published)
    (hargs : ∀ t, (s'.threads t).place.ArgOk)
    (htells : ∀ t code, s'.Live t → (s'.threads t).place = .exiting code → (s'.procOf t).Tells code)
    (hztells : ∀ p, (s'.procs p).state = .zombie → (s'.procs p).Tells (s'.procs p).exitState)
    (hnext : s.nextPid ≤ s'.nextPid) (hlog : SameLog s s') : s'.Ledger where
  init := by
    rw [(hids _).1]
    exact ⟨fun hu => h.init.1 ((hunused _).mp hu), hinit', h.init.2.2.1, hinit⟩
  unused p := by
    rw [(hids p).1, (hids p).2.1, hunused]
    exact h.unused p
  distinct p p' hp heq := by
    rw [(hids p).1, (hids p').1] at heq
    exact h.distinct p p' (fun hu => hp ((hunused p).mpr hu)) heq
  killed_le := hkilled
  parent np p hnp hp := by
    rw [(hids np).2.1] at hnp
    rw [(hids p).1, (hids np).2.2]
    have hpar := h.parent np p hnp hp
    exact ⟨fun hu => hpar.1 ((hunused p).mp hu), hpar.2⟩
  orphan np hnp := by
    rw [(hids np).2.1] at hnp
    rw [(hids np).2.2, hlog.2]
    exact h.orphan np hnp
  passed p hp hpub np := by
    rw [(hids np).2.1]
    obtain ⟨hz, hnone⟩ := hpassed p hp hpub
    exact h.passed p hz hnone np
  args := hargs
  tells := htells
  zombieTells := hztells
  logged e he := by
    rw [hlog.1] at he
    obtain ⟨hpos, hlt, hne⟩ := h.logged e he
    refine ⟨hpos, Nat.lt_of_lt_of_le hlt hnext, fun p => ?_⟩
    rw [(hids p).1]
    exact hne p
  once := by
    rw [hlog.1]
    exact h.once
  delivered e he := by
    rw [hlog.1] at he
    rw [hlog.2]
    exact h.delivered e he

/-- Changes that no part of the ledger looks at. -/
theorem Ledger.congr (h : s.Ledger)
    (hinit : ∀ t, (s'.threads t).proc = initproc → ¬ (s'.threads t).place.Ends)
    (hprocs : ∀ p, s'.procs p = { s.procs p with state := (s'.procs p).state })
    (hunused : ∀ p, (s'.procs p).state = .unused ↔ (s.procs p).state = .unused)
    (hzombie : ∀ p, (s'.procs p).state = .zombie ↔ (s.procs p).state = .zombie)
    (hargs : ∀ t, (s'.threads t).place.ArgOk)
    (hexiting : ∀ t code, s'.Live t → (s'.threads t).place = .exiting code →
      s.Live t ∧ (s.threads t).place = .exiting code ∧ (s'.threads t).proc = (s.threads t).proc)
    (hpublished : ∀ t, s.Live t → (s.threads t).place = .published →
      s'.Live t ∧ (s'.threads t).place = .published ∧ (s'.threads t).proc = (s.threads t).proc)
    (hnext : s.nextPid ≤ s'.nextPid) (hlog : SameLog s s') : s'.Ledger := by
  have htells (p : Slot) (code : Int) : (s'.procs p).Tells code ↔ (s.procs p).Tells code := by
    rw [Proc.Tells, Proc.Tells, hprocs p]
  refine h.transport hinit (fun hz => h.init.2.1 ((hzombie _).mp hz)) (fun p => ?_) hunused (fun p => ?_)
    (fun p hz hpub => ⟨(hzombie p).mp hz, fun t hlive hproc hplace => ?_⟩) hargs
    (fun t code hlive hplace => ?_) (fun p hz => ?_) hnext hlog
  · rw [hprocs p]
    exact ⟨rfl, rfl, rfl⟩
  · rw [hprocs p]
    exact h.killed_le p
  · obtain ⟨hlive', hplace', hproc'⟩ := hpublished t hlive hplace
    exact hpub t hlive' (hproc'.trans hproc) hplace'
  · obtain ⟨hlive', hplace', hproc⟩ := hexiting t code hlive hplace
    rw [procOf, hproc, htells]
    exact h.tells t code hlive' hplace'
  · rw [htells]
    rw [hprocs p]
    exact h.zombieTells p ((hzombie p).mp hz)

variable {w : Proc} {v : Thread} {o : Option Tid}

/-- A section that changes only the states and the place of a thread. -/
theorem Ledger.of_update (h : s.Ledger) (hu : Update s s' c t w v o) (hlive : s.Live t)
    (hv : v.state ≠ .unused) (hw : w = { s.procOf t with state := w.state })
    (hunused : w.state ≠ .unused ∧ (s.procOf t).state ≠ .unused)
    (hzombie : w.state = .zombie ↔ (s.procOf t).state = .zombie) (hargs : v.place.ArgOk)
    (hends : v.place.Ends → (s.threads t).proc ≠ initproc)
    (hexiting : ∀ code, v.place = .exiting code → (s.threads t).place = .exiting code)
    (hpublished : (s.threads t).place = .published → v.place = .published)
    (hlog : SameLog s s') : s'.Ledger := by
  have hthread := hu.thread
  have hother {t' : Tid} (hne : t' ≠ t) : s'.threads t' = s.threads t' := by
    rw [hu.threads, update_of_ne hne]
  have hproc : s'.procs (s.threads t).proc = w := by
    rw [hu.procs, update_self]
  have hprocs {p : Slot} (hne : p ≠ (s.threads t).proc) : s'.procs p = s.procs p := by
    rw [hu.procs, update_of_ne hne]
  refine h.congr ?_ ?_ ?_ ?_ ?_ ?_ ?_ (Nat.le_of_eq hu.nextPid.symm) hlog
  · intro t' hinit hplace
    by_cases hne : t' = t
    · rw [hne, hthread] at hinit hplace
      exact hends hplace (hu.proc.symm.trans hinit)
    · rw [hother hne] at hinit hplace
      exact h.init.2.2.2 t' hinit hplace
  · intro p
    by_cases hp : p = (s.threads t).proc
    · rw [hp, hproc]
      exact hw
    · rw [hprocs hp]
  · intro p
    by_cases hp : p = (s.threads t).proc
    · rw [hp, hproc]
      exact ⟨fun hu => absurd hu hunused.1, fun hu => absurd hu hunused.2⟩
    · rw [hprocs hp]
  · intro p
    by_cases hp : p = (s.threads t).proc
    · rw [hp, hproc]
      exact hzombie
    · rw [hprocs hp]
  · intro t'
    by_cases hne : t' = t
    · rw [hne, hthread]
      exact hargs
    · rw [hother hne]
      exact h.args t'
  · intro t' code hlive' hplace
    by_cases hne : t' = t
    · rw [hne, hthread] at hplace ⊢
      exact ⟨hlive, hexiting code hplace, hu.proc⟩
    · rw [Live, hother hne] at hlive'
      rw [hother hne] at hplace ⊢
      exact ⟨hlive', hplace, rfl⟩
  · intro t' hlive' hplace
    by_cases hne : t' = t
    · rw [hne] at hplace ⊢
      rw [Live, hthread]
      exact ⟨hv, hpublished hplace, hu.proc⟩
    · rw [Live, hother hne]
      exact ⟨hlive', hplace, rfl⟩

/-- A section that only takes the thread to another place. -/
theorem Ledger.goto (h : s.Ledger) (hinv : s.Inv) (hc : s.cpu c = some t) {place : Place}
    (hargs : place.ArgOk) (hends : place.Ends → (s.threads t).proc ≠ initproc)
    (hexiting : ∀ code, place ≠ .exiting code) (hold : (s.threads t).place ≠ .published) :
    (s.goto t place).Ledger := by
  have hlive := hinv.live_of_on hc
  have howner := (hinv.owner t hlive).1
  exact h.of_update (update_goto hc place) hlive hlive rfl ⟨howner, howner⟩ Iff.rfl hargs hends
    (fun code hplace => absurd hplace (hexiting code)) (fun hplace => absurd hplace hold) ⟨rfl, rfl⟩

/-- A thread gives up its CPU in the middle of its code. -/
theorem Ledger.sched (h : s.Ledger) (hinv : s.Inv) (hc : s.cpu c = some t)
    (hgap : ¬ (s.threads t).place.Gap) {pstate : ProcState}
    (hp : pstate = .runnable ∨ pstate = .sleeping) {tstate : ThreadState} (ht : tstate ≠ .unused) :
    (s.sched c t pstate tstate).Ledger := by
  have hlive := hinv.live_of_on hc
  have hrun := hinv.running hc hgap
  have hw : pstate ≠ .unused ∧ pstate ≠ .zombie := by
    obtain rfl | rfl := hp <;> decide
  refine h.of_update (update_sched s c t pstate tstate) hlive ht rfl ⟨hw.1, ?_⟩ ?_ (h.args t) ?_
    (fun _ hplace => hplace) (fun hplace => hplace) ⟨rfl, rfl⟩
  · rw [hrun]
    decide
  · rw [hrun]
    exact ⟨fun hz => absurd hz hw.2, fun hz => by cases hz⟩
  · exact fun hplace hinit => h.init.2.2.2 t hinit hplace

/-! ## The sections -/

theorem Ledger.boot (n : Nat) : (boot n).Ledger where
  init := by
    refine ⟨ProcState.noConfusion, ProcState.noConfusion, rfl, fun t _ hplace => ?_⟩
    simp only [Sys.boot] at hplace
    split at hplace <;> exact hplace
  unused p := by
    simp only [Sys.boot]
    split <;> simp
  distinct p p' hp heq := by
    simp only [Sys.boot] at hp heq
    split at hp
    · rename_i hinit
      rw [if_pos hinit] at heq
      split at heq
      · rename_i hinit'
        rw [hinit, hinit']
      · cases heq
    · exact absurd rfl hp
  killed_le p := by
    simp only [Sys.boot]
    split <;> exact Nat.zero_le _
  parent np p hnp _ := by
    simp only [Sys.boot] at hnp
    split at hnp <;> cases hnp
  orphan np hnp := by
    simp only [Sys.boot] at hnp
    split at hnp <;> cases hnp
  passed p hp := by
    simp only [Sys.boot] at hp
    split at hp <;> cases hp
  args t := by
    simp only [Sys.boot]
    split <;> trivial
  tells t code _ hplace := by
    simp only [Sys.boot] at hplace
    split at hplace <;> cases hplace
  zombieTells p hp := by
    simp only [Sys.boot] at hp
    split at hp <;> cases hp
  logged e he := by cases he
  once := List.nodup_nil
  delivered e he := by cases he

section Calls

variable (h : s.Ledger)

include h

theorem Ledger.yield (hinv : s.Inv) (hs : s.yield c = some s') : s'.Ledger := by
  obtain ⟨t, hc, hguard, rfl⟩ := guarded hs
  exact h.sched hinv hc (hinv.not_gap_of_running hc hguard.1) (.inl rfl) ThreadState.noConfusion

theorem Ledger.sleep (hinv : s.Inv) (hs : s.sleep c = some s') : s'.Ledger := by
  obtain ⟨t, hc, hs⟩ := Option.bind_eq_some_iff.mp hs
  split at hs
  all_goals first
    | cases hs; done
    | rename_i hplace
      cases hs
      exact h.sched hinv hc (by rw [hplace]; exact id) (.inr rfl) ThreadState.noConfusion

theorem Ledger.block (hinv : s.Inv) (hs : s.block c = some s') : s'.Ledger := by
  obtain ⟨t, hc, hs⟩ := Option.bind_eq_some_iff.mp hs
  split at hs
  · rename_i hplace
    cases hs
    exact h.sched hinv hc (by rw [hplace]; exact id) (.inl rfl) ThreadState.noConfusion
  · cases hs

theorem Ledger.schedule (hs : s.schedule c t = some s') : s'.Ledger := by
  obtain ⟨-, hrunnable, hready, hu, hlog⟩ := schedule_cases hs
  refine h.of_update hu ?_ ThreadState.noConfusion rfl ⟨ProcState.noConfusion, ?_⟩ ?_ (h.args t) ?_
    (fun _ hplace => hplace) (fun hplace => hplace) hlog
  · rw [Live, hready]
    decide
  · rw [hrunnable]
    decide
  · rw [hrunnable]
    exact ⟨fun hz => (by cases hz), fun hz => (by cases hz)⟩
  · exact fun hplace hinit => h.init.2.2.2 t hinit hplace

theorem Ledger.wakeup {p : Slot} (hs : s.wakeup p = some s') : s'.Ledger := by
  rw [Sys.wakeup] at hs
  split at hs
  · rename_i hsleep
    cases hs
    refine h.congr h.init.2.2.2 (fun q => ?_) (fun q => ?_) (fun q => ?_) h.args
      (fun t code hlive hplace => ⟨hlive, hplace, rfl⟩) (fun t hlive hplace => ⟨hlive, hplace, rfl⟩)
      (Nat.le_refl _) ⟨rfl, rfl⟩
    all_goals
      by_cases hq : q = p
      · rw [hq, setProc_self]
        try rw [hsleep]
        try exact ⟨fun hz => (by cases hz), fun hz => (by cases hz)⟩
      · rw [setProc_of_ne s _ hq]
  · cases hs

theorem Ledger.wakeThread (hs : s.wakeThread t = some s') : s'.Ledger := by
  rw [Sys.wakeThread] at hs
  split at hs
  · rename_i hsleep
    -- Neither the places nor the processes of threads change, nor which ones are live.
    have hsame (t' : Tid) : (s'.threads t').place = (s.threads t').place ∧
        (s'.threads t').proc = (s.threads t').proc ∧ (s'.Live t' ↔ s.Live t') := by
      cases hs
      by_cases hne : t' = t
      · rw [hne, Live, Live, hsleep, Sys.setThread]
        simp
      · rw [Live, Live, Sys.setThread]
        simp [update_of_ne hne]
    have hprocs : s'.procs = s.procs := by
      cases hs
      rfl
    refine h.congr (fun t' hinit => ?_) (fun p => by rw [hprocs]) (fun p => by rw [hprocs])
      (fun p => by rw [hprocs]) (fun t' => ?_) (fun t' code hlive hplace => ?_)
      (fun t' hlive hplace => ?_) ?_ ?_
    · rw [(hsame t').1]
      rw [(hsame t').2.1] at hinit
      exact h.init.2.2.2 t' hinit
    · rw [(hsame t').1]
      exact h.args t'
    · rw [(hsame t').1] at hplace
      exact ⟨(hsame t').2.2.mp hlive, hplace, (hsame t').2.1⟩
    · rw [(hsame t').1]
      exact ⟨(hsame t').2.2.mpr hlive, hplace, (hsame t').2.1⟩
    all_goals
      cases hs
      first | exact Nat.le_refl _ | exact ⟨rfl, rfl⟩
  · cases hs

theorem Ledger.callExit (hinv : s.Inv) {arg code : Int} (harg : arg % 256 = code % 256)
    (hs : s.callExit c arg code = some s') : s'.Ledger := by
  obtain ⟨t, hc, hguard, rfl⟩ := guarded hs
  exact h.goto hinv hc harg (fun _ => hguard.2) (fun _ => Place.noConfusion)
    (by rw [hguard.1]; exact Place.noConfusion)

theorem Ledger.callThreadExit (hinv : s.Inv) {code : Int} (hs : s.callThreadExit c code = some s') : s'.Ledger := by
  obtain ⟨t, hc, hplace, rfl⟩ := guarded hs
  exact h.goto hinv hc rfl (fun hends => absurd hends id) (fun _ => Place.noConfusion)
    (by rw [hplace]; exact Place.noConfusion)

theorem Ledger.retire (hinv : s.Inv) (hs : s.retire c = some s') : s'.Ledger := by
  obtain ⟨t, arg, code, hc, hplace, hu, hlog⟩ := retire_cases hs
  have hargs := h.args t
  rw [hplace] at hargs
  have hlive := hinv.live_of_on hc
  have howner := (hinv.owner t hlive).1
  refine h.of_update hu hlive ThreadState.noConfusion rfl ⟨howner, howner⟩ Iff.rfl hargs
    (fun hends => absurd hends id) (fun _ hplace' => by cases hplace') (fun hplace' => ?_) hlog
  rw [hplace] at hplace'
  cases hplace'

theorem Ledger.switchThread (hinv : s.Inv) (hs : s.switchThread c = some s') : s'.Ledger := by
  obtain ⟨t, arg, code, hc, hplace, ⟨hrunning, hu, hlog⟩ | ⟨hinit, rfl⟩⟩ := switchThread_cases hs
  · have hlive := hinv.live_of_on hc
    have hrun := hinv.running hc (by rw [hplace]; exact id)
    refine h.of_update hu hlive hlive rfl ⟨ProcState.noConfusion, (hinv.owner t hlive).1⟩ ?_ trivial
      (fun hends => absurd hends id) (fun _ hplace' => by cases hplace') (fun hplace' => ?_) hlog
    · rw [hrun]
      exact ⟨fun hz => (by cases hz), fun hz => (by cases hz)⟩
    · rw [hplace] at hplace'
      cases hplace'
  · have hargs := h.args t
    rw [hplace] at hargs
    exact h.goto hinv hc hargs (fun _ => hinit) (fun _ => Place.noConfusion)
      (by rw [hplace]; exact Place.noConfusion)

theorem Ledger.finish (hinv : s.Inv) (hs : s.finish c = some s') : s'.Ledger := by
  obtain ⟨t, hc, hplace, hu, hlog⟩ := finish_cases hs
  have hlive := hinv.live_of_on hc
  have howner := (hinv.owner t hlive).1
  refine h.of_update hu hlive hlive rfl ⟨howner, howner⟩ Iff.rfl trivial
    (fun hends => absurd hends id) (fun _ hplace' => by cases hplace') (fun hplace' => ?_) hlog
  rw [hplace] at hplace'
  cases hplace'

end Calls

/-! ## The end of a process -/

/-- The word is right when the exit begins: a signal that has been noted, or the argument. -/
theorem Proc.tells_of_check {w : Proc} {arg code : Int} (hle : w.killed ≤ SIGRTMAX)
    (harg : arg % 256 = code % 256) :
    { w with cause := some (if w.killed ≠ 0 then .signaled w.killed else .exited arg) : Proc }.Tells code := by
  by_cases hk : w.killed = 0
  · refine ⟨.exited arg, by rw [if_neg (not_not.mpr hk)], ?_⟩
    rw [hk]
    exact decodes_exited harg
  · refine ⟨.signaled w.killed, by rw [if_pos hk], ?_⟩
    exact decodes_signaled (Nat.pos_of_ne_zero hk) hle code


/-- The exit of a process begins. -/
theorem Ledger.commit (h : s.Ledger) (hinv : s.Inv) (hc : s.cpu c = some t) {arg code : Int}
    (hplace : (s.threads t).place = .exitCalled arg code) (hcheck : s.IsMain t ∨ ¬ s.OthersActive t)
    (hcause : w = { s.procOf t with cause := w.cause }) (htells : w.Tells code) :
    ((s.setProc (s.threads t).proc w).goto t (.exiting code)).Ledger := by
  have hlive := hinv.live_of_on hc
  have hrun := hinv.running hc (by rw [hplace]; exact id)
  have hproc : (s.setProc (s.threads t).proc w).procs (s.threads t).proc = w := setProc_self _ _ _
  have hself := goto_self (s.setProc (s.threads t).proc w) t (.exiting code)
  have hother {t' : Tid} (hne : t' ≠ t) :
      ((s.setProc (s.threads t).proc w).goto t (.exiting code)).threads t' = s.threads t' :=
    goto_of_ne _ (.exiting code) hne
  have hprocs (p : Slot) : ((s.setProc (s.threads t).proc w).goto t (.exiting code)).procs p =
      if p = (s.threads t).proc then w else s.procs p := by
    split
    · rename_i hp
      rw [hp]
      exact hproc
    · rename_i hp
      exact setProc_of_ne s w hp
  have hstate (p : Slot) : (((s.setProc (s.threads t).proc w).goto t (.exiting code)).procs p).state =
      (s.procs p).state := by
    rw [hprocs]
    split
    · rename_i hp
      rw [hp, hcause]
      rfl
    · rfl
  refine h.transport ?_ ?_ ?_ (fun p => by rw [hstate]) ?_ ?_ ?_ ?_ ?_ (Nat.le_refl _) ⟨rfl, rfl⟩
  · intro t' hinit hends
    by_cases hne : t' = t
    · rw [hne, hself] at hinit
      exact h.init.2.2.2 t hinit (by rw [hplace]; trivial)
    · rw [hother hne] at hinit hends
      exact h.init.2.2.2 t' hinit hends
  · rw [hstate]
    exact h.init.2.1
  · intro p
    rw [hprocs]
    split
    · rename_i hp
      rw [hp, hcause]
      exact ⟨rfl, rfl, rfl⟩
    · exact ⟨rfl, rfl, rfl⟩
  · intro p
    rw [hprocs]
    split
    · rw [hcause]
      exact h.killed_le _
    · exact h.killed_le p
  · intro p hz hpub
    rw [hstate] at hz
    refine ⟨hz, fun t' hlive' hproc' hplace' => ?_⟩
    have hne : t' ≠ t := by
      rintro rfl
      rw [hplace] at hplace'
      cases hplace'
    refine hpub t' ?_ ?_ ?_
    · rw [Live, hother hne]
      exact hlive'
    · rw [hother hne]
      exact hproc'
    · rw [hother hne]
      exact hplace'
  · intro t'
    by_cases hne : t' = t
    · rw [hne, hself]
      trivial
    · rw [hother hne]
      exact h.args t'
  · intro t' code' hlive' hplace'
    by_cases hne : t' = t
    · rw [hne, hself] at hplace'
      cases hplace'
      rw [hne, Sys.procOf, hself]
      simp only
      rw [show (s.setProc (s.threads t).proc w).threads t = s.threads t from rfl, hprocs, if_pos rfl]
      exact htells
    · rw [Live, hother hne] at hlive'
      rw [hother hne] at hplace'
      rw [Sys.procOf, hother hne, hprocs]
      split
      · -- No other thread of the process is in `exit`.
        rename_i hp
        have hcom : ¬ (s.threads t).place.Committed := by rw [hplace]; exact id
        obtain hgone | ⟨-, hnot⟩ := hinv.alone_of_check hc hcheck ⟨hne, hlive', hp⟩
        · rw [hplace'] at hgone
          cases hgone
        · exact absurd (by rw [hplace']; trivial) hnot
      · exact h.tells t' code' hlive' hplace'
  · intro p hz
    rw [hstate] at hz
    have hne : p ≠ (s.threads t).proc := by
      rintro rfl
      rw [← Sys.procOf, hrun] at hz
      cases hz
    rw [hprocs, if_neg hne]
    exact h.zombieTells p hz

theorem Ledger.checkThreads (h : s.Ledger) (hinv : s.Inv) (hs : s.checkThreads c = some s') : s'.Ledger := by
  obtain ⟨t, hc, hs⟩ := Option.bind_eq_some_iff.mp hs
  split at hs
  · rename_i arg code hplace
    have hargs := h.args t
    rw [hplace] at hargs
    split at hs
    · rename_i hcheck
      cases hs
      exact h.commit hinv hc hplace hcheck rfl (Proc.tells_of_check (h.killed_le _) hargs)
    · cases hs
      exact h.goto hinv hc hargs (fun hends => absurd hends id) (fun _ => Place.noConfusion)
        (by rw [hplace]; exact Place.noConfusion)
  · cases hs

theorem Ledger.publish (h : s.Ledger) (hinv : s.Inv) (hs : s.publish c = some s') : s'.Ledger := by
  obtain ⟨t, code, hc, hplace, hu, hlog⟩ := publish_cases hs
  have hlive := hinv.live_of_on hc
  have hcom : (s.threads t).place.Committed := by rw [hplace]; trivial
  have hinit : (s.threads t).proc ≠ initproc := fun hinit => h.init.2.2.2 t hinit (by rw [hplace]; trivial)
  have hthread := hu.thread
  have hother {t' : Tid} (hne : t' ≠ t) : s'.threads t' = s.threads t' := by
    rw [hu.threads, update_of_ne hne]
  have hproc : s'.procs (s.threads t).proc = { s.procOf t with state := .zombie, exitState := code } := by
    rw [hu.procs, update_self]
  have hprocs {p : Slot} (hne : p ≠ (s.threads t).proc) : s'.procs p = s.procs p := by
    rw [hu.procs, update_of_ne hne]
  refine h.transport ?_ ?_ ?_ ?_ ?_ ?_ ?_ ?_ ?_ (Nat.le_of_eq hu.nextPid.symm) hlog
  · intro t' hinit' hends
    by_cases hne : t' = t
    · rw [hne, hthread] at hinit'
      exact hinit hinit'
    · rw [hother hne] at hinit' hends
      exact h.init.2.2.2 t' hinit' hends
  · rw [hprocs hinit.symm]
    exact h.init.2.1
  · intro p
    by_cases hp : p = (s.threads t).proc
    · rw [hp, hproc]
      exact ⟨rfl, rfl, rfl⟩
    · rw [hprocs hp]
      exact ⟨rfl, rfl, rfl⟩
  · intro p
    by_cases hp : p = (s.threads t).proc
    · rw [hp, hproc]
      exact ⟨fun hz => (by cases hz), fun hz => absurd hz (hinv.owner t hlive).1⟩
    · rw [hprocs hp]
  · intro p
    by_cases hp : p = (s.threads t).proc
    · rw [hp, hproc]
      exact h.killed_le _
    · rw [hprocs hp]
      exact h.killed_le p
  · intro p hz hpub
    have hne : p ≠ (s.threads t).proc := by
      rintro rfl
      refine hpub t ?_ ?_ ?_
      · rw [Live, hthread]
        exact ThreadState.noConfusion
      · rw [hthread]
      · rw [hthread]
    rw [hprocs hne] at hz
    refine ⟨hz, fun t' hlive' hproc' hplace' => ?_⟩
    have hne' : t' ≠ t := by
      rintro rfl
      exact hne hproc'.symm
    refine hpub t' ?_ ?_ ?_
    · rw [Live, hother hne']
      exact hlive'
    · rw [hother hne']
      exact hproc'
    · rw [hother hne']
      exact hplace'
  · intro t'
    by_cases hne : t' = t
    · rw [hne, hthread]
      trivial
    · rw [hother hne]
      exact h.args t'
  · intro t' code' hlive' hplace'
    have hne : t' ≠ t := by
      rintro rfl
      rw [hthread] at hplace'
      cases hplace'
    rw [Live, hother hne] at hlive'
    rw [hother hne] at hplace'
    have hp : (s.threads t').proc ≠ (s.threads t).proc := by
      intro hp
      obtain hgone | ⟨-, hnot⟩ := hinv.pair t t' hcom ⟨hne, hlive', hp⟩
      · rw [hplace'] at hgone
        cases hgone
      · exact hnot (by rw [hplace']; trivial)
    rw [Sys.procOf, hother hne, hprocs hp]
    exact h.tells t' code' hlive' hplace'
  · intro p hz
    by_cases hp : p = (s.threads t).proc
    · rw [hp, hproc]
      exact h.tells t code hlive hplace
    · rw [hprocs hp] at hz ⊢
      exact h.zombieTells p hz

theorem Ledger.announce (h : s.Ledger) (hinv : s.Inv) (hs : s.announce c = some s') : s'.Ledger := by
  obtain ⟨t, hc, hplace, hu, hlog, hexited⟩ := announce_cases hs
  obtain ⟨p, hp⟩ : ∃ p, p = (s.threads t).proc := ⟨_, rfl⟩
  have hlive := hinv.live_of_on hc
  have howner := hinv.owner t hlive
  have hinit : p ≠ initproc := by
    rw [hp]
    exact fun hinit => h.init.2.2.2 t hinit (by rw [hplace]; trivial)
  have hthread := hu.thread
  have hother {t' : Tid} (hne : t' ≠ t) : s'.threads t' = s.threads t' := by
    rw [hu.threads, update_of_ne hne]
    rfl
  have hlive' {t' : Tid} : s'.Live t' ↔ s.Live t' := by
    by_cases hne : t' = t
    · rw [hne, Live, hthread, Live]
    · rw [Live, hother hne, Live]
  have hproc (t' : Tid) : (s'.threads t').proc = (s.threads t').proc := by
    by_cases hne : t' = t
    · rw [hne, hthread]
    · rw [hother hne]
  have hprocs (q : Slot) : s'.procs q =
      if (s.procs q).parent = some p then { s.procs q with parent := some initproc } else s.procs q := by
    rw [hu.procs, Sys.procOf, Function.update_eq_self, hp]
    rfl
  have hsame (q : Slot) : s'.procs q = { s.procs q with parent := (s'.procs q).parent } := by
    rw [hprocs]
    split <;> rfl
  have hstate (q : Slot) : (s'.procs q).state = (s.procs q).state := by rw [hsame q]
  have hpid (q : Slot) : (s'.procs q).pid = (s.procs q).pid := by rw [hsame q]
  have hforker (q : Slot) : (s'.procs q).forker = (s.procs q).forker := by rw [hsame q]
  have htells (q : Slot) (code : Int) : (s'.procs q).Tells code ↔ (s.procs q).Tells code := by
    rw [Proc.Tells, Proc.Tells, hsame q]
  -- A parent is the old one, or `init` in place of the process that exits.
  have hparent {np q : Slot} (hnp : (s'.procs np).parent = some q) :
      (s.procs np).parent = some q ∧ q ≠ p ∨ (s.procs np).parent = some p ∧ q = initproc := by
    rw [hprocs] at hnp
    split at hnp
    · rename_i hold
      exact .inr ⟨hold, (Option.some.inj hnp).symm⟩
    · rename_i hold
      refine .inl ⟨hnp, ?_⟩
      rintro rfl
      exact hold hnp
  exact {
    init := by
      rw [hstate, hpid]
      refine ⟨h.init.1, h.init.2.1, h.init.2.2.1, fun t' hinit' hends => ?_⟩
      by_cases hne : t' = t
      · rw [hne, hproc, ← hp] at hinit'
        exact hinit hinit'
      · rw [hother hne] at hinit' hends
        exact h.init.2.2.2 t' hinit' hends
    unused := fun q => by
      rw [hstate, hpid]
      refine ⟨(h.unused q).1, fun hq => ?_⟩
      have hnone := (h.unused q).2 hq
      rw [hprocs, if_neg (by rw [hnone]; exact (Option.some_ne_none p).symm)]
      exact hnone
    distinct := fun q q' hq heq => by
      rw [hstate] at hq
      rw [hpid, hpid] at heq
      exact h.distinct q q' hq heq
    killed_le := fun q => by
      rw [hsame q]
      exact h.killed_le q
    parent := fun np q hnp hq => by
      rw [hstate, hpid, hforker]
      obtain ⟨hold, -⟩ | ⟨-, hnew⟩ := hparent hnp
      · exact h.parent np q hold hq
      · exact absurd hnew hq
    orphan := fun np hnp => by
      rw [hforker, hexited]
      obtain ⟨hold, -⟩ | ⟨hold, -⟩ := hparent hnp
      · exact (h.orphan np hold).imp id (List.mem_cons_of_mem _)
      · refine .inr (List.mem_cons.mpr (.inl ?_))
        rw [← (h.parent np p hold hinit).2, ← howner.2, Sys.procOf, hp]
    passed := fun q hq hpub np hnp => by
      rw [hstate] at hq
      obtain ⟨hold, hne⟩ | ⟨-, hnew⟩ := hparent hnp
      · refine h.passed q hq (fun t' ht' hproc' hplace' => ?_) np hold
        have hne' : t' ≠ t := by
          rintro rfl
          exact hne (hproc'.symm.trans hp.symm)
        refine hpub t' (hlive'.mpr ht') ?_ ?_
        · rw [hproc]
          exact hproc'
        · rw [hother hne']
          exact hplace'
      · rw [hnew] at hq
        exact h.init.2.1 hq
    args := fun t' => by
      by_cases hne : t' = t
      · rw [hne, hthread]
        trivial
      · rw [hother hne]
        exact h.args t'
    tells := fun t' code ht' hplace' => by
      have hne : t' ≠ t := by
        rintro rfl
        rw [hthread] at hplace'
        cases hplace'
      rw [hother hne] at hplace'
      rw [Sys.procOf, hproc, htells]
      exact h.tells t' code (hlive'.mp ht') hplace'
    zombieTells := fun q hq => by
      rw [hstate] at hq
      rw [htells]
      rw [hsame q]
      exact h.zombieTells q hq
    logged := fun e he => by
      rw [hlog] at he
      obtain ⟨hpos, hlt, hne⟩ := h.logged e he
      refine ⟨hpos, ?_, fun q => ?_⟩
      · rw [hu.nextPid]
        exact hlt
      · rw [hpid]
        exact hne q
    once := by
      rw [hlog]
      exact h.once
    delivered := fun e he => by
      rw [hlog] at he
      obtain ⟨hwanted, hpar, hstatus⟩ := h.delivered e he
      rw [hexited]
      exact ⟨hwanted, hpar.imp id fun hinit => ⟨hinit.1, List.mem_cons_of_mem _ hinit.2⟩, hstatus⟩ }

end Sys

end SC7.Process
