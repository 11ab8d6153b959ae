-- SUMMARY: The sections keep the invariant as long as no slot is freed under its own exit, and on how many CPUs that is all runs.
import SC7.Kernel.ProcessInv

/-!
# The slot of a process that exits

`exit` makes the process a zombie and lets go of `p->lock` before it takes `parent_lock`. On one CPU
no other process runs in between. On two, the parent may find the zombie there and free its slot.
-/

namespace SC7.Process

open Function (update_of_ne update_self)

namespace Sys

variable {n sig forker : Nat} {s s' : Sys n} {c : Fin n} {t : Tid} {p np : Slot} {dfl : Bool} {code pid : Int}
  {parent : Option Slot} {pstate : ProcState} {tstate : ThreadState} {a : Action n}

/-! ## The sections -/

theorem Inv.boot (n : Nat) : (boot n).Inv where
  fresh t hle := by
    have hle : 2 ≤ t := hle
    have hne : t ≠ 1 := by omega
    simp only [Sys.boot, if_neg hne, and_self]
  pid_lt p := by
    simp only [Sys.boot]
    split <;> decide
  owner t ht := by
    simp only [Live, Sys.procOf, Sys.boot] at ht ⊢
    split at ht
    · rename_i heq
      rw [if_pos heq]
      exact ⟨by decide, rfl⟩
    · exact absurd rfl ht
  dead t ht := by
    simp only [Sys.boot] at ht
    split at ht <;> exact absurd ht id
  one c c' t t' hc := by cases hc
  on c t hc := by cases hc
  off t ht _ := by
    simp only [Live, Sys.procOf, Sys.boot] at ht ⊢
    split at ht
    · rename_i heq
      rw [if_pos heq]
      exact ⟨by decide, id, by decide, fun _ => id⟩
    · exact absurd rfl ht
  pair t t' hcom := by
    simp only [Sys.boot] at hcom
    split at hcom <;> exact absurd hcom id
  forking t np b _ hplace := by
    simp only [Sys.boot] at hplace
    split at hplace <;> cases hplace
  used p hused := by
    simp only [Sys.boot] at hused
    split at hused <;> cases hused

section Reading

variable (h : s.Inv)

include h

theorem Inv.yield (hs : s.yield c = some s') : s'.Inv := by
  obtain ⟨t, hc, hguard, rfl⟩ := guarded hs
  exact h.sched hc (h.not_gap_of_running hc hguard.1) (.inl rfl) (.inl rfl)

theorem Inv.sleep (hs : s.sleep c = some s') : s'.Inv := by
  obtain ⟨t, hc, hs⟩ := Option.bind_eq_some_iff.mp hs
  split at hs
  all_goals first
    | cases hs; done
    | rename_i hplace
      cases hs
      exact h.sched hc (by rw [hplace]; exact id) (.inr rfl) (.inl rfl)

theorem Inv.block (hs : s.block c = some s') : s'.Inv := by
  obtain ⟨t, hc, hs⟩ := Option.bind_eq_some_iff.mp hs
  split at hs
  · rename_i hplace
    cases hs
    exact h.sched hc (by rw [hplace]; exact id) (.inl rfl) (.inr rfl)
  · cases hs

theorem Inv.schedule (hs : s.schedule c t = some s') : s'.Inv := by
  obtain ⟨hidle, hrunnable, hready, hu, -⟩ := schedule_cases hs
  have hlive : s.Live t := by
    rw [Live, hready]
    decide
  -- A process that is runnable has no thread on a CPU.
  have hoff : ∀ t', (s.threads t').proc = (s.threads t).proc → ∀ c', s.cpu c' ≠ some t' := by
    intro t' hproc c' hc'
    have hruns := (h.on c' t' hc').runs
    rw [Sys.procOf, hproc, ← Sys.procOf, hrunnable] at hruns
    obtain ⟨hr, -⟩ | ⟨hr, -⟩ := hruns <;> cases hr
  have hself : ∀ c', s.cpu c' = some t → c' = c := fun c' hc' => absurd hc' (hoff t rfl c')
  have hrest := h.off t hlive (hoff t rfl)
  refine h.of_moves (hu.moves (.inr hidle) (.inl rfl)) ?_
  exact {
    live := hlive
    live' := by
      rw [Live, hu.thread]
      exact ThreadState.noConfusion
    proc := by
      rw [hu.procOf]
      exact ProcState.noConfusion
    used := by
      rw [hu.procOf]
      exact ProcState.noConfusion
    notForked := fun t' b hlive' hplace => by
      have hused := (h.forking t' _ b hlive' hplace).1
      rw [← Sys.procOf, hrunnable] at hused
      cases hused
    self := fun c₁ c₂ h₁ h₂ => by rw [((hu.cpu_self hself).mp h₁).1, ((hu.cpu_self hself).mp h₂).1]
    others := fun t' ht' => .inl (hoff t' ht'.2.2)
    alone := fun _ t' ht' => hoff t' ht'.2.2
    on := fun c' _ => by
      rw [hu.thread, hu.procOf]
      refine ⟨.inl rfl, fun hgone => ?_, .inl ⟨rfl, hrest.gap⟩⟩
      have := hrest.gone.mpr hgone
      rw [hready] at this
      cases this
    off := fun hnone => absurd ((hu.cpu_self hself).mpr ⟨rfl, rfl⟩) (hnone c)
    zombie := fun hz => by
      rw [hu.procOf] at hz
      cases hz
    pair := fun hcom t' ht' => by
      rw [hu.thread] at hcom
      exact h.pair t t' hcom ht'
    pair' := fun t' ht' hcom' => by
      rw [hu.thread]
      exact h.pair t' t hcom' ⟨ht'.1.symm, hlive, ht'.2.2.symm⟩
    forking := fun np b hplace => by
      rw [hu.thread] at hplace
      have hself := h.forking_self hlive hplace
      refine ⟨fun heq => ?_, hself⟩
      have hused := hself.1
      rw [heq, ← Sys.procOf, hrunnable] at hused
      cases hused }

theorem Inv.wakeup (hs : s.wakeup p = some s') : s'.Inv := by
  rw [Sys.wakeup] at hs
  split at hs
  · rename_i hsleep
    cases hs
    exact h.setProc p rfl (.inr ⟨hsleep, rfl⟩)
  · cases hs

theorem Inv.wakeThread (hs : s.wakeThread t = some s') : s'.Inv := by
  rw [Sys.wakeThread] at hs
  split at hs
  · rename_i hsleep
    cases hs
    have hlive : s.Live t := by
      rw [Live, hsleep]
      decide
    have hoff : ∀ c, s.cpu c ≠ some t := by
      intro c hc
      have hon := (h.on c t hc).live
      rw [hsleep] at hon
      obtain hon | hon := hon <;> cases hon
    have hrest := h.off t hlive hoff
    have hthread : (s.setThread t { s.threads t with state := .runnable }).threads t =
        { s.threads t with state := .runnable } := update_self _ _ _
    have hproc : (s.setThread t { s.threads t with state := .runnable }).procOf t = s.procOf t := by
      rw [Sys.procOf, hthread]
      rfl
    -- The only thread of a process that is being forked does not sleep.
    have hused : (s.procOf t).state ≠ .used := by
      intro hused
      obtain ⟨-, -, hstate, hsole⟩ := h.used _ hused
      rw [← hsole t hlive rfl, hsleep] at hstate
      cases hstate
    have hm : Moves s (s.setThread t { s.threads t with state := .runnable }) t :=
      ⟨fun t' hne => update_of_ne hne _ _, fun p _ => rfl, fun c t' _ => Iff.rfl, rfl,
        by rw [hthread], by rw [hthread], by rw [hproc]⟩
    refine h.of_moves hm ?_
    exact {
      live := hlive
      live' := by
        rw [Live, hthread]
        exact ThreadState.noConfusion
      proc := by
        rw [hproc]
        exact (h.owner t hlive).1
      used := by
        rw [hproc]
        exact hused
      notForked := fun t' b hlive' hplace => hused (h.forking t' _ b hlive' hplace).1
      self := fun c _ hc => absurd hc (hoff c)
      others := fun _ _ => .inr (by rw [hproc])
      alone := fun hon => absurd hon.choose_spec (hoff _)
      on := fun c hc => absurd hc (hoff c)
      off := fun _ => by
        rw [hthread, hproc]
        have hready : ThreadState.runnable ≠ .zombie := by decide
        refine ⟨ThreadState.noConfusion, hrest.gap, ⟨fun hz => absurd hz hready, fun hgone => ?_⟩,
          hrest.zombie⟩
        have hz := hrest.gone.mpr hgone
        rw [hsleep] at hz
        cases hz
      zombie := fun hz t' ht' hoff' => by
        have hzombie := (h.off t' ht'.2.1 hoff').zombie
        rw [Sys.procOf, ht'.2.2, ← Sys.procOf, ← hproc] at hzombie
        exact hzombie hz
      pair := fun hcom t' ht' => by
        rw [hthread] at hcom
        exact h.pair t t' hcom ht'
      pair' := fun t' ht' hcom' => by
        rw [hthread]
        exact h.pair t' t hcom' ⟨ht'.1.symm, hlive, ht'.2.2.symm⟩
      forking := fun np b hplace => by
        rw [hthread] at hplace
        have hself := h.forking_self hlive hplace
        refine ⟨fun heq => hused ?_, hself⟩
        rw [Sys.procOf, ← heq]
        exact hself.1 }
  · cases hs

theorem Inv.signal (p : Slot) (killed : Nat) : (s.signal p killed).Inv := by
  refine h.setProc p rfl ?_
  by_cases hsleep : (s.procs p).state = .sleeping
  · exact .inr ⟨hsleep, if_pos hsleep⟩
  · exact .inl (if_neg hsleep)

theorem Inv.kill (hs : s.kill p sig dfl = some s') : s'.Inv := by
  rw [Sys.kill] at hs
  split at hs
  · cases hs
    exact h.signal p _
  · cases hs

theorem Inv.tgkill (hs : s.tgkill p sig dfl = some s') : s'.Inv := by
  rw [Sys.tgkill] at hs
  split at hs
  · cases hs
    exact h.signal p _
  · cases hs

theorem Inv.setKilled (hs : s.setKilled c sig = some s') : s'.Inv := by
  obtain ⟨t, hc, -, rfl⟩ := guarded hs
  exact h.setProc _ rfl (.inl rfl)

/-- A place that is neither in `fork` nor in `exit`. -/
theorem Inv.goto_plain (hc : s.cpu c = some t) {place : Place}
    (hold : ¬ (s.threads t).place.Gap) (hcom : ¬ place.Committed) (hstay : place ≠ .gone)
    (hfork : ∀ np b, place ≠ .forking np b) : (s.goto t place).Inv :=
  h.goto hc hold (fun hgap => hcom hgap.committed) hstay (fun h => absurd h hcom)
    fun np b h => absurd h (hfork np b)

theorem Inv.callExit {arg : Int} (hs : s.callExit c arg code = some s') : s'.Inv := by
  obtain ⟨t, hc, hguard, rfl⟩ := guarded hs
  exact h.goto_plain hc (by rw [hguard.1]; exact id) id Place.noConfusion fun _ _ => Place.noConfusion

theorem Inv.callThreadExit (hs : s.callThreadExit c code = some s') : s'.Inv := by
  obtain ⟨t, hc, hplace, rfl⟩ := guarded hs
  exact h.goto_plain hc (by rw [hplace]; exact id) id Place.noConfusion fun _ _ => Place.noConfusion

/-- A thread passes the check of `exit`: no other thread of the process is in the way. -/
theorem Inv.alone_of_check (hc : s.cpu c = some t)
    (hcheck : s.IsMain t ∨ ¬ s.OthersActive t) {t' : Tid} (ht' : s.Sibling t t') :
    (s.threads t').place = .gone ∨ t = (s.threads t).pid ∧ ¬ (s.threads t').place.Committed := by
  have hlive := h.live_of_on hc
  obtain hmain | hothers := hcheck
  · -- Two exits of one process at a time would both be of the main thread.
    have hmain : t = (s.threads t).pid := by rw [← (h.owner t hlive).2]; exact hmain
    refine .inr ⟨hmain, fun hcom' => ?_⟩
    obtain hgone | ⟨hmain', -⟩ := h.pair t' t hcom' ⟨ht'.1.symm, hlive, ht'.2.2.symm⟩
    · exact (h.on c t hc).stays hgone
    · refine ht'.1 ?_
      rw [hmain', hmain, ← (h.owner t hlive).2, ← (h.owner t' ht'.2.1).2, Sys.procOf, Sys.procOf, ht'.2.2]
  · left
    have hrest := h.off t' ht'.2.1 (h.off_of_sibling hc ht')
    refine hrest.gone.mp ?_
    by_contra hactive
    refine hothers ⟨t', ?_, ht'.1, ht'.2.2, hactive, ht'.2.1⟩
    by_contra hge
    exact ht'.2.1 (h.fresh t' (Nat.le_of_not_lt hge)).1

theorem Inv.checkThreads (hs : s.checkThreads c = some s') : s'.Inv := by
  obtain ⟨t, hc, hs⟩ := Option.bind_eq_some_iff.mp hs
  split at hs
  · rename_i arg code hplace
    have hgap : ¬ (s.threads t).place.Gap := by rw [hplace]; exact id
    have hcom : ¬ (s.threads t).place.Committed := by rw [hplace]; exact id
    split at hs
    · rename_i hcheck
      cases hs
      have hset := h.setProc (s.threads t).proc
        (w := { s.procOf t with cause := some (if (s.procOf t).killed ≠ 0 then
          .signaled (s.procOf t).killed else .exited arg) }) rfl (.inl rfl)
      refine hset.goto hc hgap id Place.noConfusion (fun _ t' ht' => ?_) fun _ _ => Place.noConfusion
      exact h.alone_of_check hc hcheck ht'
    · cases hs
      exact h.goto_plain hc hgap id Place.noConfusion fun _ _ => Place.noConfusion
  · cases hs

theorem Inv.retire (hs : s.retire c = some s') : s'.Inv := by
  obtain ⟨t, arg, code, hc, hplace, hu, -⟩ := retire_cases hs
  have hrun := h.running hc (by rw [hplace]; exact id)
  refine h.of_update hu hc (.inl rfl) ThreadState.noConfusion ?_ ?_ ?_ ?_ ?_ ?_
  · rw [hrun]
    exact ⟨by decide, by decide⟩
  · exact fun _ => ⟨.inr rfl, Place.noConfusion, .inl ⟨hrun, id⟩⟩
  · intro hnone
    cases hnone
  · intro hz
    rw [hrun] at hz
    cases hz
  · exact fun hcom => absurd hcom id
  · intro np b hfork
    cases hfork

theorem Inv.switchThread (hs : s.switchThread c = some s') : s'.Inv := by
  obtain ⟨t, arg, code, hc, hplace, ⟨hrunning, hu, -⟩ | ⟨-, rfl⟩⟩ := switchThread_cases hs
  · have hz : (s.threads t).state = .zombie := (h.on c t hc).live.resolve_left hrunning
    refine h.of_update hu hc (.inr rfl) (h.live_of_on hc)
      ⟨ProcState.noConfusion, ProcState.noConfusion⟩ ?_ ?_ ?_ ?_ ?_
    · intro hsome
      cases hsome
    · exact fun _ => ⟨hrunning, id, ⟨fun _ => rfl, fun _ => hz⟩, fun _ => id⟩
    · intro hzombie
      cases hzombie
    · exact fun hcom => absurd hcom id
    · intro np b hfork
      cases hfork
  · exact h.goto_plain hc (by rw [hplace]; exact id) id Place.noConfusion fun _ _ => Place.noConfusion

theorem Inv.publish (hs : s.publish c = some s') : s'.Inv := by
  obtain ⟨t, code, hc, hplace, hu, -⟩ := publish_cases hs
  have hcom : (s.threads t).place.Committed := by rw [hplace]; trivial
  refine h.of_update hu hc (.inl rfl) ThreadState.noConfusion
    ⟨ProcState.noConfusion, ProcState.noConfusion⟩ ?_ ?_ ?_ ?_ ?_
  · exact fun _ => ⟨.inr rfl, Place.noConfusion, .inr ⟨rfl, rfl, trivial⟩⟩
  · intro hnone
    cases hnone
  · exact fun _ => hcom
  · exact fun _ => .inl hcom
  · intro np b hfork
    cases hfork

theorem Inv.reparent (p : Slot) : (s.reparent p).Inv := by
  refine h.congr rfl rfl rfl (fun q => ?_) (fun q => ?_)
  · simp only [Sys.reparent]
    split <;> rfl
  · left
    simp only [Sys.reparent]
    split <;> rfl

theorem Inv.announce (hs : s.announce c = some s') : s'.Inv := by
  obtain ⟨t, hc, hplace, hu, -⟩ := announce_cases hs
  have h' := h.reparent (s.threads t).proc
  have hcom : (s.threads t).place.Committed := by rw [hplace]; trivial
  have hgap : (s.threads t).place.Gap := by rw [hplace]; trivial
  obtain ⟨hz, hz'⟩ := h'.zombie_of_gap hc hgap
  refine h'.of_update hu hc (.inl rfl) (h'.live_of_on hc) ?_ ?_ ?_ ?_ ?_ ?_
  · rw [hz]
    exact ⟨by decide, by decide⟩
  · exact fun _ => ⟨.inr hz', Place.noConfusion, .inr ⟨hz, hz', trivial⟩⟩
  · intro hnone
    cases hnone
  · exact fun _ => hcom
  · exact fun _ => .inl hcom
  · intro np b hfork
    cases hfork

theorem Inv.finish (hs : s.finish c = some s') : s'.Inv := by
  obtain ⟨t, hc, hplace, hu, -⟩ := finish_cases hs
  have hcom : (s.threads t).place.Committed := by rw [hplace]; trivial
  obtain ⟨hz, hz'⟩ := h.zombie_of_gap hc (by rw [hplace]; trivial)
  refine h.of_update hu hc (.inr rfl) (h.live_of_on hc) ?_ ?_ ?_ ?_ ?_ ?_
  · rw [hz]
    exact ⟨by decide, by decide⟩
  · intro hsome
    cases hsome
  · refine fun _ => ⟨?_, id, ⟨fun _ => rfl, fun _ => hz'⟩, fun _ => id⟩
    rw [hz']
    decide
  · exact fun _ => hcom
  · exact fun hgone => absurd hgone id
  · intro np b hfork
    cases hfork

/-- A slot that is unused has no threads. -/
theorem Inv.proc_ne_of_unused (hnp : (s.procs np).state = .unused) (hlive : s.Live t) : (s.threads t).proc ≠ np := by
  rintro rfl
  exact (h.owner t hlive).1 hnp

end Reading

theorem alloc_threads_of_ne (hne : t ≠ s.nextPid) :
    (s.alloc np parent forker pstate tstate).threads t = s.threads t :=
  update_of_ne hne _ _

theorem alloc_threads_self : (s.alloc np parent forker pstate tstate).threads s.nextPid =
      ⟨np, tstate, .user, s.nextPid⟩ :=
  update_self _ _ _

theorem alloc_procs_self : (s.alloc np parent forker pstate tstate).procs np =
      ⟨pstate, s.nextPid, parent, 0, 0, forker, none⟩ :=
  update_self _ _ _

theorem alloc_procs_of_ne (hne : p ≠ np) : (s.alloc np parent forker pstate tstate).procs p = s.procs p :=
  update_of_ne hne _ _

theorem Inv.alloc (h : s.Inv) (hnp : (s.procs np).state = .unused)
    (hstate : pstate = .used ∧ tstate = .used ∨ pstate = .runnable ∧ tstate = .runnable) :
    (s.alloc np parent forker pstate tstate).Inv := by
  have hp : pstate ≠ .unused ∧ pstate ≠ .zombie := by
    obtain ⟨rfl, -⟩ | ⟨rfl, -⟩ := hstate <;> decide
  have ht : tstate ≠ .unused ∧ tstate ≠ .running ∧ tstate ≠ .zombie := by
    obtain ⟨-, rfl⟩ | ⟨-, rfl⟩ := hstate <;> decide
  -- The new thread is the only one in the slot.
  have hold {t : Tid} (hlive : s.Live t) : t ≠ s.nextPid ∧ (s.threads t).proc ≠ np := by
    refine ⟨?_, h.proc_ne_of_unused hnp hlive⟩
    rintro rfl
    exact hlive (h.fresh _ (Nat.le_refl _)).1
  have hother {t : Tid} (hne : t ≠ s.nextPid) :
      (s.alloc np parent forker pstate tstate).Live t ↔ s.Live t := by
    rw [Live, Live, alloc_threads_of_ne hne]
  have hprocOf {t : Tid} (hlive : s.Live t) :
      (s.alloc np parent forker pstate tstate).procOf t = s.procOf t := by
    rw [Sys.procOf, alloc_threads_of_ne (hold hlive).1, alloc_procs_of_ne (hold hlive).2, Sys.procOf]
  have hmem {t : Tid} (hlive : (s.alloc np parent forker pstate tstate).Live t) :
      t = s.nextPid ∨ t ≠ s.nextPid ∧ s.Live t := by
    by_cases heq : t = s.nextPid
    · exact .inl heq
    · exact .inr ⟨heq, (hother heq).mp hlive⟩
  have hnext : (s.alloc np parent forker pstate tstate).nextPid = s.nextPid + 1 := rfl
  exact {
    fresh := fun t hle => by
      rw [hnext] at hle
      have hne : t ≠ s.nextPid := by omega
      rw [alloc_threads_of_ne hne]
      exact h.fresh t (by omega)
    pid_lt := fun p => by
      rw [hnext]
      by_cases hpn : p = np
      · rw [hpn, alloc_procs_self]
        exact Nat.lt_succ_self _
      · rw [alloc_procs_of_ne hpn]
        exact Nat.lt_succ_of_lt (h.pid_lt p)
    owner := fun t hlive => by
      obtain rfl | ⟨hne, hlive'⟩ := hmem hlive
      · rw [Sys.procOf, alloc_threads_self, alloc_procs_self]
        exact ⟨hp.1, rfl⟩
      · rw [hprocOf hlive', alloc_threads_of_ne hne]
        exact h.owner t hlive'
    dead := fun t hcom => by
      by_cases hne : t = s.nextPid
      · rw [hne, alloc_threads_self] at hcom
        exact absurd hcom id
      · rw [alloc_threads_of_ne hne] at hcom
        exact (hother hne).mpr (h.dead t hcom)
    one := fun c c' t t' hc hc' hproc => by
      rw [alloc_threads_of_ne (hold (h.live_of_on hc)).1,
        alloc_threads_of_ne (hold (h.live_of_on hc')).1] at hproc
      exact h.one c c' t t' hc hc' hproc
    on := fun c t hc => by
      rw [hprocOf (h.live_of_on hc), alloc_threads_of_ne (hold (h.live_of_on hc)).1]
      exact h.on c t hc
    off := fun t hlive hc => by
      obtain rfl | ⟨hne, hlive'⟩ := hmem hlive
      · rw [Sys.procOf, alloc_threads_self, alloc_procs_self]
        exact ⟨ht.2.1, id, ⟨fun hz => absurd hz ht.2.2, fun hgone => by cases hgone⟩, fun _ => id⟩
      · rw [hprocOf hlive', alloc_threads_of_ne hne]
        exact h.off t hlive' hc
    pair := fun t t' hcom hsib => by
      by_cases hne : t = s.nextPid
      · rw [hne, alloc_threads_self] at hcom
        exact absurd hcom id
      · rw [alloc_threads_of_ne hne] at hcom ⊢
        have hlive := h.dead t hcom
        obtain ⟨hne', hlive', hproc⟩ := hsib
        rw [alloc_threads_of_ne hne] at hproc
        obtain rfl | ⟨hnew, hlive''⟩ := hmem hlive'
        · rw [alloc_threads_self] at hproc
          exact absurd hproc.symm (hold hlive).2
        · rw [alloc_threads_of_ne hnew] at hproc ⊢
          exact h.pair t t' hcom ⟨hne', hlive'', hproc⟩
    forking := fun t np' b hlive hplace => by
      obtain rfl | ⟨hne, hlive'⟩ := hmem hlive
      · rw [alloc_threads_self] at hplace
        cases hplace
      · rw [alloc_threads_of_ne hne] at hplace
        obtain ⟨hused, hone⟩ := h.forking t np' b hlive' hplace
        have hne' : np' ≠ np := by
          rintro rfl
          rw [hnp] at hused
          cases hused
        rw [alloc_procs_of_ne hne']
        refine ⟨hused, fun t' b' hlive'' hplace' => ?_⟩
        obtain rfl | ⟨hnew, hlive''⟩ := hmem hlive''
        · rw [alloc_threads_self] at hplace'
          cases hplace'
        · rw [alloc_threads_of_ne hnew] at hplace'
          exact hone t' b' hlive'' hplace'
    used := fun p hused => by
      by_cases hpn : p = np
      · rw [hpn, alloc_procs_self] at hused ⊢
        rw [alloc_threads_self]
        refine ⟨rfl, rfl, ?_, fun t hlive hproc => ?_⟩
        · obtain ⟨-, rfl⟩ | ⟨hrun, -⟩ := hstate
          · rfl
          · rw [hrun] at hused
            cases hused
        · obtain rfl | ⟨hne, hlive'⟩ := hmem hlive
          · rfl
          · rw [alloc_threads_of_ne hne] at hproc
            exact absurd hproc (hold hlive').2
      · rw [alloc_procs_of_ne hpn] at hused ⊢
        obtain ⟨hproc, hplace, hst, hsole⟩ := h.used p hused
        rw [alloc_threads_of_ne (Nat.ne_of_lt (h.pid_lt p))]
        refine ⟨hproc, hplace, hst, fun t hlive hproc' => ?_⟩
        obtain rfl | ⟨hne, hlive'⟩ := hmem hlive
        · rw [alloc_threads_self] at hproc'
          exact absurd hproc'.symm hpn
        · rw [alloc_threads_of_ne hne] at hproc'
          exact hsole t hlive' hproc' }

theorem Inv.allocproc (h : s.Inv) (hs : s.allocproc c np = some s') : s'.Inv := by
  obtain ⟨t, hc, hguard, rfl⟩ := guarded hs
  obtain ⟨hplace, hnp, -⟩ := hguard
  have hlive := h.live_of_on hc
  have hne : t ≠ s.nextPid := by
    rintro rfl
    exact hlive (h.fresh _ (Nat.le_refl _)).1
  have h' : (s.alloc np (s.procs np).parent 0 .used .used).Inv := h.alloc hnp (.inl ⟨rfl, rfl⟩)
  refine h'.goto hc ?_ id Place.noConfusion (fun hcom => absurd hcom id) fun np' b heq => ?_
  · rw [alloc_threads_of_ne hne, hplace]
    exact id
  · cases heq
    refine ⟨by rw [alloc_procs_self], fun t' b' _ hlive' hplace' => ?_⟩
    by_cases hne' : t' = s.nextPid
    · rw [hne', alloc_threads_self] at hplace'
      cases hplace'
    · rw [alloc_threads_of_ne hne'] at hplace'
      rw [Live, alloc_threads_of_ne hne'] at hlive'
      have hused := (h.forking t' np b' hlive' hplace').1
      rw [hnp] at hused
      cases hused

theorem Inv.clone (h : s.Inv) (hs : s.clone c np = some s') : s'.Inv := by
  obtain ⟨t, hc, hguard, rfl⟩ := guarded hs
  exact h.alloc hguard.2.1 (.inr ⟨rfl, rfl⟩)

theorem Inv.link (h : s.Inv) (hs : s.link c = some s') : s'.Inv := by
  obtain ⟨t, hc, hs⟩ := Option.bind_eq_some_iff.mp hs
  split at hs
  · rename_i np hplace
    cases hs
    have h' : (s.setProc np { s.procs np with
        parent := some (s.threads t).proc
        forker := (s.procOf t).pid }).Inv := h.setProc np rfl (.inl rfl)
    have hfork := h'.forking_self (h'.live_of_on hc) hplace
    refine h'.goto hc ?_ id Place.noConfusion (fun hcom => absurd hcom id) fun np' b heq => ?_
    · rw [show (s.setProc np _).threads t = s.threads t from rfl, hplace]
      exact id
    · cases heq
      exact hfork
  · cases hs

/-- The child of a `fork` that is over becomes runnable. -/
theorem Inv.startChild (h : s.Inv) (hused : (s.procs np).state = .used)
    (hfork : ∀ t b, s.Live t → (s.threads t).place ≠ .forking np b) :
    ((s.setProc np { s.procs np with state := .runnable }).setThread (s.procs np).pid
      { s.threads (s.procs np).pid with state := .runnable }).Inv := by
  obtain ⟨t, ht⟩ : ∃ t, t = (s.procs np).pid := ⟨_, rfl⟩
  obtain ⟨hproc, hplace, hstate, hsole⟩ := h.used np hused
  rw [← ht] at hproc hplace hstate hsole ⊢
  have hlive : s.Live t := by
    rw [Live, hstate]
    decide
  have hoff : ∀ c, s.cpu c ≠ some t := by
    intro c hc
    have hon := (h.on c t hc).live
    rw [hstate] at hon
    obtain hon | hon := hon <;> cases hon
  have hnone : ∀ t', ¬ s.Sibling t t' := fun t' ht' => ht'.1 (hsole t' ht'.2.1 (ht'.2.2.trans hproc))
  obtain ⟨s', hs'⟩ : ∃ s', s' = (s.setProc np { s.procs np with state := .runnable }).setThread t
    { s.threads t with state := .runnable } := ⟨_, rfl⟩
  rw [← hs']
  have hthread : s'.threads t = { s.threads t with state := .runnable } := by
    rw [hs']
    exact update_self _ _ _
  have hprocOf : s'.procOf t = { s.procs np with state := .runnable } := by
    rw [Sys.procOf, hthread]
    simp only [hproc]
    rw [hs']
    exact update_self _ _ _
  have hm : Moves s s' t := by
    refine ⟨fun t' hne => ?_, fun p hne => ?_, fun c t' _ => ?_, ?_, ?_, ?_, ?_⟩
    · rw [hs']
      exact update_of_ne hne _ _
    · rw [hs']
      rw [hproc] at hne
      exact update_of_ne hne _ _
    · rw [hs']
      exact Iff.rfl
    · rw [hs']
      rfl
    · rw [hthread]
    · rw [hthread]
    · rw [hprocOf, Sys.procOf, hproc]
  have hcpu : s'.cpu = s.cpu := by
    rw [hs']
    rfl
  refine h.of_moves hm ?_
  exact {
    live := hlive
    live' := by
      rw [Live, hthread]
      exact ThreadState.noConfusion
    proc := by
      rw [hprocOf]
      exact ProcState.noConfusion
    used := by
      rw [hprocOf]
      exact ProcState.noConfusion
    notForked := fun t' b hlive' hplace' => hfork t' b hlive' (by rw [← hproc]; exact hplace')
    self := fun c _ hc => absurd (hcpu ▸ hc) (hoff c)
    others := fun t' ht' => absurd ht' (hnone t')
    alone := fun _ t' ht' => absurd ht' (hnone t')
    on := fun c hc => absurd (hcpu ▸ hc) (hoff c)
    off := fun _ => by
      rw [hthread, hprocOf]
      have hrest := h.off t hlive hoff
      have hready : ThreadState.runnable ≠ .zombie := by decide
      have hstay : (s.threads t).place ≠ .gone := by
        rw [hplace]
        exact Place.noConfusion
      exact ⟨ThreadState.noConfusion, hrest.gap,
        ⟨fun hz => absurd hz hready, fun hgone => absurd hgone hstay⟩, fun hz => by cases hz⟩
    zombie := fun _ t' ht' => absurd ht' (hnone t')
    pair := fun _ t' ht' => absurd ht' (hnone t')
    pair' := fun t' ht' => absurd ht' (hnone t')
    forking := fun np' b hplace' => by
      rw [hthread, hplace] at hplace'
      cases hplace' }

theorem Inv.start (h : s.Inv) (hs : s.start c = some s') : s'.Inv := by
  obtain ⟨t, hc, hs⟩ := Option.bind_eq_some_iff.mp hs
  split at hs
  · rename_i np hplace
    cases hs
    have hlive := h.live_of_on hc
    obtain ⟨hused, hone⟩ := h.forking t np true hlive hplace
    have h' : (s.goto t .user).Inv :=
      h.goto_plain hc (by rw [hplace]; exact id) id Place.noConfusion fun _ _ => Place.noConfusion
    refine h'.startChild hused fun t' b hlive' hplace' => ?_
    -- Only the thread that has just left `fork` was there.
    by_cases hne : t' = t
    · rw [hne, goto_self] at hplace'
      cases hplace'
    · rw [Live, goto_of_ne s .user hne] at hlive'
      rw [goto_of_ne s .user hne] at hplace'
      exact hne (hone t' b hlive' hplace')
  · cases hs

theorem Inv.cloneThread (h : s.Inv) (hs : s.cloneThread c = some s') : s'.Inv := by
  obtain ⟨t, hc, hs⟩ := Option.bind_eq_some_iff.mp hs
  split at hs
  · rename_i hguard
    obtain ⟨hplace, -⟩ := hguard
    have hlive := h.live_of_on hc
    have hrun := h.running hc (by rw [hplace]; exact id)
    have hprocs : s'.procs = s.procs := by cases hs; rfl
    have hcpu : s'.cpu = s.cpu := by cases hs; rfl
    have hnext : s'.nextPid = s.nextPid + 1 := by cases hs; rfl
    have hnew : s'.threads s.nextPid = ⟨(s.threads t).proc, .runnable, .user, (s.threads t).pid⟩ := by
      cases hs
      exact update_self _ _ _
    have hold {t' : Tid} (hne : t' ≠ s.nextPid) : s'.threads t' = s.threads t' := by
      cases hs
      exact update_of_ne hne _ _
    have hne {t' : Tid} (hlive' : s.Live t') : t' ≠ s.nextPid := by
      rintro rfl
      exact hlive' (h.fresh _ (Nat.le_refl _)).1
    have hmem {t' : Tid} (hlive' : s'.Live t') : t' = s.nextPid ∨ t' ≠ s.nextPid ∧ s.Live t' := by
      by_cases heq : t' = s.nextPid
      · exact .inl heq
      · rw [Live, hold heq] at hlive'
        exact .inr ⟨heq, hlive'⟩
    have hprocOf {t' : Tid} (hlive' : s.Live t') : s'.procOf t' = s.procOf t' := by
      rw [Sys.procOf, hold (hne hlive'), hprocs, Sys.procOf]
    have hprocNew : s'.procOf s.nextPid = s.procOf t := by
      rw [Sys.procOf, hnew, hprocs, Sys.procOf]
    exact {
      fresh := fun t' hle => by
        rw [hnext] at hle
        have hne : t' ≠ s.nextPid := by omega
        rw [hold hne]
        exact h.fresh t' (by omega)
      pid_lt := fun p => by
        rw [hprocs, hnext]
        exact Nat.lt_succ_of_lt (h.pid_lt p)
      owner := fun t' hlive' => by
        obtain rfl | ⟨hne', hlive''⟩ := hmem hlive'
        · rw [hprocNew, hnew]
          exact h.owner t hlive
        · rw [hprocOf hlive'', hold hne']
          exact h.owner t' hlive''
      dead := fun t' hcom => by
        by_cases hne' : t' = s.nextPid
        · rw [hne', hnew] at hcom
          exact absurd hcom id
        · rw [hold hne'] at hcom
          rw [Live, hold hne']
          exact h.dead t' hcom
      one := fun c₁ c₂ t₁ t₂ h₁ h₂ hproc => by
        rw [hcpu] at h₁ h₂
        rw [hold (hne (h.live_of_on h₁)), hold (hne (h.live_of_on h₂))] at hproc
        exact h.one c₁ c₂ t₁ t₂ h₁ h₂ hproc
      on := fun c' t' hc' => by
        rw [hcpu] at hc'
        rw [hprocOf (h.live_of_on hc'), hold (hne (h.live_of_on hc'))]
        exact h.on c' t' hc'
      off := fun t' hlive' hc' => by
        rw [hcpu] at hc'
        obtain rfl | ⟨hne', hlive''⟩ := hmem hlive'
        · rw [hprocNew, hnew]
          exact ⟨ThreadState.noConfusion, id, ⟨fun hz => (by cases hz), fun hgone => (by cases hgone)⟩,
            fun _ => id⟩
        · rw [hprocOf hlive'', hold hne']
          exact h.off t' hlive'' hc'
      pair := fun t₁ t₂ hcom hsib => by
        by_cases hne₁ : t₁ = s.nextPid
        · rw [hne₁, hnew] at hcom
          exact absurd hcom id
        · rw [hold hne₁] at hcom ⊢
          obtain ⟨hne₂, hlive₂, hproc⟩ := hsib
          rw [hold hne₁] at hproc
          obtain rfl | ⟨hne₂', hlive₂'⟩ := hmem hlive₂
          · -- The thread that makes a new one is not gone, so it is the main thread that exits.
            rw [hnew] at hproc ⊢
            have hne' : t ≠ t₁ := by
              rintro rfl
              rw [hplace] at hcom
              exact hcom
            obtain hgone | ⟨hmain, -⟩ := h.pair t₁ t hcom ⟨hne', hlive, hproc⟩
            · rw [hplace] at hgone
              cases hgone
            · exact .inr ⟨hmain, id⟩
          · rw [hold hne₂'] at hproc ⊢
            exact h.pair t₁ t₂ hcom ⟨hne₂, hlive₂', hproc⟩
      forking := fun t' np b hlive' hplace' => by
        obtain rfl | ⟨hne', hlive''⟩ := hmem hlive'
        · rw [hnew] at hplace'
          cases hplace'
        · rw [hold hne'] at hplace'
          obtain ⟨hused, hone⟩ := h.forking t' np b hlive'' hplace'
          rw [hprocs]
          refine ⟨hused, fun t₂ b' hlive₂ hplace₂ => ?_⟩
          obtain rfl | ⟨hne₂, hlive₂'⟩ := hmem hlive₂
          · rw [hnew] at hplace₂
            cases hplace₂
          · rw [hold hne₂] at hplace₂
            exact hone t₂ b' hlive₂' hplace₂
      used := fun p hused => by
        rw [hprocs] at hused ⊢
        obtain ⟨hproc, hplace', hst, hsole⟩ := h.used p hused
        rw [hold (Nat.ne_of_lt (h.pid_lt p))]
        refine ⟨hproc, hplace', hst, fun t' hlive' hproc' => ?_⟩
        obtain rfl | ⟨hne', hlive''⟩ := hmem hlive'
        · rw [hnew] at hproc'
          rw [← hproc', ← Sys.procOf, hrun] at hused
          cases hused
        · rw [hold hne'] at hproc'
          exact hsole t' hlive'' hproc' }
  · cases hs

/-! ## Freeing a slot -/

/-- No thread of the slot is in `exit`. -/
def Quiet (s : Sys n) (np : Slot) : Prop :=
  ∀ t, s.Live t → (s.threads t).proc = np → ¬ (s.threads t).place.Committed

theorem freeproc_live (s : Sys n) (np : Slot) (t : Tid) :
    (s.freeproc np).Live t ↔ s.Live t ∧ (s.threads t).proc ≠ np := by
  simp only [Live, freeproc]
  split
  · rename_i hproc
    exact ⟨fun h => absurd rfl h, fun h => absurd hproc h.2⟩
  · rename_i hproc
    exact ⟨fun h => ⟨h, hproc⟩, fun h => h.1⟩

theorem freeproc_threads_of_ne (hne : (s.threads t).proc ≠ np) : (s.freeproc np).threads t = s.threads t := if_neg hne

theorem freeproc_place (s : Sys n) (np : Slot) (t : Tid) :
    ((s.freeproc np).threads t).place = (s.threads t).place := by
  simp only [freeproc]
  split <;> rfl

theorem freeproc_procs_self (s : Sys n) (np : Slot) :
    (s.freeproc np).procs np = ⟨.unused, 0, none, 0, 0, 0, none⟩ := update_self _ _ _

theorem freeproc_procs_of_ne (hne : p ≠ np) : (s.freeproc np).procs p = s.procs p := update_of_ne hne _ _

/-- A zombie that no exit works on any more can be freed. -/
theorem Inv.freeproc (h : s.Inv) (hz : (s.procs np).state = .zombie) (hquiet : s.Quiet np) : (s.freeproc np).Inv := by
  have hlive {t : Tid} := freeproc_live s np t
  have hsame {t : Tid} (h' : (s.freeproc np).Live t) := freeproc_threads_of_ne (hlive.mp h').2
  have hprocOf {t : Tid} (h' : (s.freeproc np).Live t) : (s.freeproc np).procOf t = s.procOf t := by
    rw [Sys.procOf, hsame h', freeproc_procs_of_ne (hlive.mp h').2, Sys.procOf]
  -- A thread of a zombie is on a CPU in `exit` only.
  have hon {c : Fin n} {t : Tid} (hc : s.cpu c = some t) : (s.freeproc np).Live t := by
    refine hlive.mpr ⟨h.live_of_on hc, fun hproc => ?_⟩
    obtain ⟨hrun, -⟩ | ⟨-, -, hgap⟩ := (h.on c t hc).runs
    · rw [Sys.procOf, hproc, hz] at hrun
      cases hrun
    · exact hquiet t (h.live_of_on hc) hproc hgap.committed
  exact {
    fresh := fun t hle => by
      obtain ⟨hst, hplace⟩ := h.fresh t hle
      refine ⟨?_, by rw [freeproc_place]; exact hplace⟩
      by_contra hlive'
      exact (hlive.mp hlive').1 hst
    pid_lt := fun p => by
      by_cases hp : p = np
      · rw [hp, freeproc_procs_self]
        exact Nat.lt_of_le_of_lt (Nat.zero_le _) (h.pid_lt np)
      · rw [freeproc_procs_of_ne hp]
        exact h.pid_lt p
    owner := fun t h' => by
      rw [hprocOf h', hsame h']
      exact h.owner t (hlive.mp h').1
    dead := fun t hcom => by
      rw [freeproc_place] at hcom
      exact hlive.mpr ⟨h.dead t hcom, fun hproc => hquiet t (h.dead t hcom) hproc hcom⟩
    one := fun c c' t t' hc hc' hproc => by
      rw [hsame (hon hc), hsame (hon hc')] at hproc
      exact h.one c c' t t' hc hc' hproc
    on := fun c t hc => by
      rw [hprocOf (hon hc), hsame (hon hc)]
      exact h.on c t hc
    off := fun t h' hc => by
      rw [hprocOf h', hsame h']
      exact h.off t (hlive.mp h').1 hc
    pair := fun t t' hcom hsib => by
      rw [freeproc_place] at hcom
      have ht : (s.freeproc np).Live t :=
        hlive.mpr ⟨h.dead t hcom, fun hproc => hquiet t (h.dead t hcom) hproc hcom⟩
      obtain ⟨hne, ht', hproc⟩ := hsib
      rw [hsame ht, hsame ht'] at hproc
      rw [hsame ht, hsame ht']
      exact h.pair t t' hcom ⟨hne, (hlive.mp ht').1, hproc⟩
    forking := fun t np' b h' hplace => by
      rw [hsame h'] at hplace
      obtain ⟨hused, hone⟩ := h.forking t np' b (hlive.mp h').1 hplace
      have hne : np' ≠ np := by
        rintro rfl
        rw [hz] at hused
        cases hused
      rw [freeproc_procs_of_ne hne]
      refine ⟨hused, fun t' b' h'' hplace' => ?_⟩
      rw [hsame h''] at hplace'
      exact hone t' b' (hlive.mp h'').1 hplace'
    used := fun p hused => by
      have hne : p ≠ np := by
        rintro rfl
        rw [freeproc_procs_self] at hused
        cases hused
      rw [freeproc_procs_of_ne hne] at hused ⊢
      obtain ⟨hproc, hplace, hst, hsole⟩ := h.used p hused
      rw [freeproc_threads_of_ne (by rw [hproc]; exact hne)]
      refine ⟨hproc, hplace, hst, fun t h' hproc' => ?_⟩
      rw [hsame h'] at hproc'
      exact hsole t (hlive.mp h').1 hproc' }

/-- The step does not free a slot under its own exit. -/
def Calm (s : Sys n) : Action n → Prop
  | .waitpid _ np _ => s.Quiet np
  | _ => True

theorem Inv.waitpid (h : s.Inv) (hquiet : s.Quiet np) (hs : s.waitpid c np pid = some s') : s'.Inv := by
  obtain ⟨t, hc, hfinds, rfl⟩ := guarded hs
  exact (h.freeproc hfinds.2.2.2.2 hquiet).congr rfl rfl rfl (fun _ => rfl) fun _ => .inl rfl

theorem Inv.waitFault (h : s.Inv) (hs : s.waitFault c np pid = some s') : s'.Inv := by
  obtain ⟨t, hc, -, rfl⟩ := guarded hs
  exact h

theorem Inv.step (h : s.Inv) (hcalm : s.Calm a) (hs : s.step a = some s') : s'.Inv := by
  cases a with
  | schedule c t => exact h.schedule hs
  | yield c => exact h.yield hs
  | sleep c => exact h.sleep hs
  | block c => exact h.block hs
  | wakeup p => exact h.wakeup hs
  | wakeThread t => exact h.wakeThread hs
  | allocproc c np => exact h.allocproc hs
  | link c => exact h.link hs
  | start c => exact h.start hs
  | clone c np => exact h.clone hs
  | cloneThread c => exact h.cloneThread hs
  | callExit c arg => exact h.callExit hs
  | callExitGroup c status => exact h.callExit hs
  | callThreadExit c code => exact h.callThreadExit hs
  | checkThreads c => exact h.checkThreads hs
  | retire c => exact h.retire hs
  | switchThread c => exact h.switchThread hs
  | publish c => exact h.publish hs
  | announce c => exact h.announce hs
  | finish c => exact h.finish hs
  | waitpid c np pid => exact h.waitpid hcalm hs
  | waitFault c np pid => exact h.waitFault hs
  | kill p sig dfl => exact h.kill hs
  | tgkill p sig dfl => exact h.tgkill hs
  | setKilled c sig => exact h.setKilled hs

/-! ## One CPU and more -/

/-- With one CPU, a zombie that another process sees has switched away for the last time. -/
theorem Inv.calm_of_le_one (h : s.Inv) (hn : n ≤ 1) (hs : s.step a = some s') : s.Calm a := by
  cases a with
  | waitpid c np pid =>
    obtain ⟨t, hc, hs⟩ := Option.bind_eq_some_iff.mp hs
    split at hs
    · rename_i hfinds
      intro t' hlive' hproc hcom
      by_cases hon : ∃ c', s.cpu c' = some t'
      · obtain ⟨c', hc'⟩ := hon
        have hsame : c' = c := Fin.ext (by omega)
        rw [hsame, hc] at hc'
        rw [← Option.some.inj hc', hfinds.1] at hcom
        exact hcom
      · have hrest := h.off t' hlive' fun c' hc' => hon ⟨c', hc'⟩
        refine hrest.zombie ?_ hcom
        rw [Sys.procOf, hproc]
        exact hfinds.2.2.2.2
    · cases hs
  | _ => trivial

/-- A run on two CPUs in which the parent finds the child between two sections of its `exit`. -/
def earlyWait (c₀ c₁ : Fin n) : List (Action n) :=
  [.schedule c₀ 1, .allocproc c₀ ⟨1, one_lt_NPROC⟩, .link c₀, .start c₀, .schedule c₁ 2, .callExit c₁ 0,
    .checkThreads c₁, .publish c₁, .waitpid c₀ ⟨1, one_lt_NPROC⟩ (-1)]

theorem exists_not_held (hn : 1 < n) : ∃ s, Reaches Step (boot n) s ∧ ¬ s.Held := by
  have hlook : ((boot n).run (earlyWait ⟨0, Nat.zero_lt_of_lt hn⟩ ⟨1, hn⟩)).map
      (fun s => ((s.threads 2).place, (s.procOf 2).state)) = some (.published, .unused) := rfl
  obtain ⟨s, hrun, hsee⟩ := Option.map_eq_some_iff.mp hlook
  refine ⟨s, reaches_of_run hrun, fun hheld => ?_⟩
  have hplace : (s.threads 2).place = .published := congrArg Prod.fst hsee
  have hfree : (s.procOf 2).state = .unused := congrArg Prod.snd hsee
  exact (hheld 2 (by rw [hplace]; trivial)).1 hfree

/-- The slot of a process is never freed, or used again, under the exit of the process, just if there
is no second CPU. -/
theorem exit_slot_held_iff (n : Nat) : (∀ s, Reaches Step (boot n) s → s.Held) ↔ n ≤ 1 := by
  constructor
  · intro hheld
    by_contra hn
    obtain ⟨s, hrun, hnot⟩ := exists_not_held (Nat.lt_of_not_le hn)
    exact hnot (hheld s hrun)
  · intro hn s hrun
    refine Inv.held (hrun.invariant (Inv.boot n) fun s₁ s₂ hinv hstep => ?_)
    obtain ⟨a, ha⟩ := hstep
    exact hinv.step (hinv.calm_of_le_one hn ha) ha

/-- With two CPUs the parent frees the slot in the middle of the exit. -/
theorem not_held_two : ¬ ∀ s, Reaches Step (boot 2) s → s.Held := by
  intro hheld
  obtain ⟨s, hrun, hnot⟩ := exists_not_held (n := 2) (by decide)
  exact hnot (hheld s hrun)

end Sys

end SC7.Process
