-- SUMMARY: Which process gets to know the end of a child, and that the status says how the child ended, along every run without the steps that lose it.
import SC7.Kernel.ProcessStatus

/-!
# Delivery of the exit status
-/

namespace SC7.Process

open Function (update_of_ne update_self)

namespace Sys

variable {n killed sig : Nat} {s s' : Sys n} {c : Fin n} {t : Tid} {np p : Slot} {pid : Int} {dfl : Bool}
  {a : Action n}

/-! ## New processes and threads -/

section Calls

variable (h : s.Ledger)

include h

theorem Ledger.alloc (hinv : s.Inv) (hnp : (s.procs np).state = .unused)
    {parent : Option Slot} {forker : Nat} {pstate : ProcState} {tstate : ThreadState}
    (hp : pstate ≠ .unused ∧ pstate ≠ .zombie)
    (hparent : ∀ p, parent = some p → (s.procs p).state ≠ .unused ∧ (s.procs p).state ≠ .zombie ∧
      (s.procs p).pid = forker) : (s.alloc np parent forker pstate tstate).Ledger := by
  have hinit : np ≠ initproc := by
    rintro rfl
    exact h.init.1 hnp
  have hlive {t : Tid} (hl : s.Live t) : t ≠ s.nextPid ∧ (s.threads t).proc ≠ np := by
    refine ⟨?_, hinv.proc_ne_of_unused hnp hl⟩
    rintro rfl
    exact hl (hinv.fresh _ (Nat.le_refl _)).1
  have hmem {t : Tid} (hl : (s.alloc np parent forker pstate tstate).Live t) :
      t = s.nextPid ∨ t ≠ s.nextPid ∧ s.Live t := by
    by_cases heq : t = s.nextPid
    · exact .inl heq
    · rw [Live, alloc_threads_of_ne heq] at hl
      exact .inr ⟨heq, hl⟩
  have hnone {q : Slot} (hq : (s.procs q).state ≠ .unused) : q ≠ np := by
    rintro rfl
    exact hq hnp
  exact {
    init := by
      rw [alloc_procs_of_ne hinit.symm]
      refine ⟨h.init.1, h.init.2.1, h.init.2.2.1, fun t hproc hends => ?_⟩
      by_cases hne : t = s.nextPid
      · rw [hne, alloc_threads_self] at hends
        exact hends
      · rw [alloc_threads_of_ne hne] at hproc hends
        exact h.init.2.2.2 t hproc hends
    unused := fun p => by
      by_cases hpn : p = np
      · rw [hpn, alloc_procs_self]
        have hpos : s.nextPid ≠ 0 := Nat.ne_of_gt (Nat.lt_of_le_of_lt (Nat.zero_le _) (hinv.pid_lt np))
        exact ⟨⟨fun hu => absurd hu hp.1, fun hz => absurd hz hpos⟩, fun hu => absurd hu hp.1⟩
      · rw [alloc_procs_of_ne hpn]
        exact h.unused p
    distinct := fun p p' hu heq => by
      have hlt (q : Slot) := Nat.ne_of_lt (hinv.pid_lt q)
      by_cases hpn : p = np
      · by_cases hpn' : p' = np
        · rw [hpn, hpn']
        · rw [hpn, alloc_procs_self, alloc_procs_of_ne hpn'] at heq
          exact absurd heq.symm (hlt p')
      · by_cases hpn' : p' = np
        · rw [hpn', alloc_procs_self, alloc_procs_of_ne hpn] at heq
          exact absurd heq (hlt p)
        · rw [alloc_procs_of_ne hpn, alloc_procs_of_ne hpn'] at heq
          rw [alloc_procs_of_ne hpn] at hu
          exact h.distinct p p' hu heq
    killed_le := fun p => by
      by_cases hpn : p = np
      · rw [hpn, alloc_procs_self]
        exact Nat.zero_le _
      · rw [alloc_procs_of_ne hpn]
        exact h.killed_le p
    parent := fun np' p hnp' hpi => by
      by_cases hnn : np' = np
      · rw [hnn, alloc_procs_self] at hnp' ⊢
        obtain ⟨hu, -, hpid⟩ := hparent p hnp'
        rw [alloc_procs_of_ne (hnone hu)]
        exact ⟨hu, hpid⟩
      · rw [alloc_procs_of_ne hnn] at hnp' ⊢
        have hold := h.parent np' p hnp' hpi
        rw [alloc_procs_of_ne (hnone hold.1)]
        exact hold
    orphan := fun np' hnp' => by
      by_cases hnn : np' = np
      · rw [hnn, alloc_procs_self] at hnp' ⊢
        left
        rw [← (hparent initproc hnp').2.2]
        exact h.init.2.2.1
      · rw [alloc_procs_of_ne hnn] at hnp' ⊢
        exact h.orphan np' hnp'
    passed := fun p hz hpub np' hnp' => by
      have hpn : p ≠ np := by
        rintro rfl
        rw [alloc_procs_self] at hz
        exact hp.2 hz
      rw [alloc_procs_of_ne hpn] at hz
      by_cases hnn : np' = np
      · rw [hnn, alloc_procs_self] at hnp'
        exact (hparent p hnp').2.1 hz
      · rw [alloc_procs_of_ne hnn] at hnp'
        refine h.passed p hz (fun t hl hproc hplace => ?_) np' hnp'
        refine hpub t ?_ ?_ ?_
        · rw [Live, alloc_threads_of_ne (hlive hl).1]
          exact hl
        · rw [alloc_threads_of_ne (hlive hl).1]
          exact hproc
        · rw [alloc_threads_of_ne (hlive hl).1]
          exact hplace
    args := fun t => by
      by_cases hne : t = s.nextPid
      · rw [hne, alloc_threads_self]
        trivial
      · rw [alloc_threads_of_ne hne]
        exact h.args t
    tells := fun t code hl hplace => by
      obtain rfl | ⟨hne, hl'⟩ := hmem hl
      · rw [alloc_threads_self] at hplace
        cases hplace
      · rw [alloc_threads_of_ne hne] at hplace
        rw [procOf, alloc_threads_of_ne hne, alloc_procs_of_ne (hlive hl').2]
        exact h.tells t code hl' hplace
    zombieTells := fun p hz => by
      have hpn : p ≠ np := by
        rintro rfl
        rw [alloc_procs_self] at hz
        exact hp.2 hz
      rw [alloc_procs_of_ne hpn] at hz ⊢
      exact h.zombieTells p hz
    logged := fun e he => by
      obtain ⟨hpos, hlt, hne⟩ := h.logged e he
      refine ⟨hpos, Nat.lt_succ_of_lt hlt, fun p => ?_⟩
      by_cases hpn : p = np
      · rw [hpn, alloc_procs_self]
        exact Nat.ne_of_gt hlt
      · rw [alloc_procs_of_ne hpn]
        exact hne p
    once := h.once
    delivered := h.delivered }

theorem Ledger.allocproc (hinv : s.Inv) (hs : s.allocproc c np = some s') : s'.Ledger := by
  obtain ⟨t, hc, hguard, rfl⟩ := guarded hs
  obtain ⟨hplace, hnp, -⟩ := hguard
  have hne : t ≠ s.nextPid := by
    rintro rfl
    exact hinv.live_of_on hc (hinv.fresh _ (Nat.le_refl _)).1
  have h' : (s.alloc np (s.procs np).parent 0 .used .used).Ledger := by
    refine h.alloc hinv hnp ⟨ProcState.noConfusion, ProcState.noConfusion⟩ fun p hp => ?_
    rw [(h.unused np).2 hnp] at hp
    cases hp
  refine h'.goto (hinv.alloc hnp (.inl ⟨rfl, rfl⟩)) hc trivial (fun hends => absurd hends id)
    (fun _ => Place.noConfusion) ?_
  rw [alloc_threads_of_ne hne, hplace]
  exact Place.noConfusion

theorem Ledger.clone (hinv : s.Inv) (hs : s.clone c np = some s') : s'.Ledger := by
  obtain ⟨t, hc, hguard, rfl⟩ := guarded hs
  obtain ⟨hplace, hnp, -⟩ := hguard
  have hrun := hinv.running hc (by rw [hplace]; exact id)
  refine h.alloc hinv hnp ⟨ProcState.noConfusion, ProcState.noConfusion⟩ fun p hp => ?_
  cases hp
  rw [← procOf, hrun]
  exact ⟨ProcState.noConfusion, ProcState.noConfusion, rfl⟩

/-- The child gets its parent. -/
theorem Ledger.setParent (hnp : (s.procs np).state = .used) (hp : (s.procs p).state = .running) :
    (s.setProc np { s.procs np with parent := some p, forker := (s.procs p).pid }).Ledger := by
  obtain ⟨w, hw⟩ : ∃ w : Proc, w = { s.procs np with parent := some p, forker := (s.procs p).pid } :=
    ⟨_, rfl⟩
  rw [← hw]
  have hself := setProc_self s np w
  have hsame (q : Slot) : (s.setProc np w).procs q = { s.procs q with
      parent := ((s.setProc np w).procs q).parent, forker := ((s.setProc np w).procs q).forker } := by
    by_cases hq : q = np
    · rw [hq, hself, hw]
    · rw [setProc_of_ne s w hq]
  have hstate (q : Slot) : ((s.setProc np w).procs q).state = (s.procs q).state := by rw [hsame q]
  have hpid (q : Slot) : ((s.setProc np w).procs q).pid = (s.procs q).pid := by rw [hsame q]
  have htells (q : Slot) (code : Int) : ((s.setProc np w).procs q).Tells code ↔ (s.procs q).Tells code := by
    rw [Proc.Tells, Proc.Tells, hsame q]
  exact {
    init := by
      rw [hstate, hpid]
      exact h.init
    unused := fun q => by
      rw [hstate, hpid]
      refine ⟨(h.unused q).1, fun hu => ?_⟩
      have hne : q ≠ np := by
        rintro rfl
        rw [hnp] at hu
        cases hu
      rw [setProc_of_ne s w hne]
      exact (h.unused q).2 hu
    distinct := fun q q' hu heq => by
      rw [hstate] at hu
      rw [hpid, hpid] at heq
      exact h.distinct q q' hu heq
    killed_le := fun q => by
      rw [hsame q]
      exact h.killed_le q
    parent := fun np' q hnp' hq => by
      rw [hstate, hpid]
      by_cases hnn : np' = np
      · rw [hnn, hself, hw] at hnp' ⊢
        cases hnp'
        exact ⟨by rw [hp]; exact ProcState.noConfusion, rfl⟩
      · rw [setProc_of_ne s w hnn] at hnp' ⊢
        exact h.parent np' q hnp' hq
    orphan := fun np' hnp' => by
      by_cases hnn : np' = np
      · rw [hnn, hself, hw] at hnp' ⊢
        cases hnp'
        exact .inl h.init.2.2.1
      · rw [setProc_of_ne s w hnn] at hnp' ⊢
        exact h.orphan np' hnp'
    passed := fun q hz hpub np' hnp' => by
      rw [hstate] at hz
      by_cases hnn : np' = np
      · rw [hnn, hself, hw] at hnp'
        cases hnp'
        rw [hp] at hz
        cases hz
      · rw [setProc_of_ne s w hnn] at hnp'
        exact h.passed q hz hpub np' hnp'
    args := h.args
    tells := fun t code hl hplace => by
      rw [procOf, htells]
      exact h.tells t code hl hplace
    zombieTells := fun q hz => by
      rw [hstate] at hz
      rw [htells]
      rw [hsame q]
      exact h.zombieTells q hz
    logged := fun e he => by
      obtain ⟨hpos, hlt, hne⟩ := h.logged e he
      refine ⟨hpos, hlt, fun q => ?_⟩
      rw [hpid]
      exact hne q
    once := h.once
    delivered := h.delivered }

theorem Ledger.link (hinv : s.Inv) (hs : s.link c = some s') : s'.Ledger := by
  obtain ⟨t, hc, hs⟩ := Option.bind_eq_some_iff.mp hs
  split at hs
  · rename_i np hplace
    cases hs
    have hrun := hinv.running hc (by rw [hplace]; exact id)
    have hused := (hinv.forking t np false (hinv.live_of_on hc) hplace).1
    have h' := h.setParent hused (p := (s.threads t).proc) hrun
    refine h'.goto (hinv.setProc np rfl (.inl rfl)) hc trivial (fun hends => absurd hends id)
      (fun _ => Place.noConfusion) ?_
    rw [show (s.setProc np _).threads t = s.threads t from rfl, hplace]
    exact Place.noConfusion
  · cases hs

/-- The child of a `fork` that is over becomes runnable. -/
theorem Ledger.startChild (hinv : s.Inv) (hused : (s.procs np).state = .used) :
    ((s.setProc np { s.procs np with state := .runnable }).setThread (s.procs np).pid
      { s.threads (s.procs np).pid with state := .runnable }).Ledger := by
  obtain ⟨s', hs'⟩ : ∃ s', s' = (s.setProc np { s.procs np with state := .runnable }).setThread
    (s.procs np).pid { s.threads (s.procs np).pid with state := .runnable } := ⟨_, rfl⟩
  rw [← hs']
  have hself : s'.procs np = { s.procs np with state := .runnable } := by
    rw [hs']
    exact update_self _ _ _
  have hother {q : Slot} (hq : q ≠ np) : s'.procs q = s.procs q := by
    rw [hs']
    exact update_of_ne hq _ _
  -- The main thread of the child was there before, in user mode.
  obtain ⟨-, -, hmain, -⟩ := hinv.used np hused
  have hthread (t : Tid) : ∃ st, s'.threads t = { s.threads t with state := st } ∧
      (st = .unused ↔ (s.threads t).state = .unused) := by
    rw [hs']
    by_cases hne : t = (s.procs np).pid
    · refine ⟨.runnable, ?_, ?_⟩
      · rw [hne]
        exact update_self _ _ _
      · rw [hne, hmain]
        decide
    · exact ⟨(s.threads t).state, update_of_ne hne _ _, Iff.rfl⟩
  have hlive (t : Tid) : s'.Live t ↔ s.Live t := by
    obtain ⟨st, heq, hst⟩ := hthread t
    rw [Live, heq, Live]
    exact not_congr hst
  have hlog : SameLog s s' := by
    rw [hs']
    exact ⟨rfl, rfl⟩
  have hnext : s.nextPid ≤ s'.nextPid := by
    rw [hs']
    exact Nat.le_refl _
  refine h.congr (fun t hinit hends => ?_) (fun q => ?_) (fun q => ?_) (fun q => ?_) (fun t => ?_)
    (fun t code hl hpl => ?_) (fun t hl hpl => ?_) hnext hlog
  · obtain ⟨st, heq, -⟩ := hthread t
    rw [heq] at hinit hends
    exact h.init.2.2.2 t hinit hends
  · by_cases hq : q = np
    · rw [hq, hself]
    · rw [hother hq]
  · by_cases hq : q = np
    · rw [hq, hself, hused]
      exact ⟨fun hu => (by cases hu), fun hu => (by cases hu)⟩
    · rw [hother hq]
  · by_cases hq : q = np
    · rw [hq, hself, hused]
      exact ⟨fun hz => (by cases hz), fun hz => (by cases hz)⟩
    · rw [hother hq]
  · obtain ⟨st, heq, -⟩ := hthread t
    rw [heq]
    exact h.args t
  · obtain ⟨st, heq, -⟩ := hthread t
    rw [heq] at hpl ⊢
    exact ⟨(hlive t).mp hl, hpl, rfl⟩
  · obtain ⟨st, heq, -⟩ := hthread t
    rw [heq]
    exact ⟨(hlive t).mpr hl, hpl, rfl⟩

theorem Ledger.start (hinv : s.Inv) (hs : s.start c = some s') : s'.Ledger := by
  obtain ⟨t, hc, hs⟩ := Option.bind_eq_some_iff.mp hs
  split at hs
  · rename_i np hplace
    cases hs
    have hused := (hinv.forking t np true (hinv.live_of_on hc) hplace).1
    have h' : (s.goto t .user).Ledger := h.goto hinv hc trivial (fun hends => absurd hends id)
      (fun _ => Place.noConfusion) (by rw [hplace]; exact Place.noConfusion)
    have hinv' : (s.goto t .user).Inv :=
      hinv.goto_plain hc (by rw [hplace]; exact id) id Place.noConfusion fun _ _ => Place.noConfusion
    exact h'.startChild hinv' hused
  · cases hs

theorem Ledger.cloneThread (hinv : s.Inv) (hs : s.cloneThread c = some s') : s'.Ledger := by
  obtain ⟨t, hc, hs⟩ := Option.bind_eq_some_iff.mp hs
  split at hs
  · have hprocs : s'.procs = s.procs := by cases hs; rfl
    have hnew : s'.threads s.nextPid = ⟨(s.threads t).proc, .runnable, .user, (s.threads t).pid⟩ := by
      cases hs
      exact update_self _ _ _
    have hold {t' : Tid} (hne : t' ≠ s.nextPid) : s'.threads t' = s.threads t' := by
      cases hs
      exact update_of_ne hne _ _
    have hlog : SameLog s s' := by
      cases hs
      exact ⟨rfl, rfl⟩
    have hnext : s.nextPid ≤ s'.nextPid := by
      cases hs
      exact Nat.le_succ _
    refine h.congr (fun t' hinit hends => ?_) (fun p => by rw [hprocs]) (fun p => by rw [hprocs])
      (fun p => by rw [hprocs]) (fun t' => ?_) (fun t' code hl hplace => ?_) (fun t' hl hplace => ?_)
      hnext hlog
    · by_cases hne : t' = s.nextPid
      · rw [hne, hnew] at hends
        exact hends
      · rw [hold hne] at hinit hends
        exact h.init.2.2.2 t' hinit hends
    · by_cases hne : t' = s.nextPid
      · rw [hne, hnew]
        trivial
      · rw [hold hne]
        exact h.args t'
    · have hne : t' ≠ s.nextPid := by
        rintro rfl
        rw [hnew] at hplace
        cases hplace
      rw [Live, hold hne] at hl
      rw [hold hne] at hplace ⊢
      exact ⟨hl, hplace, rfl⟩
    · have hne : t' ≠ s.nextPid := by
        rintro rfl
        exact hl (hinv.fresh _ (Nat.le_refl _)).1
      rw [Live, hold hne]
      exact ⟨hl, hplace, rfl⟩
  · cases hs

/-! ## Waiting -/

/-- A slot that has given its children away can be freed. -/
theorem Ledger.freeproc (hz : (s.procs np).state = .zombie)
    (hnone : ∀ np', (s.procs np').parent ≠ some np) : (s.freeproc np).Ledger := by
  have hinit : np ≠ initproc := by
    rintro rfl
    exact h.init.2.1 hz
  have hproc (t : Tid) : ((s.freeproc np).threads t).proc = (s.threads t).proc := by
    simp only [Sys.freeproc]
    split <;> rfl
  have hpos {p : Slot} (hp : (s.procs p).state ≠ .unused) : (s.procs p).pid ≠ 0 :=
    fun hzero => hp ((h.unused p).1.mpr hzero)
  have hold {p : Slot} {st : ProcState} (hst : st ≠ .unused) (hp : ((s.freeproc np).procs p).state = st) :
      p ≠ np := by
    rintro rfl
    rw [freeproc_procs_self] at hp
    exact hst hp.symm
  exact {
    init := by
      rw [freeproc_procs_of_ne hinit.symm]
      refine ⟨h.init.1, h.init.2.1, h.init.2.2.1, fun t hp hends => ?_⟩
      rw [hproc] at hp
      rw [freeproc_place] at hends
      exact h.init.2.2.2 t hp hends
    unused := fun p => by
      by_cases hp : p = np
      · rw [hp, freeproc_procs_self]
        exact ⟨⟨fun _ => rfl, fun _ => rfl⟩, fun _ => rfl⟩
      · rw [freeproc_procs_of_ne hp]
        exact h.unused p
    distinct := fun p p' hu heq => by
      have hp : p ≠ np := by
        rintro rfl
        rw [freeproc_procs_self] at hu
        exact hu rfl
      rw [freeproc_procs_of_ne hp] at hu heq
      by_cases hp' : p' = np
      · rw [hp', freeproc_procs_self] at heq
        exact absurd heq (hpos hu)
      · rw [freeproc_procs_of_ne hp'] at heq
        exact h.distinct p p' hu heq
    killed_le := fun p => by
      by_cases hp : p = np
      · rw [hp, freeproc_procs_self]
        exact Nat.zero_le _
      · rw [freeproc_procs_of_ne hp]
        exact h.killed_le p
    parent := fun np' p hnp' hp => by
      have hne : np' ≠ np := by
        rintro rfl
        rw [freeproc_procs_self] at hnp'
        cases hnp'
      rw [freeproc_procs_of_ne hne] at hnp' ⊢
      have hne' : p ≠ np := by
        rintro rfl
        exact hnone np' hnp'
      rw [freeproc_procs_of_ne hne']
      exact h.parent np' p hnp' hp
    orphan := fun np' hnp' => by
      have hne : np' ≠ np := by
        rintro rfl
        rw [freeproc_procs_self] at hnp'
        cases hnp'
      rw [freeproc_procs_of_ne hne] at hnp' ⊢
      exact h.orphan np' hnp'
    passed := fun p hp hpub np' hnp' => by
      have hne := hold ProcState.noConfusion hp
      rw [freeproc_procs_of_ne hne] at hp
      have hne' : np' ≠ np := by
        rintro rfl
        rw [freeproc_procs_self] at hnp'
        cases hnp'
      rw [freeproc_procs_of_ne hne'] at hnp'
      refine h.passed p hp (fun t hl hpt hplace => ?_) np' hnp'
      refine hpub t ((freeproc_live s np t).mpr ⟨hl, ?_⟩) ?_ ?_
      · rw [hpt]
        exact hne
      · rw [hproc]
        exact hpt
      · rw [freeproc_place]
        exact hplace
    args := fun t => by
      rw [freeproc_place]
      exact h.args t
    tells := fun t code hl hplace => by
      obtain ⟨hl', hne⟩ := (freeproc_live s np t).mp hl
      rw [freeproc_place] at hplace
      rw [procOf, hproc, freeproc_procs_of_ne hne]
      exact h.tells t code hl' hplace
    zombieTells := fun p hp => by
      have hne := hold ProcState.noConfusion hp
      rw [freeproc_procs_of_ne hne] at hp ⊢
      exact h.zombieTells p hp
    logged := fun e he => by
      obtain ⟨hpos', hlt, hne⟩ := h.logged e he
      refine ⟨hpos', hlt, fun p => ?_⟩
      by_cases hp : p = np
      · rw [hp, freeproc_procs_self]
        exact Nat.ne_of_lt hpos'
      · rw [freeproc_procs_of_ne hp]
        exact hne p
    once := h.once
    delivered := h.delivered }

/-- A successful `waitpid` for a process that is no more there. -/
theorem Ledger.record {e : Reaped} (hchild : 0 < e.child ∧ e.child < s.nextPid)
    (hgone : ∀ p, (s.procs p).pid ≠ e.child) (hnew : e.child ∉ s.log.map Reaped.child)
    (he : e.Delivered s.exited) : { s with log := e :: s.log }.Ledger :=
  { h with
    logged := fun e' he' => by
      obtain rfl | he' := List.mem_cons.mp he'
      · exact ⟨hchild.1, hchild.2, hgone⟩
      · exact h.logged e' he'
    once := List.nodup_cons.mpr ⟨hnew, h.once⟩
    delivered := fun e' he' => by
      obtain rfl | he' := List.mem_cons.mp he'
      · exact he
      · exact h.delivered e' he' }

/-- A zombie that is freed leaves its status with its parent. -/
theorem Ledger.waitpid (hinv : s.Inv) (hquiet : s.Quiet np) (hs : s.waitpid c np pid = some s') : s'.Ledger := by
  obtain ⟨t, hc, hfinds, rfl⟩ := guarded hs
  obtain ⟨-, -, hparent, hwanted, hz⟩ := hfinds
  have hused : (s.procs np).state ≠ .unused := by
    rw [hz]
    exact ProcState.noConfusion
  have hpos : 0 < (s.procs np).pid := Nat.pos_of_ne_zero fun hzero => hused ((h.unused np).1.mpr hzero)
  have hfree : (s.freeproc np).Ledger := by
    refine h.freeproc hz (h.passed np hz fun t' hl hproc hplace => hquiet t' hl hproc ?_)
    rw [hplace]
    trivial
  refine hfree.record ⟨hpos, hinv.pid_lt np⟩ (fun p => ?_) (fun hmem => ?_) ⟨hwanted.imp id Eq.symm, ?_,
    h.zombieTells np hz⟩
  · by_cases hp : p = np
    · rw [hp, freeproc_procs_self]
      exact Nat.ne_of_lt hpos
    · rw [freeproc_procs_of_ne hp]
      exact fun heq => hp (h.distinct np p hused heq.symm).symm
  · obtain ⟨e, he, heq⟩ := List.mem_map.mp hmem
    exact (h.logged e he).2.2 np heq.symm
  · -- The caller is the parent: the process that forked, or `init`.
    by_cases hp : (s.threads t).proc = initproc
    · rw [hp] at hparent
      have hone : (s.procOf t).pid = 1 := by
        rw [procOf, hp]
        exact h.init.2.2.1
      obtain hforker | hexited := h.orphan np hparent
      · exact .inl (hone.trans hforker.symm)
      · exact .inr ⟨hone, hexited⟩
    · exact .inl (h.parent np _ hparent hp).2

end Calls

/-! ## Signals -/

theorem killUpdate_le (hk : killed ≤ SIGRTMAX) (hsig : sig ≤ SIGRTMAX) (dfl : Bool) :
    killUpdate killed sig dfl ≤ SIGRTMAX := by
  unfold killUpdate
  split
  · exact Nat.zero_le _
  · split
    · exact hsig
    · exact hk

theorem tgkillUpdate_le (hk : killed ≤ SIGRTMAX) (hsig : sig ≤ SIGRTMAX) (dfl : Bool) :
    tgkillUpdate killed sig dfl ≤ SIGRTMAX := by
  unfold tgkillUpdate
  split
  · exact Nat.zero_le _
  · split
    · exact hsig
    · exact hk

/-- A signal that is noted before the exit begins, or changes nothing. -/
theorem Ledger.setKilled' (h : s.Ledger) {w : Proc} (hw : w = { s.procs p with killed := w.killed, state := w.state })
    (hstate : w.state = (s.procs p).state ∨ (s.procs p).state = .sleeping ∧ w.state = .runnable)
    (hle : w.killed ≤ SIGRTMAX) (hfair : s.Exiting p → w.killed = (s.procs p).killed) :
    (s.setProc p w).Ledger := by
  have hself := setProc_self s p w
  have hunused : w.state = .unused ↔ (s.procs p).state = .unused := by
    obtain heq | ⟨hsleep, hrun⟩ := hstate
    · rw [heq]
    · rw [hsleep, hrun]
      decide
  have hzombie : w.state = .zombie ↔ (s.procs p).state = .zombie := by
    obtain heq | ⟨hsleep, hrun⟩ := hstate
    · rw [heq]
    · rw [hsleep, hrun]
      decide
  have htells (hex : s.Exiting p) (code : Int) : w.Tells code ↔ (s.procs p).Tells code := by
    rw [Proc.Tells, Proc.Tells, hfair hex, hw]
  refine h.transport h.init.2.2.2 ?_ (fun q => ?_) (fun q => ?_) (fun q => ?_) (fun q hz hpub => ⟨?_, hpub⟩)
    h.args (fun t code hl hplace => ?_) (fun q hz => ?_) (Nat.le_refl _) ⟨rfl, rfl⟩
  · by_cases hq : initproc = p
    · rw [hq, hself, Ne, hzombie, ← hq]
      exact h.init.2.1
    · rw [setProc_of_ne s w hq]
      exact h.init.2.1
  · by_cases hq : q = p
    · rw [hq, hself, hw]
      exact ⟨rfl, rfl, rfl⟩
    · rw [setProc_of_ne s w hq]
      exact ⟨rfl, rfl, rfl⟩
  · by_cases hq : q = p
    · rw [hq, hself]
      exact hunused
    · rw [setProc_of_ne s w hq]
  · by_cases hq : q = p
    · rw [hq, hself]
      exact hle
    · rw [setProc_of_ne s w hq]
      exact h.killed_le q
  · by_cases hq : q = p
    · rw [hq, hself] at hz
      rw [hq]
      exact hzombie.mp hz
    · rw [setProc_of_ne s w hq] at hz
      exact hz
  · have htold := h.tells t code hl hplace
    by_cases hq : (s.threads t).proc = p
    · have hex : s.Exiting p := .inr ⟨t, hl, hq, by rw [show (s.threads t).place = _ from hplace]; trivial⟩
      rw [procOf, show (s.setProc p w).threads t = s.threads t from rfl, hq, hself, htells hex]
      rw [procOf, hq] at htold
      exact htold
    · rw [procOf, show (s.setProc p w).threads t = s.threads t from rfl, setProc_of_ne s w hq]
      exact htold
  · by_cases hq : q = p
    · rw [hq, hself] at hz ⊢
      have hz' := hzombie.mp hz
      rw [htells (.inl hz'), hw]
      exact h.zombieTells p hz'
    · rw [setProc_of_ne s w hq] at hz ⊢
      exact h.zombieTells q hz

theorem Ledger.signal (h : s.Ledger) (hle : killed ≤ SIGRTMAX)
    (hfair : s.Exiting p → killed = (s.procs p).killed) : (s.signal p killed).Ledger := by
  refine h.setKilled' rfl ?_ hle hfair
  by_cases hsleep : (s.procs p).state = .sleeping
  · exact .inr ⟨hsleep, if_pos hsleep⟩
  · exact .inl (if_neg hsleep)

theorem Ledger.kill (h : s.Ledger) (hfair : s.Exiting p → killUpdate (s.procs p).killed sig dfl = (s.procs p).killed)
    (hs : s.kill p sig dfl = some s') : s'.Ledger := by
  rw [Sys.kill] at hs
  split at hs
  · rename_i hguard
    cases hs
    exact h.signal (killUpdate_le (h.killed_le p) (Nat.le_of_lt hguard.2) dfl) hfair
  · cases hs

theorem Ledger.tgkill (h : s.Ledger)
    (hfair : s.Exiting p → tgkillUpdate (s.procs p).killed sig dfl = (s.procs p).killed)
    (hs : s.tgkill p sig dfl = some s') : s'.Ledger := by
  rw [Sys.tgkill] at hs
  split at hs
  · rename_i hguard
    cases hs
    exact h.signal (tgkillUpdate_le (h.killed_le p) hguard.2 dfl) hfair
  · cases hs

theorem Ledger.setKilled (h : s.Ledger)
    (hfair : ∀ t, s.cpu c = some t → s.Exiting (s.threads t).proc → sig = (s.procOf t).killed)
    (hs : s.setKilled c sig = some s') : s'.Ledger := by
  obtain ⟨t, hc, hguard, rfl⟩ := guarded hs
  exact h.setKilled' rfl (.inl rfl) hguard.2 (hfair t hc)

theorem Ledger.waitFault (h : s.Ledger) (hs : s.waitFault c np pid = some s') : s'.Ledger := by
  obtain ⟨t, hc, -, rfl⟩ := guarded hs
  exact h

theorem Ledger.step (h : s.Ledger) (hinv : s.Inv) (hfair : s.Fair a) (hs : s.step a = some s') : s'.Ledger := by
  cases a with
  | schedule c t => exact h.schedule hs
  | yield c => exact h.yield hinv hs
  | sleep c => exact h.sleep hinv hs
  | block c => exact h.block hinv hs
  | wakeup p => exact h.wakeup hs
  | wakeThread t => exact h.wakeThread hs
  | allocproc c np => exact h.allocproc hinv hs
  | link c => exact h.link hinv hs
  | start c => exact h.start hinv hs
  | clone c np => exact h.clone hinv hs
  | cloneThread c => exact h.cloneThread hinv hs
  | callExit c arg => exact h.callExit hinv rfl hs
  | callExitGroup c status =>
    have hzero : status % 256 = 0 % 256 := hfair
    exact h.callExit hinv hzero hs
  | callThreadExit c code => exact h.callThreadExit hinv hs
  | checkThreads c => exact h.checkThreads hinv hs
  | retire c => exact h.retire hinv hs
  | switchThread c => exact h.switchThread hinv hs
  | publish c => exact h.publish hinv hs
  | announce c => exact h.announce hinv hs
  | finish c => exact h.finish hinv hs
  | waitpid c np pid => exact h.waitpid hinv hfair hs
  | waitFault c np pid => exact h.waitFault hs
  | kill p sig dfl => exact h.kill hfair hs
  | tgkill p sig dfl => exact h.tgkill hfair hs
  | setKilled c sig => exact h.setKilled hfair hs

/-! ## The result -/

/-- Every child is returned once at most, to the right process, with the right status; and a call that
fails because the status cannot be stored can be repeated. -/
structure Delivers (s : Sys n) : Prop where
  once : (s.log.map Reaped.child).Nodup
  delivered : ∀ e ∈ s.log, e.Delivered s.exited
  retry : ∀ c np pid s', s.waitFault c np pid = some s' → ∃ s'', s'.waitpid c np pid = some s''

/-- A step that does not lose a status. -/
def FairStep (s s' : Sys n) : Prop := ∃ a, s.Fair a ∧ s.step a = some s'

theorem waitFault_retry (hs : s.waitFault c np pid = some s') : ∃ s'', s'.waitpid c np pid = some s'' := by
  obtain ⟨t, hc, hfinds, rfl⟩ := guarded hs
  exact ⟨_, Option.bind_eq_some_iff.mpr ⟨t, hc, if_pos hfinds⟩⟩

/-- On any number of CPUs, in every run of such steps. -/
theorem waitpid_delivers {n : Nat} {s : Sys n} (hrun : Reaches FairStep (boot n) s) : s.Delivers := by
  have hboth : s.Inv ∧ s.Ledger := by
    refine hrun.invariant (I := fun s => s.Inv ∧ s.Ledger) ⟨Inv.boot n, Ledger.boot n⟩ ?_
    rintro s₁ s₂ ⟨hinv, hledger⟩ ⟨a, hfair, ha⟩
    exact ⟨hinv.step hfair.calm ha, hledger.step hinv hfair ha⟩
  exact ⟨hboth.2.once, hboth.2.delivered, fun _ _ _ _ hs => waitFault_retry hs⟩

/-- Steps that are fair in every state of a machine with one CPU. -/
def Action.plain : Action n → Bool
  | .callExitGroup _ _ | .kill _ _ _ | .tgkill _ _ _ | .setKilled _ _ => false
  | _ => true

theorem fair_of_plain (hinv : s.Inv) (hn : n ≤ 1) (ha : Action.plain a = true)
    (hs : s.step a = some s') : s.Fair a := by
  have hcalm := hinv.calm_of_le_one hn hs
  cases a <;> first | exact hcalm | trivial

theorem reaches_of_plain {as : List (Action n)} (hinv : s.Inv) (hn : n ≤ 1)
    (has : ∀ a ∈ as, Action.plain a = true) (hrun : s.run as = some s') : Reaches FairStep s s' := by
  induction as generalizing s with
  | nil =>
    cases hrun
    exact .refl
  | cons a as ih =>
    obtain ⟨s₁, hstep, hrest⟩ := Option.bind_eq_some_iff.mp hrun
    have hfair := fair_of_plain hinv hn (has a List.mem_cons_self) hstep
    refine .head ⟨a, hfair, hstep⟩ (ih (hinv.step hfair.calm hstep) (fun b hb => ?_) hrest)
    exact has b (List.mem_cons_of_mem _ hb)

/-- `init` forks and waits; the child ends by the given call. -/
def oneChild (call : Action 1) : List (Action 1) :=
  [.schedule 0 1, .allocproc 0 ⟨1, one_lt_NPROC⟩, .link 0, .start 0, .sleep 0, .schedule 0 2, call,
    .checkThreads 0, .publish 0, .announce 0, .finish 0, .wakeup initproc, .schedule 0 1,
    .waitpid 0 ⟨1, one_lt_NPROC⟩ (-1)]

theorem waitpid_delivers_exit : ∃ s : Sys 1, Reaches FairStep (boot 1) s ∧
    s.log.map Reaped.status = [7 * 256] ∧ s.Delivers := by
  have hlook : ((boot 1).run (oneChild (.callExit 0 7))).map (fun s => s.log.map Reaped.status) =
      some [7 * 256] := rfl
  obtain ⟨s, hrun, hstatus⟩ := Option.map_eq_some_iff.mp hlook
  have hreach := reaches_of_plain (Inv.boot 1) (Nat.le_refl 1) (by decide) hrun
  exact ⟨s, hreach, hstatus, waitpid_delivers hreach⟩

/-- `exit_group(5)` arrives as 0. -/
theorem not_delivers_exitGroup : ¬ ∀ s : Sys 1, Reaches Step (boot 1) s → s.Delivers := by
  intro hall
  have hlook : ((boot 1).run (oneChild (.callExitGroup 0 5))).map
      (fun s => s.log.map fun e => (e.status, e.cause)) = some [(0, some (.exited 5))] := rfl
  obtain ⟨s, hrun, hsee⟩ := Option.map_eq_some_iff.mp hlook
  obtain ⟨e, he, hentry⟩ : ∃ e ∈ s.log, (e.status, e.cause) = (0, some (.exited 5)) :=
    List.mem_map.mp (by rw [hsee]; exact List.mem_singleton_self _)
  obtain ⟨cause, hcause, hdecodes⟩ := ((hall s (reaches_of_run hrun)).delivered e he).status
  have hstatus : e.status = 0 := congrArg Prod.fst hentry
  have hexited : some cause = some (.exited 5) := hcause.symm.trans (congrArg Prod.snd hentry)
  rw [hstatus, Option.some.inj hexited] at hdecodes
  exact absurd hdecodes.2.2 (by decide)

end Sys

end SC7.Process
