-- SUMMARY: The invariant of the process table and what a change of one thread, or of processes only, has to meet to keep it.
import SC7.Kernel.Process

/-!
# The invariant of the process table

It ties the state of a process to the states and the places of its threads. Most sections change one
thread and its process; `Inv.of_moves` says once when such a change keeps the invariant.
-/

namespace SC7.Process

open Function (update update_eq_self update_of_ne update_self)

namespace Place

/-- In `exit`, between the section that makes the process a zombie and the last one. -/
def Gap : Place → Prop
  | .published | .announced => True
  | _ => False

/-- In `exit` of the process, up to the last section. -/
def Committed : Place → Prop
  | .exiting _ | .published | .announced => True
  | _ => False

theorem Gap.committed {place : Place} (h : place.Gap) : place.Committed := by
  cases place <;> trivial

end Place

/-- What the states of a process and of its thread are while the thread is on a CPU. -/
structure On (pstate : ProcState) (tstate : ThreadState) (place : Place) : Prop where
  live : tstate = .running ∨ tstate = .zombie
  stays : place ≠ .gone
  runs : pstate = .running ∧ ¬ place.Gap ∨ pstate = .zombie ∧ tstate = .zombie ∧ place.Gap

/-- What they are while it is not. -/
structure Off (pstate : ProcState) (tstate : ThreadState) (place : Place) : Prop where
  rests : tstate ≠ .running
  gap : ¬ place.Gap
  gone : tstate = .zombie ↔ place = .gone
  zombie : pstate = .zombie → ¬ place.Committed

namespace Sys

variable {n : Nat} {s s' : Sys n} {c : Fin n} {t : Tid}

/-- The thread has not been freed. -/
def Live (s : Sys n) (t : Tid) : Prop := (s.threads t).state ≠ .unused

/-- `t'` is another thread of the process of `t`. -/
def Sibling (s : Sys n) (t t' : Tid) : Prop := t' ≠ t ∧ s.Live t' ∧ (s.threads t').proc = (s.threads t).proc

/-- No exit of a process works on a slot that is free, or that has become that of another process. -/
def Held (s : Sys n) : Prop :=
  ∀ t, (s.threads t).place.Committed → (s.procOf t).state ≠ .unused ∧ (s.procOf t).pid = (s.threads t).pid

/-- What the sections of the code keep. -/
structure Inv (s : Sys n) : Prop where
  fresh : ∀ t, s.nextPid ≤ t → (s.threads t).state = .unused ∧ (s.threads t).place = .gone
  pid_lt : ∀ p, (s.procs p).pid < s.nextPid
  owner : ∀ t, s.Live t → (s.procOf t).state ≠ .unused ∧ (s.procOf t).pid = (s.threads t).pid
  dead : ∀ t, (s.threads t).place.Committed → s.Live t
  /-- A process is on one CPU at most. -/
  one : ∀ c c' t t', s.cpu c = some t → s.cpu c' = some t' → (s.threads t').proc = (s.threads t).proc → c' = c
  on : ∀ c t, s.cpu c = some t → On (s.procOf t).state (s.threads t).state (s.threads t).place
  off : ∀ t, s.Live t → (∀ c, s.cpu c ≠ some t) →
    Off (s.procOf t).state (s.threads t).state (s.threads t).place
  /-- Only the main thread ends a process that has other threads, and these stay out of `exit`. -/
  pair : ∀ t t', (s.threads t).place.Committed → s.Sibling t t' →
    (s.threads t').place = .gone ∨ t = (s.threads t).pid ∧ ¬ (s.threads t').place.Committed
  forking : ∀ t np b, s.Live t → (s.threads t).place = .forking np b → (s.procs np).state = .used ∧
    ∀ t' b', s.Live t' → (s.threads t').place = .forking np b' → t' = t
  used : ∀ p, (s.procs p).state = .used → (s.threads (s.procs p).pid).proc = p ∧
    (s.threads (s.procs p).pid).place = .user ∧ (s.threads (s.procs p).pid).state = .used ∧
    ∀ t, s.Live t → (s.threads t).proc = p → t = (s.procs p).pid

theorem Inv.held (h : s.Inv) : s.Held := fun t ht => h.owner t (h.dead t ht)

theorem Inv.live_of_on (h : s.Inv) (hc : s.cpu c = some t) : s.Live t := by
  intro hunused
  obtain hst | hst := (h.on c t hc).live <;> rw [hunused] at hst <;> cases hst

/-- The other threads of a process that is on a CPU are not. -/
theorem Inv.off_of_sibling (h : s.Inv) (hc : s.cpu c = some t) {t' : Tid} (ht' : s.Sibling t t')
    (c' : Fin n) : s.cpu c' ≠ some t' := by
  intro hc'
  have hsame := h.one c c' t t' hc hc' ht'.2.2
  rw [hsame, hc] at hc'
  exact ht'.1 (Option.some.inj hc').symm

/-! ## Changes of one thread and its process -/

/-- `s'` differs from `s` in thread `t`, in the process of `t` and in whether `t` is on a CPU. -/
structure Moves (s s' : Sys n) (t : Tid) : Prop where
  threads : ∀ t', t' ≠ t → s'.threads t' = s.threads t'
  procs : ∀ p, p ≠ (s.threads t).proc → s'.procs p = s.procs p
  cpu : ∀ c t', t' ≠ t → (s'.cpu c = some t' ↔ s.cpu c = some t')
  nextPid : s'.nextPid = s.nextPid
  proc : (s'.threads t).proc = (s.threads t).proc
  tpid : (s'.threads t).pid = (s.threads t).pid
  ppid : (s'.procOf t).pid = (s.procOf t).pid

theorem Moves.sibling (hm : Moves s s' t) {t' : Tid} : s'.Sibling t t' ↔ s.Sibling t t' := by
  unfold Sibling Live
  rw [hm.proc]
  constructor <;> rintro ⟨hne, hrest⟩
  · rw [hm.threads t' hne] at hrest
    exact ⟨hne, hrest⟩
  · rw [← hm.threads t' hne] at hrest
    exact ⟨hne, hrest⟩

/-- The process of another thread is the same, or it is that of `t`. -/
theorem Moves.procOf (hm : Moves s s' t) {t' : Tid} (hne : t' ≠ t)
    (hproc : (s.threads t').proc ≠ (s.threads t).proc) : s'.procOf t' = s.procOf t' := by
  rw [Sys.procOf, Sys.procOf, hm.threads t' hne, hm.procs _ hproc]

theorem Moves.procOf_sibling (hm : Moves s s' t) {t' : Tid} (hne : t' ≠ t)
    (hproc : (s.threads t').proc = (s.threads t).proc) : s'.procOf t' = s'.procOf t := by
  rw [Sys.procOf, Sys.procOf, hm.threads t' hne, hm.proc, hproc]

theorem Moves.live (hm : Moves s s' t) {t' : Tid} (hne : t' ≠ t) : s'.Live t' ↔ s.Live t' := by
  rw [Live, Live, hm.threads t' hne]

/-- The new state of the thread and its process goes with the other threads. -/
structure Fits (s s' : Sys n) (t : Tid) : Prop where
  live : s.Live t
  live' : s'.Live t
  proc : (s'.procOf t).state ≠ .unused
  used : (s'.procOf t).state ≠ .used
  notForked : ∀ t' b, s.Live t' → (s.threads t').place ≠ .forking (s.threads t).proc b
  self : ∀ c c', s'.cpu c = some t → s'.cpu c' = some t → c' = c
  others : ∀ t', s.Sibling t t' → (∀ c, s.cpu c ≠ some t') ∨ (s'.procOf t).state = (s.procOf t).state
  alone : (∃ c, s'.cpu c = some t) → ∀ t', s.Sibling t t' → ∀ c, s.cpu c ≠ some t'
  on : ∀ c, s'.cpu c = some t → On (s'.procOf t).state (s'.threads t).state (s'.threads t).place
  off : (∀ c, s'.cpu c ≠ some t) → Off (s'.procOf t).state (s'.threads t).state (s'.threads t).place
  zombie : (s'.procOf t).state = .zombie → ∀ t', s.Sibling t t' → (∀ c, s.cpu c ≠ some t') →
    ¬ (s.threads t').place.Committed
  pair : (s'.threads t).place.Committed → ∀ t', s.Sibling t t' →
    (s.threads t').place = .gone ∨ t = (s.threads t).pid ∧ ¬ (s.threads t').place.Committed
  pair' : ∀ t', s.Sibling t t' → (s.threads t').place.Committed →
    (s'.threads t).place = .gone ∨ t' = (s.threads t').pid ∧ ¬ (s'.threads t).place.Committed
  forking : ∀ np b, (s'.threads t).place = .forking np b → np ≠ (s.threads t).proc ∧
    (s.procs np).state = .used ∧ ∀ t' b', t' ≠ t → s.Live t' → (s.threads t').place ≠ .forking np b'

theorem Inv.of_moves (h : s.Inv) (hm : Moves s s' t) (hf : Fits s s' t) : s'.Inv where
  fresh t' hle := by
    rw [hm.nextPid] at hle
    have hne : t' ≠ t := fun heq => hf.live (heq ▸ (h.fresh t' hle).1)
    rw [hm.threads t' hne]
    exact h.fresh t' hle
  pid_lt p := by
    rw [hm.nextPid]
    by_cases hp : p = (s.threads t).proc
    · have hpid := hm.ppid
      rw [Sys.procOf, Sys.procOf, hm.proc, ← hp] at hpid
      rw [hpid]
      exact h.pid_lt p
    · rw [hm.procs p hp]
      exact h.pid_lt p
  owner t' ht' := by
    by_cases hne : t' = t
    · rw [hne, hm.ppid, hm.tpid]
      exact ⟨hf.proc, (h.owner t hf.live).2⟩
    · rw [hm.live hne] at ht'
      rw [hm.threads t' hne]
      by_cases hp : (s.threads t').proc = (s.threads t).proc
      · rw [hm.procOf_sibling hne hp, hm.ppid]
        refine ⟨hf.proc, ?_⟩
        rw [← (h.owner t' ht').2, Sys.procOf, Sys.procOf, hp]
      · rw [hm.procOf hne hp]
        exact h.owner t' ht'
  dead t' ht' := by
    by_cases hne : t' = t
    · rw [hne]
      exact hf.live'
    · rw [hm.threads t' hne] at ht'
      rw [hm.live hne]
      exact h.dead t' ht'
  one c c' t₁ t₂ h₁ h₂ hp := by
    by_cases hne₁ : t₁ = t
    · by_cases hne₂ : t₂ = t
      · rw [hne₁] at h₁
        rw [hne₂] at h₂
        exact hf.self c c' h₁ h₂
      · rw [hm.cpu c' t₂ hne₂] at h₂
        rw [hm.threads t₂ hne₂, hne₁, hm.proc] at hp
        rw [hne₁] at h₁
        exact absurd h₂ (hf.alone ⟨c, h₁⟩ t₂ ⟨hne₂, h.live_of_on h₂, hp⟩ c')
    · rw [hm.cpu c t₁ hne₁] at h₁
      by_cases hne₂ : t₂ = t
      · rw [hm.threads t₁ hne₁, hne₂, hm.proc] at hp
        rw [hne₂] at h₂
        exact absurd h₁ (hf.alone ⟨c', h₂⟩ t₁ ⟨hne₁, h.live_of_on h₁, hp.symm⟩ c)
      · rw [hm.cpu c' t₂ hne₂] at h₂
        rw [hm.threads t₁ hne₁, hm.threads t₂ hne₂] at hp
        exact h.one c c' t₁ t₂ h₁ h₂ hp
  on c t' hc := by
    by_cases hne : t' = t
    · rw [hne] at hc ⊢
      exact hf.on c hc
    · rw [hm.cpu c t' hne] at hc
      rw [hm.threads t' hne]
      have hon := h.on c t' hc
      by_cases hp : (s.threads t').proc = (s.threads t).proc
      · rw [hm.procOf_sibling hne hp]
        obtain hoff | hsame := hf.others t' ⟨hne, h.live_of_on hc, hp⟩
        · exact absurd hc (hoff c)
        · rw [Sys.procOf, hp, ← Sys.procOf] at hon
          rw [hsame]
          exact hon
      · rw [hm.procOf hne hp]
        exact hon
  off t' ht' hc := by
    by_cases hne : t' = t
    · rw [hne] at hc ⊢
      exact hf.off hc
    · rw [hm.live hne] at ht'
      have hc' : ∀ c, s.cpu c ≠ some t' := fun c h => hc c ((hm.cpu c t' hne).mpr h)
      have hoff := h.off t' ht' hc'
      rw [hm.threads t' hne]
      by_cases hp : (s.threads t').proc = (s.threads t).proc
      · rw [hm.procOf_sibling hne hp]
        exact ⟨hoff.rests, hoff.gap, hoff.gone, fun hz => hf.zombie hz t' ⟨hne, ht', hp⟩ hc'⟩
      · rw [hm.procOf hne hp]
        exact hoff
  pair t₁ t₂ hcom hsib := by
    by_cases hne₁ : t₁ = t
    · rw [hne₁] at hcom hsib ⊢
      rw [hm.sibling] at hsib
      rw [hm.threads t₂ hsib.1, hm.tpid]
      exact hf.pair hcom t₂ hsib
    · rw [hm.threads t₁ hne₁] at hcom ⊢
      by_cases hne₂ : t₂ = t
      · rw [hne₂] at hsib ⊢
        have hsib' : s.Sibling t t₁ := by
          refine ⟨hne₁, h.dead t₁ hcom, ?_⟩
          have := hsib.2.2
          rw [hm.proc, hm.threads t₁ hne₁] at this
          exact this.symm
        exact hf.pair' t₁ hsib' hcom
      · have hsib' : s.Sibling t₁ t₂ := by
          obtain ⟨hne, hlive, hp⟩ := hsib
          rw [hm.live hne₂] at hlive
          rw [hm.threads t₁ hne₁, hm.threads t₂ hne₂] at hp
          exact ⟨hne, hlive, hp⟩
        rw [hm.threads t₂ hne₂]
        exact h.pair t₁ t₂ hcom hsib'
  forking t₁ np b hlive hplace := by
    have hkey : np ≠ (s.threads t).proc ∧ (s.procs np).state = .used ∧
        ∀ t' b', s'.Live t' → (s'.threads t').place = .forking np b' → t' = t₁ := by
      by_cases hne₁ : t₁ = t
      · rw [hne₁] at hplace ⊢
        obtain ⟨hp, hused, hone⟩ := hf.forking np b hplace
        refine ⟨hp, hused, fun t' b' hlive' hplace' => ?_⟩
        by_contra hne
        rw [hm.live hne] at hlive'
        rw [hm.threads t' hne] at hplace'
        exact hone t' b' hne hlive' hplace'
      · rw [hm.live hne₁] at hlive
        rw [hm.threads t₁ hne₁] at hplace
        obtain ⟨hused, hone⟩ := h.forking t₁ np b hlive hplace
        have hp : np ≠ (s.threads t).proc := fun heq => hf.notForked t₁ b hlive (heq ▸ hplace)
        refine ⟨hp, hused, fun t' b' hlive' hplace' => ?_⟩
        by_cases hne : t' = t
        · rw [hne] at hplace'
          exact absurd hplace ((hf.forking np b' hplace').2.2 t₁ b hne₁ hlive)
        · rw [hm.live hne] at hlive'
          rw [hm.threads t' hne] at hplace'
          exact hone t' b' hlive' hplace'
    rw [hm.procs np hkey.1]
    exact hkey.2
  used p hused := by
    have hp : p ≠ (s.threads t).proc := by
      rintro rfl
      refine hf.used ?_
      rw [Sys.procOf, hm.proc]
      exact hused
    rw [hm.procs p hp] at hused ⊢
    obtain ⟨hproc, hplace, hstate, hsole⟩ := h.used p hused
    have hne : (s.procs p).pid ≠ t := fun heq => hp (by rw [← heq]; exact hproc.symm)
    rw [hm.threads _ hne]
    refine ⟨hproc, hplace, hstate, fun t' hlive' hproc' => ?_⟩
    by_cases hne' : t' = t
    · rw [hne', hm.proc] at hproc'
      exact absurd hproc'.symm hp
    · rw [hm.live hne'] at hlive'
      rw [hm.threads t' hne'] at hproc'
      exact hsole t' hlive' hproc'

/-- `s'` is `s` with `w` for the process of `t`, `v` for `t` and `o` on CPU `c`. -/
structure Update (s s' : Sys n) (c : Fin n) (t : Tid) (w : Proc) (v : Thread) (o : Option Tid) : Prop where
  procs : s'.procs = update s.procs (s.threads t).proc w
  threads : s'.threads = update s.threads t v
  cpu : s'.cpu = update s.cpu c o
  nextPid : s'.nextPid = s.nextPid
  proc : v.proc = (s.threads t).proc
  tpid : v.pid = (s.threads t).pid
  ppid : w.pid = (s.procOf t).pid

variable {w : Proc} {v : Thread} {o : Option Tid}

theorem Update.thread (hu : Update s s' c t w v o) : s'.threads t = v := by
  rw [hu.threads, update_self]

theorem Update.procOf (hu : Update s s' c t w v o) : s'.procOf t = w := by
  rw [Sys.procOf, hu.thread, hu.proc, hu.procs, update_self]

theorem Update.cpu_self (hu : Update s s' c t w v o) (hc : ∀ c', s.cpu c' = some t → c' = c) {c' : Fin n} :
    s'.cpu c' = some t ↔ c' = c ∧ o = some t := by
  rw [hu.cpu]
  by_cases heq : c' = c
  · rw [heq, update_self]
    exact ⟨fun h => ⟨rfl, h⟩, fun h => h.2⟩
  · rw [update_of_ne heq]
    exact ⟨fun h => absurd (hc c' h) heq, fun h => absurd h.1 heq⟩

theorem Update.moves (hu : Update s s' c t w v o) (hc : s.cpu c = some t ∨ s.cpu c = none)
    (ho : o = some t ∨ o = none) : Moves s s' t where
  threads t' hne := by rw [hu.threads, update_of_ne hne]
  procs p hne := by rw [hu.procs, update_of_ne hne]
  cpu c' t' hne := by
    rw [hu.cpu]
    by_cases heq : c' = c
    · rw [heq, update_self]
      have hnot : ∀ x : Option Tid, (x = some t ∨ x = none) → x ≠ some t' := by
        rintro x (rfl | rfl) h
        · exact hne (Option.some.inj h).symm
        · cases h
      exact ⟨fun h => absurd h (hnot o ho), fun h => absurd h (hnot _ hc)⟩
    · rw [update_of_ne heq]
  nextPid := hu.nextPid
  proc := by rw [hu.thread, hu.proc]
  tpid := by rw [hu.thread, hu.tpid]
  ppid := by rw [hu.procOf, hu.ppid]

/-- Where a thread is in `fork` is where no other thread is. -/
theorem Inv.forking_self (h : s.Inv) (hlive : s.Live t) {np : Slot} {b : Bool}
    (hplace : (s.threads t).place = .forking np b) : (s.procs np).state = .used ∧
      ∀ t' b', t' ≠ t → s.Live t' → (s.threads t').place ≠ .forking np b' := by
  obtain ⟨hused, hone⟩ := h.forking t np b hlive hplace
  exact ⟨hused, fun t' b' hne hlive' hplace' => hne (hone t' b' hlive' hplace')⟩

/-- A section of the thread on CPU `c` keeps the invariant. -/
theorem Inv.of_update (h : s.Inv) (hu : Update s s' c t w v o) (hc : s.cpu c = some t)
    (ho : o = some t ∨ o = none) (hlive : v.state ≠ .unused) (hw : w.state ≠ .unused ∧ w.state ≠ .used)
    (hon : o = some t → On w.state v.state v.place) (hoff : o = none → Off w.state v.state v.place)
    (hzombie : w.state = .zombie → (s.threads t).place.Committed)
    (hcommit : v.place.Committed → (s.threads t).place.Committed ∨ ∀ t', s.Sibling t t' →
      (s.threads t').place = .gone ∨ t = (s.threads t).pid ∧ ¬ (s.threads t').place.Committed)
    (hfork : ∀ np b, v.place = .forking np b → (s.procs np).state = .used ∧
      ∀ t' b', t' ≠ t → s.Live t' → (s.threads t').place ≠ .forking np b') : s'.Inv := by
  have hself : ∀ c', s.cpu c' = some t → c' = c := fun c' h' => h.one c c' t t hc h' rfl
  have hcpu (c' : Fin n) : s'.cpu c' = some t ↔ c' = c ∧ o = some t := hu.cpu_self hself
  have hsib : ∀ t', s.Sibling t t' → ∀ c, s.cpu c ≠ some t' := fun t' => h.off_of_sibling hc
  have hstate := h.on c t hc
  have hnotUsed : (s.procOf t).state ≠ .used := by
    obtain ⟨hrun, -⟩ | ⟨hz, -⟩ := hstate.runs
    · rw [hrun]
      decide
    · rw [hz]
      decide
  refine h.of_moves (hu.moves (.inl hc) ho) ?_
  exact {
    live := h.live_of_on hc
    live' := by
      rw [Live, hu.thread]
      exact hlive
    proc := by
      rw [hu.procOf]
      exact hw.1
    used := by
      rw [hu.procOf]
      exact hw.2
    notForked := fun t' b hlive' hplace => hnotUsed (h.forking t' _ b hlive' hplace).1
    self := fun c₁ c₂ h₁ h₂ => by rw [((hcpu c₁).mp h₁).1, ((hcpu c₂).mp h₂).1]
    others := fun t' ht' => .inl (hsib t' ht')
    alone := fun _ => hsib
    on := fun c' h' => by
      rw [hu.thread, hu.procOf]
      exact hon ((hcpu c').mp h').2
    off := fun h' => by
      rw [hu.thread, hu.procOf]
      refine hoff (ho.resolve_left fun hsome => ?_)
      exact h' c ((hcpu c).mpr ⟨rfl, hsome⟩)
    zombie := fun hz t' ht' _ hcom => by
      rw [hu.procOf] at hz
      obtain hgone | hmain := h.pair t t' (hzombie hz) ht'
      · rw [hgone] at hcom
        exact hcom
      · exact hmain.2 hcom
    pair := fun hcom t' ht' => by
      rw [hu.thread] at hcom
      obtain hold | hnew := hcommit hcom
      · exact h.pair t t' hold ht'
      · exact hnew t' ht'
    pair' := fun t' ht' hcom' => by
      rw [hu.thread]
      have hsym : s.Sibling t' t := ⟨ht'.1.symm, h.live_of_on hc, ht'.2.2.symm⟩
      obtain hgone | ⟨hmain, hnot⟩ := h.pair t' t hcom' hsym
      · exact absurd hgone hstate.stays
      · refine .inr ⟨hmain, fun hcom => ?_⟩
        obtain hold | hnew := hcommit hcom
        · exact hnot hold
        · obtain hgone' | hboth := hnew t' ht'
          · rw [hgone'] at hcom'
            exact hcom'
          · exact hboth.2 hcom'
    forking := fun np b hplace => by
      rw [hu.thread] at hplace
      refine ⟨fun heq => hnotUsed ?_, hfork np b hplace⟩
      rw [Sys.procOf, ← heq]
      exact (hfork np b hplace).1 }

theorem goto_self (s : Sys n) (t : Tid) (place : Place) :
    (s.goto t place).threads t = { s.threads t with place := place } :=
  update_self _ _ _

theorem goto_of_ne (s : Sys n) {t t' : Tid} (place : Place) (hne : t' ≠ t) :
    (s.goto t place).threads t' = s.threads t' :=
  update_of_ne hne _ _

theorem update_goto (hc : s.cpu c = some t) (place : Place) : Update s (s.goto t place) c t (s.procOf t)
    { s.threads t with place := place } (some t) where
  procs := (update_eq_self _ _).symm
  threads := rfl
  cpu := by
    rw [← hc]
    exact (update_eq_self _ _).symm
  nextPid := rfl
  proc := rfl
  tpid := rfl
  ppid := rfl

theorem update_sched (s : Sys n) (c : Fin n) (t : Tid) (pstate : ProcState) (tstate : ThreadState) :
    Update s (s.sched c t pstate tstate) c t { s.procOf t with state := pstate }
      { s.threads t with state := tstate } none :=
  ⟨rfl, rfl, rfl, rfl, rfl, rfl, rfl⟩

/-- Outside the gap the process of a thread on a CPU is running. -/
theorem Inv.running (h : s.Inv) (hc : s.cpu c = some t) (hgap : ¬ (s.threads t).place.Gap) :
    (s.procOf t).state = .running := by
  obtain ⟨hrun, -⟩ | ⟨-, -, hin⟩ := (h.on c t hc).runs
  · exact hrun
  · exact absurd hin hgap

/-- A thread on a CPU goes on at another place. -/
theorem Inv.goto (h : s.Inv) (hc : s.cpu c = some t) {place : Place}
    (hold : ¬ (s.threads t).place.Gap) (hgap : ¬ place.Gap) (hstay : place ≠ .gone)
    (hcommit : place.Committed → ∀ t', s.Sibling t t' →
      (s.threads t').place = .gone ∨ t = (s.threads t).pid ∧ ¬ (s.threads t').place.Committed)
    (hfork : ∀ np b, place = .forking np b → (s.procs np).state = .used ∧
      ∀ t' b', t' ≠ t → s.Live t' → (s.threads t').place ≠ .forking np b') : (s.goto t place).Inv := by
  have hrun := h.running hc hold
  refine h.of_update (update_goto hc place) hc (.inl rfl) (h.live_of_on hc) ?_ ?_ ?_ ?_ ?_ hfork
  · rw [hrun]
    exact ⟨by decide, by decide⟩
  · exact fun _ => ⟨(h.on c t hc).live, hstay, .inl ⟨hrun, hgap⟩⟩
  · intro hnone
    cases hnone
  · intro hz
    rw [hrun] at hz
    cases hz
  · exact fun hcom => .inr (hcommit hcom)

/-- A thread gives up its CPU in the middle of its code. -/
theorem Inv.sched (h : s.Inv) (hc : s.cpu c = some t) (hgap : ¬ (s.threads t).place.Gap)
    {pstate : ProcState} (hp : pstate = .runnable ∨ pstate = .sleeping) {tstate : ThreadState}
    (ht : tstate = .runnable ∨ tstate = .sleeping) : (s.sched c t pstate tstate).Inv := by
  have hstay := (h.on c t hc).stays
  have hw : pstate ≠ .unused ∧ pstate ≠ .used ∧ pstate ≠ .zombie := by
    obtain rfl | rfl := hp <;> decide
  have hv : tstate ≠ .unused ∧ tstate ≠ .running ∧ tstate ≠ .zombie := by
    obtain rfl | rfl := ht <;> decide
  refine h.of_update (update_sched s c t pstate tstate) hc (.inr rfl) hv.1 ⟨hw.1, hw.2.1⟩ ?_ ?_ ?_ ?_ ?_
  · intro hsome
    cases hsome
  · intro _
    exact ⟨hv.2.1, hgap, ⟨fun hz => absurd hz hv.2.2, fun hgone => absurd hgone hstay⟩,
      fun hz => absurd hz hw.2.2⟩
  · exact fun hz => absurd hz hw.2.2
  · exact fun hcom => .inl hcom
  · exact fun np b => h.forking_self (h.live_of_on hc)

/-! ## Changes of processes only -/

/-- Of the processes only the ID and the state matter, and a sleeping one may become runnable. -/
theorem Inv.congr (h : s.Inv) (hthreads : s'.threads = s.threads) (hcpu : s'.cpu = s.cpu)
    (hnext : s'.nextPid = s.nextPid) (hpid : ∀ p, (s'.procs p).pid = (s.procs p).pid)
    (hstate : ∀ p, (s'.procs p).state = (s.procs p).state ∨
      (s.procs p).state = .sleeping ∧ (s'.procs p).state = .runnable) : s'.Inv := by
  have hlive (t : Tid) : s'.Live t ↔ s.Live t := by rw [Live, Live, hthreads]
  have hsib (t t' : Tid) : s'.Sibling t t' ↔ s.Sibling t t' := by
    rw [Sibling, Sibling, hlive, hthreads]
  have hproc (t : Tid) : s'.procOf t = s'.procs (s.threads t).proc := by rw [procOf, hthreads]
  -- The states that the invariant names are kept.
  have hkeep {p : Slot} {st : ProcState} (hst : st ≠ .runnable) (h' : (s'.procs p).state = st) :
      (s.procs p).state = st := by
    obtain heq | ⟨-, hrun⟩ := hstate p
    · rw [← heq]
      exact h'
    · rw [hrun] at h'
      exact absurd h'.symm hst
  have hkeep' {p : Slot} {st : ProcState} (hst : st ≠ .sleeping) (h' : (s.procs p).state = st) :
      (s'.procs p).state = st := by
    obtain heq | ⟨hsleep, -⟩ := hstate p
    · rw [heq]
      exact h'
    · rw [hsleep] at h'
      exact absurd h'.symm hst
  exact {
    fresh := fun t hle => by
      rw [hthreads]
      rw [hnext] at hle
      exact h.fresh t hle
    pid_lt := fun p => by
      rw [hpid, hnext]
      exact h.pid_lt p
    owner := fun t ht => by
      rw [hlive] at ht
      rw [hproc, hpid, hthreads]
      exact ⟨fun hun => (h.owner t ht).1 (hkeep (by decide) hun), (h.owner t ht).2⟩
    dead := fun t ht => by
      rw [hthreads] at ht
      rw [hlive]
      exact h.dead t ht
    one := by
      rw [hcpu, hthreads]
      exact h.one
    on := fun c t hc => by
      rw [hcpu] at hc
      rw [hproc, hthreads]
      obtain ⟨hl, hstay, hruns⟩ := h.on c t hc
      refine ⟨hl, hstay, ?_⟩
      obtain ⟨hrun, hgap⟩ | ⟨hz, hrest⟩ := hruns
      · exact .inl ⟨hkeep' (by decide) hrun, hgap⟩
      · exact .inr ⟨hkeep' (by decide) hz, hrest⟩
    off := fun t ht hc => by
      rw [hlive] at ht
      rw [hcpu] at hc
      rw [hproc, hthreads]
      have hoff := h.off t ht hc
      exact ⟨hoff.rests, hoff.gap, hoff.gone, fun hz => hoff.zombie (hkeep (by decide) hz)⟩
    pair := fun t t' hcom ht' => by
      rw [hthreads] at hcom ⊢
      rw [hsib] at ht'
      exact h.pair t t' hcom ht'
    forking := fun t np b ht hplace => by
      rw [hlive] at ht
      rw [hthreads] at hplace ⊢
      obtain ⟨hused, hone⟩ := h.forking t np b ht hplace
      refine ⟨hkeep' (by decide) hused, fun t' b' ht' hplace' => ?_⟩
      rw [hlive] at ht'
      exact hone t' b' ht' hplace'
    used := fun p hused => by
      obtain ⟨hproc', hplace, hst, hsole⟩ := h.used p (hkeep (by decide) hused)
      rw [hpid, hthreads]
      refine ⟨hproc', hplace, hst, fun t ht => ?_⟩
      rw [hlive] at ht
      exact hsole t ht }

theorem setProc_self (s : Sys n) (p : Slot) (w : Proc) : (s.setProc p w).procs p = w := update_self _ _ _

theorem setProc_of_ne (s : Sys n) {p q : Slot} (w : Proc) (hq : q ≠ p) :
    (s.setProc p w).procs q = s.procs q :=
  update_of_ne hq _ _

theorem Inv.setProc (h : s.Inv) (p : Slot) {w : Proc} (hpid : w.pid = (s.procs p).pid)
    (hstate : w.state = (s.procs p).state ∨ (s.procs p).state = .sleeping ∧ w.state = .runnable) :
    (s.setProc p w).Inv := by
  refine h.congr rfl rfl rfl (fun q => ?_) (fun q => ?_)
  · by_cases hq : q = p
    · rw [hq, setProc_self]
      exact hpid
    · rw [setProc_of_ne s w hq]
  · by_cases hq : q = p
    · rw [hq, setProc_self]
      exact hstate
    · rw [setProc_of_ne s w hq]
      exact .inl rfl

/-! ## What a section does -/

/-- The ghosts of the system as a whole are the same. -/
def SameLog (s s' : Sys n) : Prop := s'.log = s.log ∧ s'.exited = s.exited

theorem schedule_cases (hs : s.schedule c t = some s') : s.cpu c = none ∧ (s.procOf t).state = .runnable ∧
    (s.threads t).state = .runnable ∧ Update s s' c t { s.procOf t with state := .running }
      { s.threads t with state := .running } (some t) ∧ SameLog s s' := by
  rw [schedule] at hs
  split at hs
  · rename_i hguard
    cases hs
    exact ⟨hguard.1, hguard.2.1, hguard.2.2, ⟨rfl, rfl, rfl, rfl, rfl, rfl, rfl⟩, rfl, rfl⟩
  · cases hs

/-- A section behind a guard, on the thread of its CPU. -/
theorem guarded {p : Tid → Prop} {inst : ∀ t, Decidable (p t)} {f : Tid → Sys n}
    (hs : (do let t ← s.cpu c; if p t then some (f t) else none) = some s') :
    ∃ t, s.cpu c = some t ∧ p t ∧ s' = f t := by
  obtain ⟨t, hc, hs⟩ := Option.bind_eq_some_iff.mp hs
  split at hs
  · rename_i hguard
    cases hs
    exact ⟨t, hc, hguard, rfl⟩
  · cases hs

theorem retire_cases (hs : s.retire c = some s') : ∃ t arg code, s.cpu c = some t ∧
    (s.threads t).place = .leaving arg code ∧ Update s s' c t (s.procOf t)
      { s.threads t with state := .zombie, place := .left arg code } (some t) ∧ SameLog s s' := by
  obtain ⟨t, hc, hs⟩ := Option.bind_eq_some_iff.mp hs
  split at hs
  · rename_i arg code hplace
    cases hs
    refine ⟨t, arg, code, hc, hplace, ⟨(update_eq_self _ _).symm, rfl, ?_, rfl, rfl, rfl, rfl⟩, rfl, rfl⟩
    rw [← hc]
    exact (update_eq_self _ _).symm
  · cases hs

/-- The thread is gone, or goes on with `exit`. -/
theorem switchThread_cases (hs : s.switchThread c = some s') : ∃ t arg code, s.cpu c = some t ∧
    (s.threads t).place = .left arg code ∧
      ((s.threads t).state ≠ .running ∧ Update s s' c t { s.procOf t with state := .runnable }
        { s.threads t with place := .gone } none ∧ SameLog s s' ∨
      (s.threads t).proc ≠ initproc ∧ s' = s.goto t (.exitCalled arg code)) := by
  obtain ⟨t, hc, hs⟩ := Option.bind_eq_some_iff.mp hs
  split at hs
  · rename_i arg code hplace
    refine ⟨t, arg, code, hc, hplace, ?_⟩
    split at hs
    · split at hs
      · cases hs
      · rename_i hrunning
        cases hs
        refine .inl ⟨hrunning, ⟨?_, ?_, rfl, rfl, rfl, rfl, rfl⟩, rfl, rfl⟩
        · simp only [sched, goto, setProc, setThread, idle, procOf, update_self]
        · simp only [sched, goto, setProc, setThread, idle, update_self, Function.update_idem]
    · split at hs
      · cases hs
      · rename_i hinit
        cases hs
        exact .inr ⟨hinit, rfl⟩
  · cases hs

theorem publish_cases (hs : s.publish c = some s') : ∃ t code, s.cpu c = some t ∧
    (s.threads t).place = .exiting code ∧
      Update s s' c t { s.procOf t with state := .zombie, exitState := code }
        { s.threads t with state := .zombie, place := .published } (some t) ∧ SameLog s s' := by
  obtain ⟨t, hc, hs⟩ := Option.bind_eq_some_iff.mp hs
  split at hs
  · rename_i code hplace
    cases hs
    refine ⟨t, code, hc, hplace, ⟨rfl, rfl, ?_, rfl, rfl, rfl, rfl⟩, rfl, rfl⟩
    rw [← hc]
    exact (update_eq_self _ _).symm
  · cases hs

theorem announce_cases (hs : s.announce c = some s') : ∃ t, s.cpu c = some t ∧
    (s.threads t).place = .published ∧
      Update (s.reparent (s.threads t).proc) s' c t ((s.reparent (s.threads t).proc).procOf t)
        { s.threads t with place := .announced } (some t) ∧
      s'.log = s.log ∧ s'.exited = (s.threads t).pid :: s.exited := by
  obtain ⟨t, hc, hs⟩ := Option.bind_eq_some_iff.mp hs
  split at hs
  · rename_i hplace
    cases hs
    refine ⟨t, hc, hplace, ⟨(update_eq_self _ _).symm, rfl, ?_, rfl, rfl, rfl, rfl⟩, rfl, rfl⟩
    rw [← hc]
    exact (update_eq_self _ _).symm
  · cases hs

theorem finish_cases (hs : s.finish c = some s') : ∃ t, s.cpu c = some t ∧
    (s.threads t).place = .announced ∧ Update s s' c t (s.procOf t) { s.threads t with place := .gone } none ∧
      SameLog s s' := by
  obtain ⟨t, hc, hs⟩ := Option.bind_eq_some_iff.mp hs
  split at hs
  · rename_i hplace
    split at hs
    · cases hs
    · cases hs
      exact ⟨t, hc, hplace, ⟨(update_eq_self _ _).symm, rfl, rfl, rfl, rfl, rfl, rfl⟩, rfl, rfl⟩
  · cases hs

/-- A thread in the gap is a zombie of a zombie. -/
theorem Inv.zombie_of_gap (h : s.Inv) (hc : s.cpu c = some t) (hgap : (s.threads t).place.Gap) :
    (s.procOf t).state = .zombie ∧ (s.threads t).state = .zombie := by
  obtain ⟨-, hnot⟩ | ⟨hz, hz', -⟩ := (h.on c t hc).runs
  · exact absurd hgap hnot
  · exact ⟨hz, hz'⟩

theorem Inv.not_gap_of_running (h : s.Inv) (hc : s.cpu c = some t) (hrun : (s.procOf t).state = .running) :
    ¬ (s.threads t).place.Gap := by
  intro hgap
  rw [(h.zombie_of_gap hc hgap).1] at hrun
  cases hrun

end Sys

end SC7.Process
