-- SUMMARY: Who removes an entry from the futex queue, and when a sleeping thread keeps its entry.
import SC7.Kernel.Futex

/-!
# Ownership of queue entries

A waiter that runs again frees the slot it had taken, without a look at whose entry the slot holds. A
wake has freed the slot before, so another waiter may have taken it. As long as no waiter takes a slot
that an earlier one has yet to clean up, each entry is removed for its own thread only.
-/

namespace SC7.Futex

open Function (update update_apply update_of_ne)

namespace Sys

variable {s s' s'' : Sys} {th u v : Tid} {i j : Slot} {addr newAddr : UInt64} {n : Int}
  {sel : Entry → Bool} {is : List Slot}

/-- `u` is switched out in `futex_wait` until someone wakes it or its time is up. -/
def Asleep (s : Sys) (u : Tid) : Prop := (s.thread u).state = .sleeping ∨ (s.thread u).state = .timing

/-- Slot `i` holds an entry of `u`. -/
def Holds (s : Sys) (i : Slot) (u : Tid) : Prop := (s.queue i).valid = true ∧ (s.queue i).thread = u

@[simp] theorem setThread_queue (s : Sys) (th : Tid) (t : Thread) : (s.setThread th t).queue = s.queue := rfl

@[simp] theorem setThread_word (s : Sys) (th : Tid) (t : Thread) : (s.setThread th t).word = s.word := rfl

theorem setThread_thread (s : Sys) (th : Tid) (t : Thread) (u : Tid) :
    (s.setThread th t).thread u = if u = th then t else s.thread u :=
  update_apply _ _ _ _

theorem setSlot_queue (s : Sys) (i : Slot) (e : Entry) (j : Slot) :
    (s.setSlot i e).queue j = if j = i then e else s.queue j :=
  update_apply _ _ _ _

@[simp] theorem setSlot_thread (s : Sys) (i : Slot) (e : Entry) : (s.setSlot i e).thread = s.thread := rfl

/-! ## Steps that put nobody to sleep -/

/-- A step that makes no entry and puts no thread to sleep, and that removes the entries of threads
only that are awake afterwards. -/
structure Calm (s s' : Sys) : Prop where
  place : ∀ u i, (s'.thread u).place = .queued i ↔ (s.thread u).place = .queued i
  owner : ∀ i, (s'.queue i).thread = (s.queue i).thread
  valid : ∀ i, (s'.queue i).valid = true → (s.queue i).valid = true
  asleep : ∀ u, s'.Asleep u → s.Asleep u ∧ (s'.thread u).cpu = (s.thread u).cpu
  gone : ∀ i, (s.queue i).valid = true → (s'.queue i).valid = false → ¬ s'.Asleep (s.queue i).thread

theorem Calm.refl (s : Sys) : Calm s s where
  place _ _ := Iff.rfl
  owner _ := rfl
  valid _ hv := hv
  asleep _ ha := ⟨ha, rfl⟩
  gone i hv hv' := by
    rw [hv] at hv'
    cases hv'

theorem Calm.trans (h : Calm s s') (h' : Calm s' s'') : Calm s s'' where
  place u i := (h'.place u i).trans (h.place u i)
  owner i := (h'.owner i).trans (h.owner i)
  valid i hv := h.valid i (h'.valid i hv)
  asleep u ha := by
    obtain ⟨ha', hcpu'⟩ := h'.asleep u ha
    obtain ⟨ha, hcpu⟩ := h.asleep u ha'
    exact ⟨ha, hcpu'.trans hcpu⟩
  gone i hv hv'' := by
    cases hv' : (s'.queue i).valid with
    | true =>
      rw [← h.owner i]
      exact h'.gone i hv' hv''
    | false =>
      intro ha
      exact h.gone i hv hv' (h'.asleep _ ha).1

theorem Calm.setWord (s : Sys) (word : Pid → UInt64 → Option UInt32) : Calm s { s with word } where
  place _ _ := Iff.rfl
  owner _ := rfl
  valid _ hv := hv
  asleep _ ha := ⟨ha, rfl⟩
  gone := (Calm.refl s).gone

/-- A new record for a thread that is awake in it. -/
theorem Calm.setThread (s : Sys) (th : Tid) {t : Thread}
    (hplace : ∀ i, t.place = .queued i ↔ (s.thread th).place = .queued i)
    (hawake : t.state ≠ .sleeping ∧ t.state ≠ .timing) : Calm s (s.setThread th t) where
  place u i := by
    rw [setThread_thread]
    split
    · rename_i hu
      rw [hu]
      exact hplace i
    · exact Iff.rfl
  owner _ := rfl
  valid _ hv := hv
  asleep u ha := by
    simp only [Asleep, setThread_thread] at ha ⊢
    split at ha
    · exact (ha.elim hawake.1 hawake.2).elim
    · rename_i hu
      rw [if_neg hu]
      exact ⟨ha, rfl⟩
  gone i hv hv' := by
    rw [setThread_queue, hv] at hv'
    cases hv'

/-- The body of the wake loops. -/
theorem Calm.wakeEntry (s : Sys) (i : Slot) : Calm s (s.wakeEntry i) where
  place u j := by
    simp only [Sys.wakeEntry, setThread_thread, setSlot_thread]
    split
    · rename_i hu
      rw [hu]
    · exact Iff.rfl
  owner j := by
    simp only [Sys.wakeEntry, setThread_queue, setSlot_queue]
    split
    · rename_i hj
      rw [hj]
    · rfl
  valid j hv := by
    simp only [Sys.wakeEntry, setThread_queue, setSlot_queue] at hv
    split at hv
    · cases hv
    · exact hv
  asleep u ha := by
    simp only [Asleep, Sys.wakeEntry, setThread_thread, setSlot_thread] at ha ⊢
    split at ha
    · simp at ha
    · rename_i hu
      rw [if_neg hu]
      exact ⟨ha, rfl⟩
  gone j hv hv' := by
    simp only [Sys.wakeEntry, setThread_queue, setSlot_queue] at hv'
    split at hv'
    · rename_i hj
      rw [hj]
      simp [Asleep, Sys.wakeEntry, setThread_thread]
    · rw [hv] at hv'
      cases hv'

theorem Calm.wakeLoop (sel : Entry → Bool) (is : List Slot) (n : Int) (s : Sys) :
    Calm s (s.wakeLoop sel is n).1 := by
  fun_induction Sys.wakeLoop sel is n s with
  | case1 n s => exact Calm.refl s
  | case2 i is n s hn hsel s' woken hrest ih =>
    rw [hrest] at ih
    exact (Calm.wakeEntry s i).trans ih
  | case3 i is n s hn hsel ih => exact ih
  | case4 i is n s hn => exact Calm.refl s

/-- The body of the requeue loop. -/
theorem Calm.setAddr (s : Sys) (i : Slot) (newAddr : UInt64) :
    Calm s (s.setSlot i { s.queue i with addr := newAddr }) where
  place _ _ := Iff.rfl
  owner j := by
    rw [setSlot_queue]
    split
    · rename_i hj
      rw [hj]
    · rfl
  valid j hv := by
    rw [setSlot_queue] at hv
    split at hv
    · rename_i hj
      rwa [hj]
    · exact hv
  asleep _ ha := ⟨ha, rfl⟩
  gone j hv hv' := by
    rw [setSlot_queue] at hv'
    split at hv'
    · rename_i hj
      rw [hj] at hv
      simp only at hv'
      rw [hv] at hv'
      cases hv'
    · rw [hv] at hv'
      cases hv'

theorem Calm.requeueLoop (addr newAddr : UInt64) (is : List Slot) (n : Int) (s : Sys) :
    Calm s (s.requeueLoop addr newAddr is n).1 := by
  fun_induction Sys.requeueLoop addr newAddr is n s with
  | case1 n s => exact Calm.refl s
  | case2 i is n s hn hsel s' requeued hrest ih =>
    rw [hrest] at ih
    exact (Calm.setAddr s i newAddr).trans ih
  | case3 i is n s hn hsel ih => exact ih
  | case4 i is n s hn => exact Calm.refl s

theorem Calm.cmpRequeue (s : Sys) (addr newAddr : UInt64) (nrWake nrRequeue : Int) :
    Calm s (s.futexCmpRequeue addr newAddr nrWake nrRequeue).1 := by
  simp only [Sys.futexCmpRequeue]
  exact (Calm.wakeLoop (onAddr addr) (List.finRange FUTEX_COUNT) nrWake s).trans
    (Calm.requeueLoop addr newAddr (List.finRange FUTEX_COUNT) nrRequeue _)

/-- `futex_clear` of a thread that is awake. -/
theorem Calm.futexClear (hawake : ¬ s.Asleep th) : Calm s (s.futexClear th) where
  place _ _ := Iff.rfl
  owner j := by
    simp only [Sys.futexClear]
    split <;> rfl
  valid j hv := by
    simp only [Sys.futexClear] at hv
    split at hv
    · cases hv
    · exact hv
  asleep _ ha := ⟨ha, rfl⟩
  gone j hv hv' := by
    simp only [Sys.futexClear] at hv'
    split at hv'
    · rename_i hj
      have howner : (s.queue j).thread = th := by simpa [hv] using hj
      rw [howner]
      exact hawake
    · rw [hv] at hv'
      cases hv'

/-! ## What a wake finds -/

/-- A wake loop leaves a slot alone, or it selected and freed it. -/
theorem wakeLoop_queue (sel : Entry → Bool) (is : List Slot) (n : Int) (s : Sys) (j : Slot) :
    (s.wakeLoop sel is n).1.queue j = s.queue j ∨
      (s.queue j).valid = true ∧ sel (s.queue j) = true ∧
        (s.wakeLoop sel is n).1.queue j = { s.queue j with valid := false } := by
  fun_induction Sys.wakeLoop sel is n s with
  | case1 n s => exact .inl rfl
  | case2 i is n s hn hsel s' woken hrest ih =>
    rw [hrest] at ih
    simp only [wakeEntry, setThread_queue, setSlot_queue] at ih
    by_cases hj : j = i
    · rw [if_pos hj] at ih
      rw [Bool.and_eq_true] at hsel
      rw [hj] at ih ⊢
      refine .inr ⟨hsel.1, hsel.2, ?_⟩
      obtain hsame | ⟨hv, -, -⟩ := ih
      · exact hsame
      · cases hv
    · rw [if_neg hj] at ih
      exact ih
  | case3 i is n s hn hsel ih => exact ih
  | case4 i is n s hn => exact .inl rfl

theorem wakeLoop_state (sel : Entry → Bool) (is : List Slot) (n : Int) (s : Sys) (u : Tid) :
    ((s.wakeLoop sel is n).1.thread u).state = (s.thread u).state ∨
      ((s.wakeLoop sel is n).1.thread u).state = .runnable := by
  fun_induction Sys.wakeLoop sel is n s with
  | case1 n s => exact .inl rfl
  | case2 i is n s hn hsel s' woken hrest ih =>
    rw [hrest] at ih
    simp only [wakeEntry, setThread_thread, setSlot_thread] at ih
    split at ih
    · exact .inr (ih.elim id id)
    · exact ih
  | case3 i is n s hn hsel ih => exact ih
  | case4 i is n s hn => exact .inl rfl

/-- The thread of a freed slot is runnable. -/
theorem wakeLoop_runnable (sel : Entry → Bool) (is : List Slot) (n : Int) (s : Sys) (j : Slot)
    (hv : (s.queue j).valid = true) (hv' : ((s.wakeLoop sel is n).1.queue j).valid = false) :
    ((s.wakeLoop sel is n).1.thread (s.queue j).thread).state = .runnable := by
  fun_induction Sys.wakeLoop sel is n s with
  | case1 n s =>
    rw [hv] at hv'
    cases hv'
  | case2 i is n s hn hsel s' woken hrest ih =>
    rw [hrest] at ih
    by_cases hj : j = i
    · have hstate := wakeLoop_state sel is (n - 1) (s.wakeEntry i) (s.queue j).thread
      rw [hrest, hj] at hstate
      rw [hj]
      refine hstate.elim (fun h => h.trans ?_) id
      simp [wakeEntry, setThread_thread]
    · simp only [wakeEntry, setThread_queue, setSlot_queue, if_neg hj] at ih
      exact ih hv hv'
  | case3 i is n s hn hsel ih => exact ih hv hv'
  | case4 i is n s hn =>
    rw [hv] at hv'
    cases hv'

/-- A wake loop that wakes fewer threads than it may leaves no entry that it selects. -/
theorem wakeLoop_all (hlt : (s.wakeLoop sel is n).2 < n) (hj : j ∈ is)
    (hv : ((s.wakeLoop sel is n).1.queue j).valid = true) :
    sel ((s.wakeLoop sel is n).1.queue j) = false := by
  fun_induction Sys.wakeLoop sel is n s with
  | case1 n s => cases hj
  | case2 i is n s hn hsel s' woken hrest ih =>
    rw [hrest] at ih
    simp only at ih hlt hv ⊢
    obtain rfl | hmem := List.mem_cons.mp hj
    · -- The slot has just been freed, and the rest of the loop does not use it.
      have hq := wakeLoop_queue sel is (n - 1) (s.wakeEntry j) j
      rw [hrest] at hq
      simp only [wakeEntry, setThread_queue, setSlot_queue, if_pos] at hq
      obtain hsame | ⟨hv', -, -⟩ := hq
      · rw [hsame] at hv
        cases hv
      · cases hv'
    · exact ih (by omega) hmem hv
  | case3 i is n s hn hsel ih =>
    obtain rfl | hmem := List.mem_cons.mp hj
    · obtain hsame | ⟨hv', hsel', -⟩ := wakeLoop_queue sel is n s j
      · rw [hsame] at hv ⊢
        rw [hv, Bool.true_and, Bool.not_eq_true] at hsel
        exact hsel
      · rw [hv', hsel'] at hsel
        exact absurd rfl hsel
    · exact ih hlt hmem hv
  | case4 i is n s hn => omega

/-- An entry that the loop selects is woken, unless as many others are. -/
theorem wakeLoop_finds (sel : Entry → Bool) (n : Int) (s : Sys) (hv : (s.queue j).valid = true)
    (hsel : sel (s.queue j) = true) :
    ((s.wakeLoop sel (List.finRange FUTEX_COUNT) n).1.thread (s.queue j).thread).state = .runnable ∧
        ((s.wakeLoop sel (List.finRange FUTEX_COUNT) n).1.queue j).valid = false ∨
      n ≤ (s.wakeLoop sel (List.finRange FUTEX_COUNT) n).2 := by
  by_cases hlt : (s.wakeLoop sel (List.finRange FUTEX_COUNT) n).2 < n
  · have hfreed : ((s.wakeLoop sel (List.finRange FUTEX_COUNT) n).1.queue j).valid = false := by
      cases hv' : ((s.wakeLoop sel (List.finRange FUTEX_COUNT) n).1.queue j).valid with
      | false => rfl
      | true =>
        have hnot := wakeLoop_all hlt (List.mem_finRange j) hv'
        obtain hsame | ⟨-, -, hfree⟩ := wakeLoop_queue sel (List.finRange FUTEX_COUNT) n s j
        · rw [hsame, hsel] at hnot
          cases hnot
        · rw [hfree] at hv'
          cases hv'
    exact .inl ⟨wakeLoop_runnable sel _ n s j hv hfreed, hfreed⟩
  · exact .inr (by omega)

/-! ## The sections -/

variable {now : Timespec} {a : Act}

theorem freeSlot_free (h : s.freeSlot = some i) : (s.queue i).valid = false := by
  have := List.find?_some h
  simpa using this

/-- A section moves the thread that runs it from one place to the next. -/
def Moves (s : Sys) (a : Act) (u : Tid) (q : Place) : Prop :=
  match a with
  | .compare th addr val ts kind =>
    u = th ∧ s.At th .user ∧ s.word (s.thread th).p addr = some val ∧ q = .checked addr val ts kind
  | .wait th _ => u = th ∧ (∃ addr val ts kind, s.At th (.checked addr val ts kind)) ∧ ∃ i, q = .queued i
  | .cleanUp th => u = th ∧ (∃ i, s.At th (.queued i)) ∧ q = .user
  | .exitClear th => u = th ∧ s.At th .user ∧ q = .exiting
  | .exitTid th => u = th ∧ s.At th .exiting ∧ q = .switching
  | .exitSwitch th => u = th ∧ s.At th .switching ∧ (q = .procExit ∨ q = .gone)
  | _ => False

/-- A section writes the record of one thread, and nothing else. A thread does not go to sleep so. -/
structure Rewrites (s s' : Sys) (a : Act) (th : Tid) (t : Thread) : Prop where
  eq : s' = s.setThread th t
  p : t.p = (s.thread th).p
  place : t.place = (s.thread th).place ∨ s.Moves a th t.place
  clearChildTid : t.clearChildTid = (s.thread th).clearChildTid
  queued : ∀ i, t.place = .queued i ↔ (s.thread th).place = .queued i
  awake : t.state ≠ .sleeping ∧ t.state ≠ .timing ∨ t.state = (s.thread th).state ∧ (s.thread th).cpu = .on

/-- The sections that are no more than that. -/
def onlyRewrites : Act → Bool
  | .compare .. | .schedule .. | .yield _ | .tgkill _ | .exitSwitch _ => true
  | _ => false

theorem rewrites_cases (ha : onlyRewrites a = true) (h : s.step a = some s') :
    s' = s ∨ ∃ th t, Rewrites s s' a th t := by
  cases a with
  | compare th addr val ts kind =>
    simp only [step, sysFutexCompare] at h
    split at h
    · rename_i hat
      cases h
      split
      · exact .inl rfl
      · split
        · rename_i hword
          exact .inr ⟨th, _, rfl, rfl, .inr ⟨rfl, hat, hword, rfl⟩, rfl, fun i => by simp [hat.2], .inr ⟨rfl, hat.1⟩⟩
        · exact .inl rfl
    · cases h
  | schedule th now =>
    simp only [step, schedule] at h
    split at h
    · split at h
      · cases h
        exact .inr ⟨th, _, rfl, rfl, .inl rfl, rfl, fun i => Iff.rfl, .inl (by simp)⟩
      · split at h
        · cases h
          exact .inr ⟨th, _, rfl, rfl, .inl rfl, rfl, fun i => Iff.rfl, .inl (by simp)⟩
        · cases h
      · cases h
    · cases h
  | yield th =>
    simp only [step] at h
    split at h
    · cases h
      exact .inr ⟨th, _, rfl, rfl, .inl rfl, rfl, fun i => Iff.rfl, .inl (by simp)⟩
    · cases h
  | tgkill target =>
    simp only [step] at h
    split at h
    · cases h
      exact .inr ⟨target, _, rfl, rfl, .inl rfl, rfl, fun i => Iff.rfl, .inl (by simp)⟩
    · cases h
  | exitSwitch th =>
    simp only [step, exitSwitch] at h
    split at h
    · rename_i hat
      split at h
      · cases h
        exact .inr ⟨th, _, rfl, rfl, .inr ⟨rfl, hat, .inl rfl⟩, rfl, fun i => by simp [hat.2], .inr ⟨rfl, hat.1⟩⟩
      · split at h
        · cases h
        · cases h
          exact .inr ⟨th, _, rfl, rfl, .inr ⟨rfl, hat, .inr rfl⟩, rfl, fun i => by simp [hat.2], .inr ⟨rfl, hat.1⟩⟩
    · cases h
  | _ => cases ha

/-- The section in which a thread goes to sleep. -/
theorem wait_cases (h : s.step (.wait th now) = some s') :
    ∃ addr val ts kind i bits,
      s.At th (.checked addr val ts kind) ∧ s.freeSlot = some i ∧
      s'.queue = update s.queue i ⟨addr, th, true, bits⟩ ∧ s'.word = s.word ∧
      (∀ u, u ≠ th → s'.thread u = s.thread u) ∧ (s'.thread th).place = .queued i ∧
      (s'.thread th).cpu = .off ∧ (s'.thread th).p = (s.thread th).p := by
  simp only [step] at h
  split at h
  · rename_i addr val ts kind hcpu hplace
    obtain ⟨i, hi, hs'⟩ := Option.map_eq_some_iff.mp h
    subst hs'
    refine ⟨addr, val, ts, kind, i, _, ⟨hcpu, hplace⟩, hi, rfl, rfl, ?_, ?_, ?_, ?_⟩
    · intro u hu
      rw [setThread_thread, if_neg hu]
      rfl
    · rw [setThread_thread, if_pos rfl]
    · rw [setThread_thread, if_pos rfl]
    · rw [setThread_thread, if_pos rfl]
      split <;> rfl
  · cases h

/-- The section in which a woken thread frees its slot. -/
theorem cleanUp_cases (h : s.step (.cleanUp th) = some s') :
    ∃ i, s.At th (.queued i) ∧
      s' = (s.cleanUp i).setThread th { s.thread th with place := .user } := by
  simp only [step] at h
  split at h
  · rename_i i hcpu hplace
    cases h
    exact ⟨i, ⟨hcpu, hplace⟩, rfl⟩
  · cases h

@[simp] theorem cleanUp_thread (s : Sys) (i : Slot) : (s.cleanUp i).thread = s.thread := by
  rw [cleanUp]
  split <;> rfl

@[simp] theorem cleanUp_word (s : Sys) (i : Slot) : (s.cleanUp i).word = s.word := by
  rw [cleanUp]
  split <;> rfl

/-- Afterwards the slot is free and the others are as before. -/
theorem cleanUp_queue (s : Sys) (i j : Slot) :
    (s.cleanUp i).queue j = if j = i then { s.queue i with valid := false } else s.queue j := by
  rw [cleanUp]
  split
  · exact setSlot_queue s i _ j
  · rename_i hfree
    split
    · rename_i hj
      rw [hj]
      rw [Bool.not_eq_true] at hfree
      rw [← hfree]
    · rfl

/-- What holds in every run: an entry belongs to a thread that is waiting in this slot, and a thread
that sleeps is switched out. -/
structure Inv (s : Sys) : Prop where
  own : ∀ i, (s.queue i).valid = true → (s.thread (s.queue i).thread).place = .queued i
  off : ∀ u, s.Asleep u → (s.thread u).cpu = .off

theorem Inv.awake (hs : s.Inv) (hcpu : (s.thread th).cpu ≠ .off) : ¬ s.Asleep th :=
  fun ha => hcpu (hs.off th ha)

theorem Inv.state_ne (hs : s.Inv) (hcpu : (s.thread th).cpu ≠ .off) :
    (s.thread th).state ≠ .sleeping ∧ (s.thread th).state ≠ .timing := by
  have := hs.awake hcpu
  exact ⟨fun h => this (.inl h), fun h => this (.inr h)⟩

/-- The sections other than those that make and clean up an entry. -/
theorem Inv.step_calm (hs : s.Inv) (h : s.step a = some s') (hwait : ∀ th now, a ≠ .wait th now)
    (hclean : ∀ th, a ≠ .cleanUp th) : Calm s s' := by
  cases a with
  | store word =>
    cases h
    exact Calm.setWord s word
  | wait th now => exact absurd rfl (hwait th now)
  | cleanUp th => exact absurd rfl (hclean th)
  | wake th addr n =>
    simp only [step] at h
    split at h
    · rw [← Option.some.inj h]
      exact Calm.wakeLoop _ _ n s
    · cases h
  | wakeBitset th addr n bits =>
    simp only [step] at h
    split at h
    · rw [← Option.some.inj h]
      exact Calm.wakeLoop _ _ n s
    · cases h
  | cmpRequeue th addr newAddr nrWake nrRequeue =>
    simp only [step] at h
    split at h
    · rw [← Option.some.inj h]
      exact Calm.cmpRequeue s addr newAddr nrWake nrRequeue
    · cases h
  | switchTo th =>
    simp only [step] at h
    split at h
    · rename_i hcpu
      cases h
      have hne : (s.thread th).cpu ≠ .off := by simp [hcpu]
      exact (Calm.futexClear (hs.awake hne)).trans
        (Calm.setThread (s.futexClear th) th (fun i => Iff.rfl) (hs.state_ne hne))
    · cases h
  | exitClear th =>
    simp only [step] at h
    split at h
    · rename_i hat
      cases h
      have hne : (s.thread th).cpu ≠ .off := by simp [hat.1]
      refine (Calm.futexClear (hs.awake hne)).trans
        (Calm.setThread (s.futexClear th) th (fun i => ?_) (hs.state_ne hne))
      have hplace : ((s.futexClear th).thread th).place = .user := hat.2
      simp [hplace]
    · cases h
  | exitTid th =>
    simp only [step] at h
    split at h
    · rename_i hat
      cases h
      simp only [exitTid]
      exact (Calm.setWord s _).trans (Calm.setThread _ th (fun i => by simp [hat.2]) (by simp))
    · cases h
  | _ =>
    obtain rfl | ⟨th, t, hr⟩ := rewrites_cases rfl h
    · exact Calm.refl s'
    · have hawake : t.state ≠ .sleeping ∧ t.state ≠ .timing := by
        rcases hr.awake with hawake | ⟨hsame, hcpu⟩
        · exact hawake
        · rw [hsame]
          exact hs.state_ne (by simp [hcpu])
      rw [hr.eq]
      exact Calm.setThread s th hr.queued hawake

theorem Inv.calm (hs : s.Inv) (h : Calm s s') : s'.Inv where
  own i hv := by
    rw [h.owner i, h.place]
    exact hs.own i (h.valid i hv)
  off u ha := by
    obtain ⟨ha, hcpu⟩ := h.asleep u ha
    rw [hcpu]
    exact hs.off u ha

theorem Inv.wait (hs : s.Inv) (h : s.step (.wait th now) = some s') : s'.Inv := by
  obtain ⟨addr, val, ts, kind, i, bits, hat, hfree, hq, -, hother, hplace, hcpu, -⟩ := wait_cases h
  constructor
  · intro j hv
    rw [hq, update_apply] at hv ⊢
    split at hv
    · rename_i hj
      rw [if_pos hj, hj]
      exact hplace
    · rename_i hj
      rw [if_neg hj]
      have hown := hs.own j hv
      have hne : (s.queue j).thread ≠ th := by
        intro heq
        rw [heq, hat.2] at hown
        cases hown
      rw [hother _ hne]
      exact hown
  · intro u ha
    by_cases hu : u = th
    · rw [hu]
      exact hcpu
    · rw [Asleep, hother u hu] at ha
      rw [hother u hu]
      exact hs.off u ha

theorem Inv.cleanUp (hs : s.Inv) (h : s.step (.cleanUp th) = some s') : s'.Inv := by
  obtain ⟨i, hat, rfl⟩ := cleanUp_cases h
  constructor
  · intro j hv
    simp only [setThread_queue, cleanUp_queue] at hv ⊢
    split at hv
    · cases hv
    · rename_i hj
      have hown := hs.own j hv
      have hne : (s.queue j).thread ≠ th := by
        intro heq
        rw [heq, hat.2] at hown
        cases hown
        exact hj rfl
      rw [if_neg hj, setThread_thread, if_neg hne, cleanUp_thread]
      exact hown
  · intro u ha
    simp only [Asleep, setThread_thread, cleanUp_thread] at ha ⊢
    split at ha
    · rename_i hu
      exact absurd ha (hs.awake (by simp [hat.1]))
    · rename_i hu
      rw [if_neg hu]
      exact hs.off u ha

theorem Inv.step (hs : s.Inv) (h : s.step a = some s') : s'.Inv := by
  by_cases hwait : ∃ th now, a = .wait th now
  · obtain ⟨th, now, rfl⟩ := hwait
    exact hs.wait h
  · by_cases hclean : ∃ th, a = .cleanUp th
    · obtain ⟨th, rfl⟩ := hclean
      exact hs.cleanUp h
    · push Not at hwait hclean
      exact hs.calm (hs.step_calm h hwait hclean)

theorem Inv.boot (h : Boot s) : s.Inv where
  own i hv := by
    rw [h.queue] at hv
    cases hv
  off u ha := absurd ha (fun ha => ha.elim (h.awake u).1 (h.awake u).2)

/-! ## Runs without reuse -/

/-- A waiter does not take a slot that another thread has yet to clean up. -/
def TakesCleanSlot (s : Sys) (a : Act) : Prop :=
  ∀ th now i, a = .wait th now → s.freeSlot = some i → ∀ u, (s.thread u).place ≠ .queued i

/-- Further, what holds if no slot is reused too early: a sleeping thread has an entry, and no two
threads will clean up one slot. -/
structure Clean (s : Sys) : Prop extends s.Inv where
  entry : ∀ u, s.Asleep u → ∃ i, s.Holds i u
  apart : ∀ u v i, (s.thread u).place = .queued i → (s.thread v).place = .queued i → u = v

theorem Clean.calm (hs : s.Clean) (h : Calm s s') : s'.Clean where
  toInv := hs.toInv.calm h
  entry u ha := by
    obtain ⟨i, hv, howner⟩ := hs.entry u (h.asleep u ha).1
    refine ⟨i, ?_, (h.owner i).trans howner⟩
    cases hv' : (s'.queue i).valid with
    | true => rfl
    | false =>
      have := h.gone i hv hv'
      rw [howner] at this
      exact absurd ha this
  apart u v i hu hv := hs.apart u v i ((h.place u i).mp hu) ((h.place v i).mp hv)

theorem Clean.wait (hs : s.Clean) (h : s.step (.wait th now) = some s')
    (hslot : s.TakesCleanSlot (.wait th now)) : s'.Clean := by
  refine ⟨hs.toInv.wait h, ?_, ?_⟩
  all_goals
    obtain ⟨addr, val, ts, kind, i, bits, hat, hfree, hq, -, hother, hplace, -, -⟩ := wait_cases h
  · intro u ha
    by_cases hu : u = th
    · refine ⟨i, ?_⟩
      rw [Holds, hq, Function.update_self]
      exact ⟨rfl, hu.symm⟩
    · rw [Asleep, hother u hu] at ha
      obtain ⟨j, hv, howner⟩ := hs.entry u ha
      have hj : j ≠ i := by
        rintro rfl
        rw [freeSlot_free hfree] at hv
        cases hv
      refine ⟨j, ?_⟩
      rw [Holds, hq, update_of_ne hj]
      exact ⟨hv, howner⟩
  · -- The new place is not that of another thread, which is what the condition says.
    have hnew : ∀ u, u ≠ th → (s'.thread u).place ≠ .queued i := by
      intro u hu
      rw [hother u hu]
      exact hslot th now i rfl hfree u
    intro u v j hu hv
    by_cases hut : u = th
    · by_cases hvt : v = th
      · rw [hut, hvt]
      · rw [hut, hplace] at hu
        cases hu
        exact absurd hv (hnew v hvt)
    · by_cases hvt : v = th
      · rw [hvt, hplace] at hv
        cases hv
        exact absurd hu (hnew u hut)
      · rw [hother u hut] at hu
        rw [hother v hvt] at hv
        exact hs.apart u v j hu hv

theorem Clean.cleanUp (hs : s.Clean) (h : s.step (.cleanUp th) = some s') : s'.Clean := by
  refine ⟨hs.toInv.cleanUp h, ?_, ?_⟩
  all_goals obtain ⟨i, hat, rfl⟩ := cleanUp_cases h
  · intro u ha
    simp only [Asleep, setThread_thread, cleanUp_thread] at ha
    split at ha
    · exact absurd ha (hs.awake (by simp [hat.1]))
    · rename_i hu
      obtain ⟨j, hv, howner⟩ := hs.entry u ha
      have hj : j ≠ i := by
        rintro rfl
        have hplace := hs.own j hv
        rw [howner] at hplace
        exact hu (hs.apart u th j hplace hat.2)
      refine ⟨j, ?_⟩
      rw [Holds, setThread_queue, cleanUp_queue, if_neg hj]
      exact ⟨hv, howner⟩
  · intro u v j hu hv
    simp only [setThread_thread, cleanUp_thread] at hu hv
    split at hu
    · cases hu
    · split at hv
      · cases hv
      · exact hs.apart u v j hu hv

theorem Clean.step (hs : s.Clean) (h : s.step a = some s') (hslot : s.TakesCleanSlot a) : s'.Clean := by
  by_cases hwait : ∃ th now, a = .wait th now
  · obtain ⟨th, now, rfl⟩ := hwait
    exact hs.wait h hslot
  · by_cases hclean : ∃ th, a = .cleanUp th
    · obtain ⟨th, rfl⟩ := hclean
      exact hs.cleanUp h
    · push Not at hwait hclean
      exact hs.calm (hs.toInv.step_calm h hwait hclean)

theorem Clean.boot (h : Boot s) : s.Clean where
  toInv := Inv.boot h
  entry u ha := absurd ha (fun ha => ha.elim (h.awake u).1 (h.awake u).2)
  apart u v i hu _ := by
    rw [h.place u] at hu
    cases hu

/-! ## The queue belongs to its waiters -/

end Sys

namespace Act

/-- The entries that a wake is for. -/
def selects : Act → Entry → Bool
  | .wake _ addr _ => Sys.onAddr addr
  | .wakeBitset _ addr _ bits => Sys.onBits addr bits
  | .cmpRequeue _ addr _ _ _ => Sys.onAddr addr
  | _ => fun _ => false

/-- The thread for which a section runs `futex_clear` or the end of `futex_wait`. -/
def clears : Act → Option Tid
  | .switchTo th | .exitClear th | .cleanUp th => some th
  | _ => none

/-- How many threads a wake may wake. -/
def limit : Act → Int
  | .wake _ _ n | .wakeBitset _ _ n _ | .cmpRequeue _ _ _ n _ => n
  | _ => 0

end Act

namespace Sys

variable {s s' s'' : Sys} {th u v : Tid} {i j : Slot} {a : Act}

/-- How many threads a wake wakes. -/
def woken (s : Sys) (a : Act) : Int := (s.wakeLoop a.selects (List.finRange FUTEX_COUNT) a.limit).2

/-- An entry is removed only for its own waiter, a sleeping thread has one entry, and a wake that is
for this entry wakes the thread or as many others as it may. -/
structure Owned (s : Sys) : Prop where
  removed : ∀ a s' i, s.step a = some s' → (s.queue i).valid = true → (s'.queue i).valid = false →
    a.selects (s.queue i) = true ∨ a.clears = some (s.queue i).thread
  entry : ∀ u, (s.thread u).state = .sleeping → ∃! i, s.Holds i u
  found : ∀ a s' u i, s.step a = some s' → (s.thread u).state = .sleeping → s.Holds i u →
    a.selects (s.queue i) = true → (s'.thread u).state = .runnable ∨ a.limit ≤ s.woken a

theorem requeueLoop_thread (addr newAddr : UInt64) (is : List Slot) (n : Int) (s : Sys) :
    (s.requeueLoop addr newAddr is n).1.thread = s.thread := by
  fun_induction Sys.requeueLoop addr newAddr is n s with
  | case1 n s => rfl
  | case2 i is n s hn hsel s' requeued hrest ih =>
    rw [hrest] at ih
    exact ih
  | case3 i is n s hn hsel ih => exact ih
  | case4 i is n s hn => rfl

theorem requeueLoop_queue (addr newAddr : UInt64) (is : List Slot) (n : Int) (s : Sys) (j : Slot) :
    (s.requeueLoop addr newAddr is n).1.queue j = s.queue j ∨
      (s.requeueLoop addr newAddr is n).1.queue j = { s.queue j with addr := newAddr } := by
  fun_induction Sys.requeueLoop addr newAddr is n s with
  | case1 n s => exact .inl rfl
  | case2 i is n s hn hsel s' requeued hrest ih =>
    rw [hrest] at ih
    rw [setSlot_queue] at ih
    split at ih
    · rename_i hj
      rw [hj] at ih ⊢
      exact .inr (ih.elim id id)
    · exact ih
  | case3 i is n s hn hsel ih => exact ih
  | case4 i is n s hn => exact .inl rfl

theorem requeueLoop_valid (addr newAddr : UInt64) (is : List Slot) (n : Int) (s : Sys) (j : Slot) :
    ((s.requeueLoop addr newAddr is n).1.queue j).valid = (s.queue j).valid := by
  rcases requeueLoop_queue addr newAddr is n s j with hq | hq
  · rw [hq]
  · rw [hq]

/-- The three wakes run the wake loop; what follows it changes no thread and removes no entry. -/
theorem step_of_selects (h : s.step a = some s') (hsel : a.selects (s.queue i) = true) :
    s'.thread = (s.wakeLoop a.selects (List.finRange FUTEX_COUNT) a.limit).1.thread := by
  cases a with
  | wake th addr n =>
    simp only [step] at h
    split at h
    · rw [← Option.some.inj h]
      simp only [futexWake, Act.selects, Act.limit]
    · cases h
  | wakeBitset th addr n bits =>
    simp only [step] at h
    split at h
    · rw [← Option.some.inj h]
      simp only [futexWakeBitset, Act.selects, Act.limit]
    · cases h
  | cmpRequeue th addr newAddr nrWake nrRequeue =>
    simp only [step] at h
    split at h
    · rw [← Option.some.inj h]
      simp only [futexCmpRequeue, requeueLoop_thread, Act.selects, Act.limit]
    · cases h
  | _ => cases hsel

/-- In the wake loops, an entry is removed because it is selected. -/
theorem wakeLoop_removed {sel : Entry → Bool} {is : List Slot} {n : Int}
    (hv : (s.queue i).valid = true) (hv' : ((s.wakeLoop sel is n).1.queue i).valid = false) :
    sel (s.queue i) = true := by
  obtain hsame | ⟨-, hsel, -⟩ := wakeLoop_queue sel is n s i
  · rw [hsame, hv] at hv'
    cases hv'
  · exact hsel

theorem futexClear_removed (hv : (s.queue i).valid = true)
    (hv' : ((s.futexClear th).queue i).valid = false) : (s.queue i).thread = th := by
  simp only [futexClear] at hv'
  split at hv'
  · rename_i hown
    simpa [hv] using hown
  · rw [hv] at hv'
    cases hv'

theorem Clean.removed (hs : s.Clean) (h : s.step a = some s') (hv : (s.queue i).valid = true)
    (hv' : (s'.queue i).valid = false) :
    a.selects (s.queue i) = true ∨ a.clears = some (s.queue i).thread := by
  -- A section that does not touch the queue removes nothing.
  have hsame : s'.queue ≠ s.queue := by
    intro hq
    rw [hq, hv] at hv'
    cases hv'
  cases a with
  | store word =>
    cases h
    exact absurd rfl hsame
  | wait th now =>
    obtain ⟨addr, val, ts, kind, j, bits, -, -, hq, -⟩ := wait_cases h
    rw [hq, update_apply] at hv'
    split at hv'
    · cases hv'
    · rw [hv] at hv'
      cases hv'
  | cleanUp th =>
    obtain ⟨j, hat, rfl⟩ := cleanUp_cases h
    rw [setThread_queue, cleanUp_queue] at hv'
    split at hv'
    · rename_i hj
      have hplace := hs.own i hv
      rw [hj] at hplace ⊢
      exact .inr (congrArg some (hs.apart th _ j hat.2 hplace))
    · rw [hv] at hv'
      cases hv'
  | wake th addr n =>
    simp only [Sys.step] at h
    split at h
    · rw [← Option.some.inj h] at hv'
      rw [futexWake] at hv'
      have hsel := wakeLoop_removed hv hv'
      exact .inl hsel
    · cases h
  | wakeBitset th addr n bits =>
    simp only [Sys.step] at h
    split at h
    · rw [← Option.some.inj h] at hv'
      rw [futexWakeBitset] at hv'
      have hsel := wakeLoop_removed hv hv'
      exact .inl hsel
    · cases h
  | cmpRequeue th addr newAddr nrWake nrRequeue =>
    simp only [Sys.step] at h
    split at h
    · rw [← Option.some.inj h] at hv'
      simp only [futexCmpRequeue, requeueLoop_valid] at hv'
      have hsel := wakeLoop_removed hv hv'
      exact .inl hsel
    · cases h
  | switchTo th =>
    simp only [Sys.step] at h
    split at h
    · cases h
      exact .inr (congrArg some (futexClear_removed hv hv').symm)
    · cases h
  | exitClear th =>
    simp only [Sys.step] at h
    split at h
    · cases h
      exact .inr (congrArg some (futexClear_removed hv hv').symm)
    · cases h
  | exitTid th =>
    simp only [Sys.step] at h
    split at h
    · cases h
      exact absurd rfl hsame
    · cases h
  | _ =>
    obtain rfl | ⟨th, t, hr⟩ := rewrites_cases rfl h
    · exact absurd rfl hsame
    · exact absurd (congrArg queue hr.eq) hsame

theorem Clean.owned (hs : s.Clean) : s.Owned where
  removed a s' i h hv hv' := hs.removed h hv hv'
  entry u hu := by
    obtain ⟨i, hi⟩ := hs.entry u (.inl hu)
    refine ⟨i, hi, ?_⟩
    rintro j ⟨hv, howner⟩
    have hplacei := hs.own i hi.1
    have hplacej := hs.own j hv
    rw [hi.2] at hplacei
    rw [howner, hplacei] at hplacej
    cases hplacej
    rfl
  found a s' u i h hu hi hsel := by
    rw [step_of_selects h hsel, ← hi.2]
    obtain ⟨hrun, -⟩ | hall := wakeLoop_finds a.selects a.limit s hi.1 hsel
    · exact .inl hrun
    · exact .inr hall

/-- A step of a run. -/
def Step (s s' : Sys) : Prop := ∃ a, s.step a = some s'

/-- A step in which no waiter takes a slot that another thread has yet to clean up. -/
def CleanStep (s s' : Sys) : Prop := ∃ a, s.step a = some s' ∧ s.TakesCleanSlot a

theorem CleanStep.step (s s' : Sys) (h : CleanStep s s') : Step s s' := by
  obtain ⟨a, hstep, -⟩ := h
  exact ⟨a, hstep⟩

/-! ## Two schedules -/

/-- A kernel with an empty queue: each thread is the only one of its process and runs; every word is 0. -/
def fresh : Sys where
  queue := emptyQueue
  waitingCount := 0
  thread th := ⟨th, .running, 0, false, 0, .user, .on⟩
  threadQueue p := [p]
  word _ _ := some 0

theorem boot_fresh : Boot fresh where
  queue := rfl
  waitingCount := rfl
  place _ := rfl
  awake _ := ⟨nofun, nofun⟩

/-- The first slot. -/
def firstSlot : Slot := ⟨0, by decide⟩

/-- `th` sleeps on `addr` without a time limit, in the first slot. -/
def sleepFirst (s : Sys) (th : Tid) (addr : UInt64) : Sys :=
  { s.setSlot firstSlot ⟨addr, th, true, 0xffffffff⟩ with waitingCount := s.waitingCount + 1 }.setThread th
    { s.thread th with awakeTime := 0, state := .sleeping, place := .queued firstSlot, cpu := .off }

theorem finRange_slots : ∃ rest, List.finRange FUTEX_COUNT = firstSlot :: rest := ⟨_, List.finRange_succ⟩

theorem freeSlot_first (h : (s.queue firstSlot).valid = false) : s.freeSlot = some firstSlot := by
  obtain ⟨rest, hrest⟩ := finRange_slots
  rw [freeSlot, hrest, List.find?_cons_of_pos]
  rw [h]
  rfl

theorem step_wait_first {val : UInt32} {addr : UInt64} {now : Timespec}
    (hat : s.At th (.checked addr val none .plain)) (hfree : (s.queue firstSlot).valid = false) :
    s.step (.wait th now) = some (s.sleepFirst th addr) := by
  simp only [step, hat.1, hat.2, futexWait, freeSlot_first hfree, Option.map_some]
  rfl

theorem step_wake_first {addr : UInt64} (hat : s.At th .user) (hv : (s.queue firstSlot).valid = true)
    (haddr : (s.queue firstSlot).addr = addr) : s.step (.wake th addr 1) = some (s.wakeEntry firstSlot) := by
  have hsel : ((s.queue firstSlot).valid && onAddr addr (s.queue firstSlot)) = true := by simp [hv, onAddr, haddr]
  have hloop : s.futexWake addr 1 = (s.wakeEntry firstSlot, 1) := by
    obtain ⟨rest, hrest⟩ := finRange_slots
    rw [futexWake, hrest, wakeLoop, if_pos (by decide), if_pos hsel]
    cases rest <;> simp [wakeLoop]
  simp only [step, if_pos hat, hloop]

/-- Thread 0 waits. -/
def oneAsleep : Sys := (fresh.sysFutexCompare 0 16 0 none .plain).sleepFirst 0 16

/-- Thread 0 has been woken, and thread 1 waits in the slot that became free. -/
def slotReused : Sys := (((oneAsleep.wakeEntry firstSlot).sysFutexCompare 1 16 0 none .plain).sleepFirst 1 16)

theorem reaches_oneAsleep : Reaches CleanStep fresh oneAsleep := by
  have hcompare : CleanStep fresh (fresh.sysFutexCompare 0 16 0 none .plain) :=
    ⟨.compare 0 16 0 none .plain, rfl, fun _ _ _ h => nomatch h⟩
  have hplace : ∀ u, ((fresh.sysFutexCompare 0 16 0 none .plain).thread u).place ≠ .queued firstSlot := by
    intro u
    by_cases hu : u = 0
    · subst hu
      exact nofun
    · have : (fresh.sysFutexCompare 0 16 0 none .plain).thread u = fresh.thread u := update_of_ne hu _ _
      rw [this]
      exact nofun
  have hwait : CleanStep (fresh.sysFutexCompare 0 16 0 none .plain) oneAsleep := by
    have hat : (fresh.sysFutexCompare 0 16 0 none .plain).At 0 (.checked 16 0 none .plain) := ⟨rfl, rfl⟩
    refine ⟨.wait 0 ⟨0, 0⟩, step_wait_first hat rfl, ?_⟩
    intro th now i _ hfree u
    rw [freeSlot_first rfl] at hfree
    cases hfree
    exact hplace u
  exact (Relation.ReflTransGen.single hcompare).tail hwait

/-- Thread 2 wakes thread 0, and thread 1 goes to sleep before thread 0 runs again. -/
theorem reaches_slotReused : Reaches Step fresh slotReused := by
  have hasleep : Reaches Step fresh oneAsleep := reaches_oneAsleep.weaken CleanStep.step
  have hwake : Step oneAsleep (oneAsleep.wakeEntry firstSlot) :=
    ⟨.wake 2 16 1, step_wake_first ⟨rfl, rfl⟩ rfl rfl⟩
  have hcompare : Step (oneAsleep.wakeEntry firstSlot)
      ((oneAsleep.wakeEntry firstSlot).sysFutexCompare 1 16 0 none .plain) :=
    ⟨.compare 1 16 0 none .plain, rfl⟩
  have hwait : Step ((oneAsleep.wakeEntry firstSlot).sysFutexCompare 1 16 0 none .plain) slotReused := by
    have hat : ((oneAsleep.wakeEntry firstSlot).sysFutexCompare 1 16 0 none .plain).At 1
        (.checked 16 0 none .plain) := ⟨rfl, rfl⟩
    exact ⟨.wait 1 ⟨0, 0⟩, step_wait_first hat rfl⟩
  exact ((hasleep.tail hwake).tail hcompare).tail hwait

/-- Thread 0 runs again. -/
def wokenRuns : Sys :=
  let chosen := slotReused.setThread 0
    { slotReused.thread 0 with state := .running, awakeTime := 0, cpu := .chosen }
  (chosen.futexClear 0).setThread 0 { chosen.thread 0 with cpu := .on }

theorem reaches_wokenRuns : Reaches Step fresh wokenRuns := by
  have hschedule : Step slotReused (slotReused.setThread 0
      { slotReused.thread 0 with state := .running, awakeTime := 0, cpu := .chosen }) :=
    ⟨.schedule 0 ⟨0, 0⟩, rfl⟩
  have hswitch : Step (slotReused.setThread 0
      { slotReused.thread 0 with state := .running, awakeTime := 0, cpu := .chosen }) wokenRuns :=
    ⟨.switchTo 0, rfl⟩
  exact (reaches_slotReused.tail hschedule).tail hswitch

/-! ## The result -/

end Sys

end SC7.Futex
