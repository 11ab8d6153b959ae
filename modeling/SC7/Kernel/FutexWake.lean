-- SUMMARY: When a futex wake-up is lost: between the comparison and the queue, and at the exit of a thread that others wait for.
import SC7.Kernel.FutexQueue

/-!
# Lost wake-ups

`sys_futex` compares the word before `futex_wait` takes `fq_lock`, so a store and a wake may come in
between. `thread_exit` clears the word that joining threads wait on, and does not wake them.
-/

namespace SC7.Futex

namespace Sys

variable {s s' : Sys} {th u T : Tid} {i j : Slot} {a : Act} {addr : UInt64}

/-! ## What a section changes -/

/-- Only a comparison that succeeds leads to the place behind it. -/
theorem Moves.checked {val : UInt32} {ts : Option Timespec} {kind : WaitKind}
    (h : s.Moves a u (.checked addr val ts kind)) :
    a = .compare u addr val ts kind ∧ s.word (s.thread u).p addr = some val := by
  cases a with
  | compare th addr' val' ts' kind' =>
    obtain ⟨rfl, -, hword, heq⟩ := h
    cases heq
    exact ⟨rfl, hword⟩
  | wait th now =>
    obtain ⟨-, -, k, hk⟩ := h
    cases hk
  | cleanUp th | exitClear th | exitTid th =>
    obtain ⟨-, -, hk⟩ := h
    cases hk
  | exitSwitch th =>
    obtain ⟨-, -, hk | hk⟩ := h <;> cases hk
  | _ => exact h.elim

/-- What a section leaves of a thread's record. -/
structure Keeps (s s' : Sys) (a : Act) (u : Tid) : Prop where
  p : (s'.thread u).p = (s.thread u).p
  place : (s'.thread u).place = (s.thread u).place ∨ s.Moves a u (s'.thread u).place
  clearChildTid : (s'.thread u).clearChildTid = (s.thread u).clearChildTid ∨ a = .exitTid u

theorem Keeps.of_eq {a : Act} (h : s'.thread u = s.thread u) : Keeps s s' a u where
  p := by rw [h]
  place := .inl (by rw [h])
  clearChildTid := .inl (by rw [h])

/-- A new record for one thread. -/
theorem Keeps.setThread {s₁ : Sys} {t : Thread} (hsame : s₁.thread = s.thread)
    (hp : t.p = (s.thread th).p) (hplace : t.place = (s.thread th).place ∨ s.Moves a th t.place)
    (htid : t.clearChildTid = (s.thread th).clearChildTid ∨ a = .exitTid th) (u : Tid) :
    Keeps s (s₁.setThread th t) a u := by
  by_cases hu : u = th
  · subst hu
    have heq : (s₁.setThread u t).thread u = t := by rw [setThread_thread, if_pos rfl]
    exact ⟨by rw [heq, hp], by rw [heq]; exact hplace, by rw [heq]; exact htid⟩
  · exact Keeps.of_eq (by rw [setThread_thread, if_neg hu, hsame])

theorem wakeLoop_keeps (sel : Entry → Bool) (is : List Slot) (n : Int) (s : Sys) (u : Tid) :
    ((s.wakeLoop sel is n).1.thread u).p = (s.thread u).p ∧
      ((s.wakeLoop sel is n).1.thread u).place = (s.thread u).place ∧
      ((s.wakeLoop sel is n).1.thread u).clearChildTid = (s.thread u).clearChildTid := by
  fun_induction Sys.wakeLoop sel is n s with
  | case1 n s => exact ⟨rfl, rfl, rfl⟩
  | case2 i is n s hn hsel s' woken hrest ih =>
    rw [hrest] at ih
    simp only [wakeEntry, setThread_thread, setSlot_thread] at ih
    split at ih
    · rename_i hu
      rw [hu] at ih ⊢
      exact ih
    · exact ih
  | case3 i is n s hn hsel ih => exact ih
  | case4 i is n s hn => exact ⟨rfl, rfl, rfl⟩

theorem Keeps.wakeLoop (sel : Entry → Bool) (n : Int)
    (h : s'.thread = (s.wakeLoop sel (List.finRange FUTEX_COUNT) n).1.thread) :
    Keeps s s' a u := by
  obtain ⟨hp, hplace, htid⟩ := wakeLoop_keeps sel (List.finRange FUTEX_COUNT) n s u
  exact ⟨by rw [h, hp], .inl (by rw [h, hplace]), .inl (by rw [h, htid])⟩

theorem step_keeps (h : s.step a = some s') (u : Tid) : Keeps s s' a u := by
  cases a with
  | store word =>
    cases h
    exact Keeps.of_eq rfl
  | wait th now =>
    simp only [step] at h
    split at h
    · rename_i addr val ts kind hcpu hplace
      obtain ⟨i, -, rfl⟩ := Option.map_eq_some_iff.mp h
      refine Keeps.setThread (by rfl) ?_ (.inr ?_) (.inl ?_) u
      · split <;> rfl
      · exact ⟨rfl, ⟨addr, val, ts, kind, hcpu, hplace⟩, i, rfl⟩
      · split <;> rfl
    · cases h
  | cleanUp th =>
    obtain ⟨i, hat, rfl⟩ := cleanUp_cases h
    refine Keeps.setThread (by exact cleanUp_thread s i) (by rfl) (.inr ?_) (.inl (by rfl)) u
    exact ⟨rfl, ⟨i, hat⟩, rfl⟩
  | wake th addr n =>
    simp only [step, futexWake] at h
    split at h
    · rw [← Option.some.inj h]
      exact Keeps.wakeLoop (onAddr addr) n rfl
    · cases h
  | wakeBitset th addr n bits =>
    simp only [step, futexWakeBitset] at h
    split at h
    · rw [← Option.some.inj h]
      exact Keeps.wakeLoop (onBits addr bits) n rfl
    · cases h
  | cmpRequeue th addr newAddr nrWake nrRequeue =>
    simp only [step, futexCmpRequeue] at h
    split at h
    · rw [← Option.some.inj h]
      refine Keeps.wakeLoop (onAddr addr) nrWake ?_
      simp only [requeueLoop_thread]
    · cases h
  | switchTo th =>
    simp only [step] at h
    split at h
    · cases h
      exact Keeps.setThread (by rfl) (by rfl) (.inl (by rfl)) (.inl (by rfl)) u
    · cases h
  | exitClear th =>
    simp only [step] at h
    split at h
    · rename_i hat
      cases h
      refine Keeps.setThread (by rfl) (by rfl) (.inr ?_) (.inl (by rfl)) u
      exact ⟨rfl, hat, rfl⟩
    · cases h
  | exitTid th =>
    simp only [step, exitTid] at h
    split at h
    · rename_i hat
      cases h
      refine Keeps.setThread (by rfl) (by rfl) (.inr ?_) (.inr (by rfl)) u
      exact ⟨rfl, hat, rfl⟩
    · cases h
  | _ =>
    obtain rfl | ⟨th, t, hr⟩ := rewrites_cases rfl h
    · exact Keeps.of_eq rfl
    · rw [hr.eq]
      exact Keeps.setThread rfl hr.p hr.place (.inl hr.clearChildTid) u

/-- An entry is as before, or its thread has just gone to sleep, or it has a new address. -/
theorem step_entry (h : s.step a = some s') (hv : (s'.queue j).valid = true) :
    s'.queue j = s.queue j ∨
      (∃ th now addr val ts kind, a = .wait th now ∧ s.At th (.checked addr val ts kind) ∧
        (s'.queue j).thread = th ∧ (s'.queue j).addr = addr) ∨
      ∃ th addr newAddr nrWake nrRequeue, a = .cmpRequeue th addr newAddr nrWake nrRequeue ∧
        s'.queue j = { s.queue j with addr := newAddr } := by
  -- The wake loops free a slot or leave it.
  have hloop : ∀ (sel : Entry → Bool) (n : Int),
      ((s.wakeLoop sel (List.finRange FUTEX_COUNT) n).1.queue j).valid = true →
        (s.wakeLoop sel (List.finRange FUTEX_COUNT) n).1.queue j = s.queue j := by
    intro sel n hv
    obtain hsame | ⟨-, -, hfree⟩ := wakeLoop_queue sel (List.finRange FUTEX_COUNT) n s j
    · exact hsame
    · rw [hfree] at hv
      cases hv
  have hclear : ∀ th, ((s.futexClear th).queue j).valid = true → (s.futexClear th).queue j = s.queue j := by
    intro th hv
    simp only [futexClear] at hv ⊢
    split at hv
    · cases hv
    · rename_i hother
      rw [if_neg hother]
  cases a with
  | store word =>
    cases h
    exact .inl rfl
  | wait th now =>
    obtain ⟨addr, val, ts, kind, i, bits, hat, -, hq, -⟩ := wait_cases h
    by_cases hj : j = i
    · refine .inr (.inl ⟨th, now, addr, val, ts, kind, rfl, hat, ?_, ?_⟩)
      · rw [hq, hj, Function.update_self]
      · rw [hq, hj, Function.update_self]
    · rw [hq, Function.update_of_ne hj]
      exact .inl rfl
  | cleanUp th =>
    obtain ⟨i, -, rfl⟩ := cleanUp_cases h
    rw [setThread_queue, cleanUp_queue] at hv ⊢
    split at hv
    · cases hv
    · rename_i hj
      rw [if_neg hj]
      exact .inl rfl
  | wake th addr n =>
    simp only [step, futexWake] at h
    split at h
    · rw [← Option.some.inj h] at hv ⊢
      exact .inl (hloop _ n hv)
    · cases h
  | wakeBitset th addr n bits =>
    simp only [step, futexWakeBitset] at h
    split at h
    · rw [← Option.some.inj h] at hv ⊢
      exact .inl (hloop _ n hv)
    · cases h
  | cmpRequeue th addr newAddr nrWake nrRequeue =>
    simp only [step, futexCmpRequeue] at h
    split at h
    · rw [← Option.some.inj h] at hv ⊢
      rw [requeueLoop_valid] at hv
      have hsame := hloop _ nrWake hv
      obtain hq | hq := requeueLoop_queue addr newAddr (List.finRange FUTEX_COUNT) nrRequeue
        (s.wakeLoop (onAddr addr) (List.finRange FUTEX_COUNT) nrWake).1 j
      · exact .inl (hq.trans hsame)
      · rw [hsame] at hq
        exact .inr (.inr ⟨th, addr, newAddr, nrWake, nrRequeue, rfl, hq⟩)
    · cases h
  | switchTo th =>
    simp only [step] at h
    split at h
    · cases h
      exact .inl (hclear th hv)
    · cases h
  | exitClear th =>
    simp only [step] at h
    split at h
    · cases h
      exact .inl (hclear th hv)
    · cases h
  | exitTid th =>
    simp only [step] at h
    split at h
    · cases h
      exact .inl rfl
    · cases h
  | _ =>
    obtain rfl | ⟨th, t, hr⟩ := rewrites_cases rfl h
    · exact .inl rfl
    · rw [hr.eq]
      exact .inl rfl

/-! ## Between the comparison and the queue -/

/-- How many entries are on `addr`. -/
def waiters (s : Sys) (addr : UInt64) : Nat :=
  (List.finRange FUTEX_COUNT).countP fun i => (s.queue i).valid && onAddr addr (s.queue i)

/-- `th` has called `FUTEX_WAIT` on `addr`: it is in the queue, or it has passed the comparison and
the word has changed since. -/
def Committed (s : Sys) (th : Tid) (addr : UInt64) : Prop :=
  (∃ val ts kind, (s.thread th).place = .checked addr val ts kind ∧
      s.word (s.thread th).p addr ≠ some val) ∨
    ∃ i, s.Holds i th ∧ (s.queue i).addr = addr

/-- A step in which `th` makes no new call of `FUTEX_WAIT`. -/
def StepWithin (th : Tid) (s s' : Sys) : Prop :=
  ∃ a, s.step a = some s' ∧ ∀ addr val ts kind, a ≠ .compare th addr val ts kind

/-- A wake on `addr` from `s₁` to `s₂` is lost for `th`: it finds fewer than `n` waiters, and `th`,
which had called `FUTEX_WAIT` before, is queued and asleep in the later state `s₃`. -/
structure LostWake (s₁ s₂ s₃ : Sys) (th u : Tid) (addr : UInt64) (n : Int) : Prop where
  wake : s₁.step (.wake u addr n) = some s₂
  few : (s₁.waiters addr : Int) < n
  committed : s₁.Committed th addr
  rest : Reaches (StepWithin th) s₂ s₃
  asleep : s₃.Asleep th
  queued : ∃ i, s₃.Holds i th

/-- No thread is between its comparison and the queue with a value that the word has lost. -/
def NoneBetween (s : Sys) (addr : UInt64) : Prop :=
  ∀ th val ts kind, (s.thread th).place = .checked addr val ts kind → s.word (s.thread th).p addr = some val

theorem wakeEntry_queue (s : Sys) (i j : Slot) :
    (s.wakeEntry i).queue j = if j = i then { s.queue i with valid := false } else s.queue j := by
  simp only [wakeEntry, setThread_queue, setSlot_queue]

/-- A wake wakes no more threads than it finds. -/
theorem wakeLoop_le {is : List Slot} (hnd : is.Nodup) (sel : Entry → Bool) (n : Int) (s : Sys) :
    (s.wakeLoop sel is n).2 ≤ is.countP fun i => (s.queue i).valid && sel (s.queue i) := by
  fun_induction Sys.wakeLoop sel is n s with
  | case1 n s => exact le_refl 0
  | case2 i is n s hn hsel s' woken hrest ih =>
    rw [hrest] at ih
    obtain ⟨hnot, hnd⟩ := List.nodup_cons.mp hnd
    -- The slots that are left are as before.
    have hsame : (is.countP fun j =>
          ((s.wakeEntry i).queue j).valid && sel ((s.wakeEntry i).queue j)) =
        is.countP fun j => (s.queue j).valid && sel (s.queue j) := by
      refine List.countP_congr fun j hj => ?_
      have hne : j ≠ i := fun heq => hnot (heq ▸ hj)
      rw [wakeEntry_queue, if_neg hne]
    have hcount := ih hnd
    rw [hsame] at hcount
    rw [List.countP_cons_of_pos (by exact hsel)]
    simp only at hcount ⊢
    omega
  | case3 i is n s hn hsel ih =>
    rw [List.countP_cons_of_neg (by exact hsel)]
    exact ih (List.nodup_cons.mp hnd).2
  | case4 i is n s hn => exact Int.natCast_nonneg _

/-- The thread of an entry that is woken is out of the queue. -/
theorem Inv.woken_out (hs : s.Inv) {n : Int} (h : s.step (.wake u addr n) = some s')
    (hi : s.Holds i th) (haddr : (s.queue i).addr = addr) (hfew : (s.waiters addr : Int) < n) :
    (∀ j, ¬ s'.Holds j th) ∧ ∃ k, (s'.thread th).place = .queued k := by
  have hplace := hs.own i hi.1
  rw [hi.2] at hplace
  have hs' := hs.step h
  have hkeeps := step_keeps h th
  have hplace' : (s'.thread th).place = .queued i := by
    obtain hsame | hmove := hkeeps.place
    · exact hsame.trans hplace
    · exact hmove.elim
  refine ⟨?_, i, hplace'⟩
  rintro j ⟨hv, howner⟩
  have hj := hs'.own j hv
  rw [howner, hplace'] at hj
  cases hj
  -- The slot was selected, so a wake that could have woken more has freed it.
  simp only [Sys.step, futexWake] at h
  split at h
  · rw [← Option.some.inj h] at hv
    have hle := wakeLoop_le (List.nodup_finRange FUTEX_COUNT) (onAddr addr) n s
    have hsel : onAddr addr (s.queue i) = true := by rw [onAddr, haddr, beq_self_eq_true]
    obtain ⟨-, hfree⟩ | hall := wakeLoop_finds (onAddr addr) n s hi.1 hsel
    · rw [hfree] at hv
      cases hv
    · rw [waiters] at hfew
      omega
  · cases h

/-- Once out of the queue, a thread comes back only by a new call. -/
theorem out_stays (h : StepWithin th s s')
    (hs : (∀ j, ¬ s.Holds j th) ∧ ∀ addr val ts kind, (s.thread th).place ≠ .checked addr val ts kind) :
    (∀ j, ¬ s'.Holds j th) ∧ ∀ addr val ts kind, (s'.thread th).place ≠ .checked addr val ts kind := by
  obtain ⟨a, hstep, hnew⟩ := h
  obtain ⟨hout, hplace⟩ := hs
  constructor
  · rintro j ⟨hv, howner⟩
    obtain hsame | ⟨u, now, addr, val, ts, kind, -, hat, hu, -⟩ | ⟨u, addr, newAddr, m, k, -, hq⟩ :=
      step_entry hstep hv
    · rw [hsame] at hv howner
      exact hout j ⟨hv, howner⟩
    · rw [howner] at hu
      rw [← hu] at hat
      exact hplace addr val ts kind hat.2
    · rw [hq] at hv howner
      exact hout j ⟨hv, howner⟩
  · intro addr val ts kind hchecked
    obtain hsame | hmove := (step_keeps hstep th).place
    · rw [hsame] at hchecked
      exact hplace addr val ts kind hchecked
    · rw [hchecked] at hmove
      obtain ⟨rfl, -⟩ := hmove.checked
      exact hnew _ _ _ _ rfl

/-- A wake that finds enough waiters, or that comes when no thread is between its comparison and the
queue, is not lost. -/
theorem futex_wake_heard {s₀ s₁ s₂ s₃ : Sys} {addr : UInt64} {n : Int} (hboot : Boot s₀)
    (hrun : Reaches Step s₀ s₁) (hnone : (s₁.waiters addr : Int) < n → s₁.NoneBetween addr) :
    ¬ LostWake s₁ s₂ s₃ th u addr n := by
  intro hlost
  have hinv : s₁.Inv := hrun.invariant (Inv.boot hboot) fun _ _ ht ⟨_, hstep⟩ => ht.step hstep
  obtain ⟨val, ts, kind, hplace, hword⟩ | ⟨i, hi, haddr⟩ := hlost.committed
  · exact hword (hnone hlost.few th val ts kind hplace)
  · obtain ⟨hout, k, hplace⟩ := hinv.woken_out hlost.wake hi haddr hlost.few
    have hstart : (∀ j, ¬ s₂.Holds j th) ∧
        ∀ addr val ts kind, (s₂.thread th).place ≠ .checked addr val ts kind := by
      refine ⟨hout, fun addr val ts kind => ?_⟩
      rw [hplace]
      exact nofun
    obtain ⟨hout', -⟩ := hlost.rest.invariant hstart fun _ _ ht hstep => out_stays hstep ht
    obtain ⟨j, hj⟩ := hlost.queued
    exact hout' j hj

theorem noneBetween_oneAsleep (addr : UInt64) : oneAsleep.NoneBetween addr := by
  intro th val ts kind hplace
  by_cases hth : th = 0
  · subst hth
    cases hplace
  · have hsame : oneAsleep.thread th = fresh.thread th := by
      rw [oneAsleep, sleepFirst, setThread_thread, if_neg hth]
      exact Function.update_of_ne hth _ _
    rw [hsame] at hplace
    cases hplace

/-- Thread 0 sleeps, and thread 2 wakes up to two threads. -/
theorem futex_wake_heard_oneAsleep :
    ¬ LostWake oneAsleep (oneAsleep.wakeEntry firstSlot) (oneAsleep.wakeEntry firstSlot) 0 2 16 2 :=
  futex_wake_heard boot_fresh (reaches_oneAsleep.weaken CleanStep.step) fun _ => noneBetween_oneAsleep 16

/-- Thread 0 has compared the word with 0, then the word becomes 1. -/
def wordChanged : Sys := { fresh.sysFutexCompare 0 16 0 none .plain with word := fun _ _ => some 1 }

theorem waiters_emptyQueue {s : Sys} (h : s.queue = emptyQueue) (addr : UInt64) : s.waiters addr = 0 := by
  rw [waiters, List.countP_eq_zero, h]
  intro i _
  exact nofun

theorem futexWake_emptyQueue {s : Sys} (h : s.queue = emptyQueue) (addr : UInt64) (n : Int) :
    s.futexWake addr n = (s, 0) := by
  have hloop : ∀ is : List Slot, s.wakeLoop (onAddr addr) is n = (s, 0) := by
    intro is
    induction is with
    | nil => rfl
    | cons i is ih =>
      have hv : ((s.queue i).valid && onAddr addr (s.queue i)) ≠ true := by
        rw [h]
        exact nofun
      rw [wakeLoop, if_neg hv, ih, ite_self]
  exact hloop _

/-- Thread 0 compares, another thread stores and wakes, thread 0 goes to sleep. -/
theorem exists_lostWake : ∃ s₀ s₁ s₂ s₃ th u addr n,
    Boot s₀ ∧ Reaches Step s₀ s₁ ∧ LostWake s₁ s₂ s₃ th u addr n := by
  have hcompare : Step fresh (fresh.sysFutexCompare 0 16 0 none .plain) :=
    ⟨.compare 0 16 0 none .plain, rfl⟩
  have hstore : Step (fresh.sysFutexCompare 0 16 0 none .plain) wordChanged :=
    ⟨.store fun _ _ => some 1, rfl⟩
  have hrun : Reaches Step fresh wordChanged := (Relation.ReflTransGen.single hcompare).tail hstore
  have hwake : wordChanged.step (.wake 1 16 1) = some wordChanged := by
    have hat : wordChanged.At 1 .user := ⟨rfl, rfl⟩
    simp only [step, if_pos hat, futexWake_emptyQueue (show wordChanged.queue = emptyQueue from rfl)]
  have hat : wordChanged.At 0 (.checked 16 0 none .plain) := ⟨rfl, rfl⟩
  refine ⟨fresh, wordChanged, wordChanged, wordChanged.sleepFirst 0 16, 0, 1, 16, 1, boot_fresh, hrun,
    ⟨hwake, ?_, .inl ⟨0, none, .plain, rfl, by rintro ⟨⟩⟩, .single ⟨.wait 0 ⟨0, 0⟩, ?_, fun _ _ _ _ => Act.noConfusion⟩, .inl rfl,
      firstSlot, rfl, rfl⟩⟩
  · rw [waiters_emptyQueue rfl]
    decide
  · exact step_wait_first hat rfl

/-! ## Joining a thread that exits -/

/-- `th` has run `thread_exit` past the section that clears its word. -/
def Cleared (s : Sys) (th : Tid) : Prop :=
  (s.thread th).place = .switching ∨ (s.thread th).place = .procExit ∨ (s.thread th).place = .gone

/-- `u` is in `FUTEX_WAIT` on `addr`: past the comparison, or in the queue. -/
def WaitsOn (s : Sys) (u : Tid) (addr : UInt64) : Prop :=
  (∃ val ts kind, (s.thread u).place = .checked addr val ts kind) ∨ ∃ i, s.Holds i u ∧ (s.queue i).addr = addr

/-- Once `T` has switched to the scheduler, the word is 0 and no thread of the process sleeps on it. -/
def Released (s : Sys) (T : Tid) (addr : UInt64) : Prop :=
  (s.thread T).place = .gone →
    s.word (s.thread T).p addr = some 0 ∧
      ∀ u i, (s.thread u).p = (s.thread T).p → s.Holds i u → (s.queue i).addr = addr → ¬ s.Asleep u

/-- Sections that may come while threads join `T` on `addr`: no other thread writes the word, and no
other waiter is moved to it. -/
def Joins (addr : UInt64) : Act → Prop
  | .store _ => False
  | .cmpRequeue _ _ newAddr _ _ => newAddr ≠ addr
  | _ => True

/-- A step of such a run. -/
def JoinStep (addr : UInt64) (s s' : Sys) : Prop := ∃ a, s.step a = some s' ∧ Joins addr a

/-- The word is cleared when it can be written and no thread of the process waits on it, and a thread
that waits later does not wait for the word to stay 0. -/
def LateJoin (s : Sys) (T : Tid) (addr : UInt64) : Act → Prop
  | .exitTid th =>
    th = T → s.word (s.thread T).p addr ≠ none ∧ ∀ u, (s.thread u).p = (s.thread T).p → ¬ s.WaitsOn u addr
  | .compare u addr' val _ _ => addr' = addr → (s.thread u).p = (s.thread T).p → val ≠ 0
  | _ => True

/-- A step of a run in which all threads join late. -/
def LateJoinStep (T : Tid) (addr : UInt64) (s s' : Sys) : Prop :=
  ∃ a, s.step a = some s' ∧ Joins addr a ∧ s.LateJoin T addr a

@[simp] theorem wakeLoop_word (sel : Entry → Bool) (is : List Slot) (n : Int) (s : Sys) :
    (s.wakeLoop sel is n).1.word = s.word := by
  fun_induction Sys.wakeLoop sel is n s with
  | case1 n s => rfl
  | case2 i is n s hn hsel s' woken hrest ih =>
    rw [hrest] at ih
    exact ih
  | case3 i is n s hn hsel ih => exact ih
  | case4 i is n s hn => rfl

@[simp] theorem requeueLoop_word (addr newAddr : UInt64) (is : List Slot) (n : Int) (s : Sys) :
    (s.requeueLoop addr newAddr is n).1.word = s.word := by
  fun_induction Sys.requeueLoop addr newAddr is n s with
  | case1 n s => rfl
  | case2 i is n s hn hsel s' requeued hrest ih =>
    rw [hrest] at ih
    exact ih
  | case3 i is n s hn hsel ih => exact ih
  | case4 i is n s hn => rfl

/-- A thread that exits writes 0 to its word, if it can be written. -/
theorem exitTid_word (s : Sys) (th : Tid) (p : Pid) (addr : UInt64) :
    (s.exitTid th).word p addr =
      if p = (s.thread th).p ∧ addr = (s.thread th).clearChildTid ∧ addr ≠ 0 ∧ s.word p addr ≠ none
      then some 0 else s.word p addr := by
  simp only [exitTid, setThread_word]
  by_cases hwrite : (s.thread th).clearChildTid ≠ 0 ∧
      s.word (s.thread th).p (s.thread th).clearChildTid ≠ none
  · rw [if_pos hwrite, Function.update_apply]
    by_cases hp : p = (s.thread th).p
    · rw [if_pos hp, Function.update_apply, ← hp]
      by_cases haddr : addr = (s.thread th).clearChildTid
      · rw [if_pos haddr, if_pos ⟨rfl, haddr, by rw [haddr, hp]; exact hwrite⟩]
      · rw [if_neg haddr, if_neg (fun h => haddr h.2.1)]
    · rw [if_neg hp, if_neg (fun h => hp h.1)]
  · rw [if_neg hwrite, if_neg]
    rintro ⟨rfl, rfl, hok⟩
    exact hwrite hok

/-- While threads join on `addr`, a word changes to 0 only. -/
theorem step_word (h : s.step a = some s') (hjoin : Joins addr a) (p : Pid)
    (addr' : UInt64) : s'.word p addr' = s.word p addr' ∨ s'.word p addr' = some 0 := by
  cases a with
  | store word => exact hjoin.elim
  | wait th now =>
    obtain ⟨-, -, -, -, -, -, -, -, -, hword, -⟩ := wait_cases h
    rw [hword]
    exact .inl rfl
  | cleanUp th =>
    obtain ⟨i, -, rfl⟩ := cleanUp_cases h
    rw [setThread_word, cleanUp_word]
    exact .inl rfl
  | wake th addr n =>
    simp only [step, futexWake] at h
    split at h
    · rw [← Option.some.inj h, wakeLoop_word]
      exact .inl rfl
    · cases h
  | wakeBitset th addr n bits =>
    simp only [step, futexWakeBitset] at h
    split at h
    · rw [← Option.some.inj h, wakeLoop_word]
      exact .inl rfl
    · cases h
  | cmpRequeue th addr newAddr nrWake nrRequeue =>
    simp only [step, futexCmpRequeue] at h
    split at h
    · rw [← Option.some.inj h, requeueLoop_word, wakeLoop_word]
      exact .inl rfl
    · cases h
  | exitTid th =>
    simp only [step] at h
    split at h
    · rw [← Option.some.inj h, exitTid_word]
      split
      · exact .inr rfl
      · exact .inl rfl
    · cases h
  | switchTo th | exitClear th =>
    simp only [step] at h
    split at h
    · cases h
      exact .inl rfl
    · cases h
  | _ =>
    obtain rfl | ⟨th, t, hr⟩ := rewrites_cases rfl h
    · exact .inl rfl
    · rw [hr.eq]
      exact .inl rfl

/-- A thread starts to wait on `addr` by a comparison that succeeds. -/
theorem waitsOn_step (h : s.step a = some s') (hjoin : Joins addr a) (hwaits : s'.WaitsOn u addr) :
    s.WaitsOn u addr ∨ ∃ val ts kind, a = .compare u addr val ts kind ∧
      s.word (s.thread u).p addr = some val := by
  obtain ⟨val, ts, kind, hplace⟩ | ⟨i, ⟨hv, howner⟩, haddr⟩ := hwaits
  · obtain hsame | hmove := (step_keeps h u).place
    · exact .inl (.inl ⟨val, ts, kind, hsame ▸ hplace⟩)
    · rw [hplace] at hmove
      exact .inr ⟨val, ts, kind, hmove.checked⟩
  · obtain hsame | ⟨th, now, addr', val, ts, kind, -, hat, hth, haddr'⟩ |
        ⟨th, addr', newAddr, m, k, rfl, hq⟩ := step_entry h hv
    · rw [hsame] at hv howner haddr
      exact .inl (.inr ⟨i, ⟨hv, howner⟩, haddr⟩)
    · rw [howner] at hth
      rw [haddr] at haddr'
      subst hth haddr'
      exact .inl (.inl ⟨val, ts, kind, hat.2⟩)
    · rw [hq] at haddr
      exact absurd haddr hjoin

/-- What a run of late joins keeps: before the word is cleared the thread still knows its address;
afterwards the word is 0 and no thread of the process waits on it. -/
def JoinInv (T : Tid) (addr : UInt64) (s : Sys) : Prop :=
  ¬ s.Cleared T ∧ (s.thread T).clearChildTid = addr ∨
    s.Cleared T ∧ s.word (s.thread T).p addr = some 0 ∧
      ∀ u, (s.thread u).p = (s.thread T).p → ¬ s.WaitsOn u addr

/-- The word is cleared by the section that is for it. -/
theorem cleared_step (h : s.step a = some s') (hcl : s'.Cleared T) : s.Cleared T ∨ a = .exitTid T := by
  obtain hsame | hmove := (step_keeps h T).place
  · rw [Cleared, hsame] at hcl
    exact .inl hcl
  · cases a with
    | exitTid th =>
      obtain ⟨rfl, -, -⟩ := hmove
      exact .inr rfl
    | exitSwitch th =>
      obtain ⟨rfl, hat, -⟩ := hmove
      exact .inl (.inl hat.2)
    | compare th addr val ts kind =>
      obtain ⟨-, -, -, hk⟩ := hmove
      rw [Cleared, hk] at hcl
      obtain h | h | h := hcl <;> cases h
    | wait th now =>
      obtain ⟨-, -, k, hk⟩ := hmove
      rw [Cleared, hk] at hcl
      obtain h | h | h := hcl <;> cases h
    | cleanUp th =>
      obtain ⟨-, -, hk⟩ := hmove
      rw [Cleared, hk] at hcl
      obtain h | h | h := hcl <;> cases h
    | exitClear th =>
      obtain ⟨-, -, hk⟩ := hmove
      rw [Cleared, hk] at hcl
      obtain h | h | h := hcl <;> cases h
    | _ => exact hmove.elim

/-- A thread does not come back from there. -/
theorem Cleared.step (hcl : s.Cleared T) (h : s.step a = some s') : s'.Cleared T := by
  -- The other sections start at a place that is not one of these.
  have hnot : ∀ q, s.At T q → q = .switching ∨ q = .procExit ∨ q = .gone := by
    rintro q ⟨-, rfl⟩
    exact hcl
  obtain hsame | hmove := (step_keeps h T).place
  · rw [Cleared, hsame]
    exact hcl
  · cases a with
    | compare th addr val ts kind =>
      obtain ⟨rfl, hat, -⟩ := hmove
      obtain h | h | h := hnot _ hat <;> cases h
    | wait th now =>
      obtain ⟨rfl, ⟨_, _, _, _, hat⟩, -⟩ := hmove
      obtain h | h | h := hnot _ hat <;> cases h
    | cleanUp th =>
      obtain ⟨rfl, ⟨_, hat⟩, -⟩ := hmove
      obtain h | h | h := hnot _ hat <;> cases h
    | exitClear th =>
      obtain ⟨rfl, hat, -⟩ := hmove
      obtain h | h | h := hnot _ hat <;> cases h
    | exitTid th =>
      obtain ⟨rfl, hat, -⟩ := hmove
      obtain h | h | h := hnot _ hat <;> cases h
    | exitSwitch th =>
      obtain ⟨-, -, hk | hk⟩ := hmove
      · exact .inr (.inl hk)
      · exact .inr (.inr hk)
    | _ => exact hmove.elim

theorem JoinInv.step (haddr : addr ≠ 0) (hs : JoinInv T addr s)
    (h : LateJoinStep T addr s s') : JoinInv T addr s' := by
  obtain ⟨a, hstep, hjoin, hlate⟩ := h
  have hp : ∀ u, (s'.thread u).p = (s.thread u).p := fun u => (step_keeps hstep u).p
  obtain ⟨hnot, htid⟩ | ⟨hcl, hword, hnone⟩ := hs
  · by_cases hexit : a = .exitTid T
    · subst hexit
      obtain ⟨hwrite, hnone⟩ := hlate rfl
      have hat : s.At T .exiting := by
        simp only [Sys.step] at hstep
        split at hstep
        · assumption
        · cases hstep
      have hs' : s' = s.exitTid T := by
        simp only [Sys.step, if_pos hat] at hstep
        exact (Option.some.inj hstep).symm
      refine .inr ⟨.inl ?_, ?_, ?_⟩
      · rw [hs', exitTid, setThread_thread, if_pos rfl]
      · rw [hp T, hs', exitTid_word, if_pos ⟨rfl, htid.symm, haddr, hwrite⟩]
      · intro u hu hwaits
        rw [hp u, hp T] at hu
        obtain hbefore | ⟨val, ts, kind, heq, -⟩ := waitsOn_step hstep hjoin hwaits
        · exact hnone u hu hbefore
        · cases heq
    · refine .inl ⟨fun hcl => ?_, ?_⟩
      · obtain hcl | heq := cleared_step hstep hcl
        · exact hnot hcl
        · exact hexit heq
      · obtain hsame | heq := (step_keeps hstep T).clearChildTid
        · exact hsame.trans htid
        · exact absurd heq hexit
  · refine .inr ⟨hcl.step hstep, ?_, ?_⟩
    · rw [hp T]
      obtain hsame | hzero := step_word hstep hjoin (s.thread T).p addr
      · exact hsame.trans hword
      · exact hzero
    · intro u hu hwaits
      rw [hp u, hp T] at hu
      obtain hbefore | ⟨val, ts, kind, rfl, hval⟩ := waitsOn_step hstep hjoin hwaits
      · exact hnone u hu hbefore
      · rw [hu, hword] at hval
        exact hlate rfl hu (Option.some.inj hval).symm

/-- If every join comes after the word is cleared, the exit leaves no thread behind. -/
theorem thread_exit_releases {s₀ : Sys} {T : Tid} {addr : UInt64} (haddr : addr ≠ 0)
    (htid : (s₀.thread T).clearChildTid = addr) (hplace : (s₀.thread T).place = .user)
    (hrun : Reaches (LateJoinStep T addr) s₀ s) : s.Released T addr := by
  have hstart : JoinInv T addr s₀ := by
    refine .inl ⟨?_, htid⟩
    rw [Cleared, hplace]
    rintro (h | h | h) <;> cases h
  intro hgone
  obtain ⟨hnot, -⟩ | ⟨-, hword, hnone⟩ := hrun.invariant hstart fun _ _ ht hstep => ht.step haddr hstep
  · exact absurd (.inr (.inr hgone)) hnot
  · refine ⟨hword, fun u i hu hi hon => ?_⟩
    exact absurd (.inr ⟨i, hi, hon⟩) (hnone u hu)

/-- A process with thread 0, whose word is at 16 and holds 7, and thread 1, which runs first. -/
def twoThreads : Sys where
  queue := emptyQueue
  waitingCount := 0
  thread th :=
    if th = 0 then ⟨0, .runnable, 0, false, 16, .user, .off⟩
    else ⟨0, .running, 0, false, 0, .user, .on⟩
  threadQueue _ := [0, 1]
  word _ _ := some 7

theorem boot_twoThreads : Boot twoThreads where
  queue := rfl
  waitingCount := rfl
  place th := by
    simp only [twoThreads]
    split <;> rfl
  awake th := by
    simp only [twoThreads]
    split <;> exact ⟨nofun, nofun⟩

/-- The scheduler switches to thread 0. -/
def switched (s : Sys) : Sys :=
  let chosen := s.setThread 0 { s.thread 0 with state := .running, awakeTime := 0, cpu := .chosen }
  (chosen.futexClear 0).setThread 0 { chosen.thread 0 with cpu := .on }

/-- Thread 0 enters `thread_exit`. -/
def entered (s : Sys) : Sys :=
  (s.switched.futexClear 0).setThread 0 { s.switched.thread 0 with place := .exiting }

/-- Thread 0 leaves for good. -/
def left (s : Sys) : Sys := (s.entered.exitTid 0).setThread 0
    { (s.entered.exitTid 0).thread 0 with place := .gone, cpu := .off }

/-- Thread 1 is interrupted before it joins. -/
def notYetJoined : Sys := twoThreads.setThread 1 { twoThreads.thread 1 with state := .runnable, cpu := .off }

/-- No thread waits on the word when thread 0 clears it. -/
theorem not_waitsOn_entered (u : Tid) : ¬ notYetJoined.entered.WaitsOn u 16 := by
  rintro (⟨val, ts, kind, hplace⟩ | ⟨i, ⟨hv, -⟩, -⟩)
  · by_cases hu : u = 0
    · subst hu
      cases hplace
    · simp only [entered, switched, notYetJoined, setThread_thread, futexClear, if_neg hu] at hplace
      split at hplace
      · cases hplace
      · simp only [twoThreads, if_neg hu] at hplace
        cases hplace
  · simp only [entered, switched, notYetJoined, setThread_queue, futexClear, twoThreads, emptyQueue] at hv
    cases hv

theorem reaches_left : Reaches (LateJoinStep 0 16) twoThreads notYetJoined.left := by
  have hyield : LateJoinStep 0 16 twoThreads notYetJoined := ⟨.yield 1, rfl, trivial, trivial⟩
  have hschedule : LateJoinStep 0 16 notYetJoined (notYetJoined.setThread 0
      { notYetJoined.thread 0 with state := .running, awakeTime := 0, cpu := .chosen }) :=
    ⟨.schedule 0 ⟨0, 0⟩, rfl, trivial, trivial⟩
  have hswitch : LateJoinStep 0 16 (notYetJoined.setThread 0
      { notYetJoined.thread 0 with state := .running, awakeTime := 0, cpu := .chosen })
      notYetJoined.switched := ⟨.switchTo 0, rfl, trivial, trivial⟩
  have henter : LateJoinStep 0 16 notYetJoined.switched notYetJoined.entered :=
    ⟨.exitClear 0, rfl, trivial, trivial⟩
  have htid : LateJoinStep 0 16 notYetJoined.entered (notYetJoined.entered.exitTid 0) :=
    ⟨.exitTid 0, rfl, trivial, fun _ => ⟨nofun, fun u _ => not_waitsOn_entered u⟩⟩
  have hleave : LateJoinStep 0 16 (notYetJoined.entered.exitTid 0) notYetJoined.left :=
    ⟨.exitSwitch 0, rfl, trivial, trivial⟩
  exact (((((Relation.ReflTransGen.single hyield).tail hschedule).tail hswitch).tail henter).tail
    htid).tail hleave

/-- Thread 1 has not joined yet when thread 0 exits. -/
theorem thread_exit_releases_twoThreads :
    (notYetJoined.left.thread 0).place = .gone ∧ notYetJoined.left.Released 0 16 :=
  ⟨rfl, thread_exit_releases (by decide) rfl rfl reaches_left⟩

/-- Thread 1 sleeps until thread 0 exits. -/
def joined : Sys := (twoThreads.sysFutexCompare 1 16 7 none .plain).sleepFirst 1 16

/-- Thread 1 still sleeps after thread 0 has exited. -/
theorem exists_not_released : ∃ s₀ s T addr, Boot s₀ ∧ addr ≠ 0 ∧
    (s₀.thread T).clearChildTid = addr ∧ Reaches (JoinStep addr) s₀ s ∧ ¬ s.Released T addr := by
  have hcompare : JoinStep 16 twoThreads (twoThreads.sysFutexCompare 1 16 7 none .plain) :=
    ⟨.compare 1 16 7 none .plain, rfl, trivial⟩
  have hat : (twoThreads.sysFutexCompare 1 16 7 none .plain).At 1 (.checked 16 7 none .plain) :=
    ⟨rfl, rfl⟩
  have hwait : JoinStep 16 (twoThreads.sysFutexCompare 1 16 7 none .plain) joined :=
    ⟨.wait 1 ⟨0, 0⟩, step_wait_first hat rfl, trivial⟩
  have hschedule : JoinStep 16 joined (joined.setThread 0
      { joined.thread 0 with state := .running, awakeTime := 0, cpu := .chosen }) :=
    ⟨.schedule 0 ⟨0, 0⟩, rfl, trivial⟩
  have hswitch : JoinStep 16 (joined.setThread 0
      { joined.thread 0 with state := .running, awakeTime := 0, cpu := .chosen }) joined.switched :=
    ⟨.switchTo 0, rfl, trivial⟩
  have henter : JoinStep 16 joined.switched joined.entered := ⟨.exitClear 0, rfl, trivial⟩
  have htid : JoinStep 16 joined.entered (joined.entered.exitTid 0) := ⟨.exitTid 0, rfl, trivial⟩
  have hleave : JoinStep 16 (joined.entered.exitTid 0) joined.left := ⟨.exitSwitch 0, rfl, trivial⟩
  have hrun : Reaches (JoinStep 16) twoThreads joined.left :=
    ((((((Relation.ReflTransGen.single hcompare).tail hwait).tail hschedule).tail hswitch).tail
      henter).tail htid).tail hleave
  refine ⟨twoThreads, joined.left, 0, 16, boot_twoThreads, by decide, rfl, hrun, fun hreleased => ?_⟩
  exact (hreleased rfl).2 1 firstSlot rfl ⟨rfl, rfl⟩ rfl (.inl rfl)

end Sys

end SC7.Futex
