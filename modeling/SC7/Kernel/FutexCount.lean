-- SUMMARY: What the futex operations do to the whole queue: which waiters they wake and move, and the counter of waiters.
import SC7.Base.Tally
import SC7.Kernel.FutexWake

/-!
# Waiters counted

The loops of the operations look at every slot once, and an operation on one slot changes no other. A
loop is therefore a choice, made on the queue as it was at the start, and the operation on every slot
that was chosen.
-/

namespace SC7.Futex

/-- One section of the futex code under `fq_lock`; `futex_requeue` as a whole. A thread resumes in the
slot that it was given. -/
inductive QueueOp where
  | wait (addr : UInt64) (th : Tid) (ts : Option Timespec) (kind : WaitKind) (now : Timespec)
  | resume (i : Slot)
  | wake (addr : UInt64) (n : Int)
  | wakeBitset (addr : UInt64) (n : Int) (bits : UInt32)
  | requeue (addr : UInt64) (n : Int) (newAddr : UInt64)
  | cmpRequeue (addr newAddr : UInt64) (nrWake nrRequeue : Int)
  | clear (th : Tid)

namespace Sys

/-- The first loop of `futex_requeue`. Its bound counts down to 0, so that a negative one is none, and
`waiting_count` is left alone. -/
def requeueWakeLoop (addr : UInt64) : List Slot → Int → Sys → Sys
  | [], _, s => s
  | i :: is, n, s =>
    if n ≠ 0 then
      if (s.queue i).valid && onAddr addr (s.queue i) then
        requeueWakeLoop addr is (n - 1)
          ((s.setSlot i { s.queue i with valid := false }).setThread (s.queue i).thread
            { s.thread (s.queue i).thread with state := .runnable })
      else requeueWakeLoop addr is n s
    else s

/-- `futex_requeue`. It takes no lock. -/
def futexRequeue (s : Sys) (addr : UInt64) (n : Int) (newAddr : UInt64) : Sys :=
  let s := requeueWakeLoop addr (List.finRange FUTEX_COUNT) n s
  { s with
    queue := fun i =>
      if (s.queue i).valid && onAddr addr (s.queue i) then { s.queue i with addr := newAddr } else s.queue i }

/-- The slots in use for an address. -/
def waitersOn (s : Sys) (addr : UInt64) : Finset Slot :=
  Finset.univ.filter fun i => (s.queue i).valid = true ∧ (s.queue i).addr = addr

/-- No thread waits twice. -/
def DistinctThreads (s : Sys) : Prop :=
  ∀ i j, (s.queue i).valid = true → (s.queue j).valid = true → (s.queue i).thread = (s.queue j).thread → i = j

/-- The waiters in `ks` have been woken and those in `ms` moved to `newAddr`; nothing else but the
counter has changed. -/
structure Wakes (s s' : Sys) (ks ms : Finset Slot) (newAddr : UInt64) : Prop where
  queue : ∀ i, s'.queue i =
    if i ∈ ks then { s.queue i with valid := false }
    else if i ∈ ms then { s.queue i with addr := newAddr }
    else s.queue i
  thread : ∀ u, s'.thread u =
    if ∃ i ∈ ks, (s.queue i).thread = u then { s.thread u with state := .runnable, timeoutOccurred := false }
    else s.thread u
  threadQueue : s'.threadQueue = s.threadQueue
  word : s'.word = s.word

/-- The valid slots. -/
def validSlots (s : Sys) : Finset Slot := Finset.univ.filter fun i => (s.queue i).valid = true

/-- `waiting_count` is the number of valid entries. -/
def Counted (s : Sys) : Prop := s.waitingCount = s.validSlots.card

variable {s s' : Sys} {th u : Tid} {i j : Slot} {sel : Entry → Bool} {is ks : List Slot} {n : Int}
  {addr newAddr : UInt64}

/-! ## Loops as choices -/

section Choices

/-- The slots that a loop with this bound picks. -/
def chosen (s : Sys) (sel : Entry → Bool) (is : List Slot) (n : Int) : List Slot :=
  (is.filter fun i => (s.queue i).valid && sel (s.queue i)).take n.toNat

theorem chosen_congr (h : ∀ j ∈ is, s'.queue j = s.queue j) : s'.chosen sel is n = s.chosen sel is n := by
  unfold chosen
  congr 1
  apply List.filter_congr
  intro j hj
  rw [h j hj]

theorem chosen_nil (s : Sys) (sel : Entry → Bool) (n : Int) : s.chosen sel [] n = [] := List.take_nil

theorem chosen_cons_of_sel (hn : 0 < n) (hsel : ((s.queue i).valid && sel (s.queue i)) = true) :
    s.chosen sel (i :: is) n = i :: s.chosen sel is (n - 1) := by
  obtain ⟨k, hk⟩ : ∃ k : Nat, n = k + 1 := ⟨(n - 1).toNat, by omega⟩
  unfold chosen
  rw [List.filter_cons_of_pos (by simpa using hsel), show n.toNat = (n - 1).toNat + 1 by omega, List.take_succ_cons]

theorem chosen_cons_of_not_sel (hsel : ¬((s.queue i).valid && sel (s.queue i)) = true) :
    s.chosen sel (i :: is) n = s.chosen sel is n := by
  unfold chosen
  rw [List.filter_cons_of_neg (by simpa using hsel)]

theorem chosen_of_nonpos (hn : ¬0 < n) : s.chosen sel is n = [] := by
  unfold chosen
  rw [show n.toNat = 0 by omega, List.take_zero]

theorem wakeEntry_thread (s : Sys) (i : Slot) (u : Tid) :
    (s.wakeEntry i).thread u =
      if u = (s.queue i).thread then { s.thread u with state := .runnable, timeoutOccurred := false }
      else s.thread u := by
  unfold wakeEntry
  rw [setThread_thread]
  split
  · rename_i hu
    rw [hu]
  · rfl

/-- The wake loops, as a choice. -/
theorem wakeLoop_eq (hnodup : is.Nodup) :
    s.wakeLoop sel is n = ((s.chosen sel is n).foldl wakeEntry s, ((s.chosen sel is n).length : Int)) := by
  fun_induction wakeLoop sel is n s with
  | case1 n s => rw [chosen_nil]; rfl
  | case2 i is n s hn hsel s' woken hrest ih =>
    obtain ⟨hi, his⟩ := List.nodup_cons.mp hnodup
    have hsame : ∀ j ∈ is, (s.wakeEntry i).queue j = s.queue j := by
      intro j hj
      rw [wakeEntry_queue, if_neg fun h : j = i => hi (h ▸ hj)]
    rw [chosen_cons_of_sel hn hsel, List.foldl_cons, List.length_cons]
    rw [hrest, chosen_congr hsame] at ih
    obtain ⟨rfl, rfl⟩ := Prod.mk.inj (ih his)
    rfl
  | case3 i is n s hn hsel ih =>
    rw [chosen_cons_of_not_sel hsel]
    exact ih (List.nodup_cons.mp hnodup).2
  | case4 i is n s hn => rw [chosen_of_nonpos hn]; rfl

/-- The body of the second loop of `futex_cmp_requeue`. -/
def moveEntry (newAddr : UInt64) (s : Sys) (i : Slot) : Sys := s.setSlot i { s.queue i with addr := newAddr }

/-- The requeue loop, as a choice. -/
theorem requeueLoop_eq (hnodup : is.Nodup) :
    s.requeueLoop addr newAddr is n =
      ((s.chosen (onAddr addr) is n).foldl (moveEntry newAddr) s, ((s.chosen (onAddr addr) is n).length : Int)) := by
  fun_induction requeueLoop addr newAddr is n s with
  | case1 n s => rw [chosen_nil]; rfl
  | case2 i is n s hn hsel s' requeued hrest ih =>
    obtain ⟨hi, his⟩ := List.nodup_cons.mp hnodup
    have hsame : ∀ j ∈ is, (s.setSlot i { s.queue i with addr := newAddr }).queue j = s.queue j := by
      intro j hj
      rw [setSlot_queue, if_neg fun h : j = i => hi (h ▸ hj)]
    rw [chosen_cons_of_sel hn hsel, List.foldl_cons, List.length_cons]
    rw [hrest, chosen_congr hsame] at ih
    obtain ⟨rfl, rfl⟩ := Prod.mk.inj (ih his)
    rfl
  | case3 i is n s hn hsel ih =>
    rw [chosen_cons_of_not_sel hsel]
    exact ih (List.nodup_cons.mp hnodup).2
  | case4 i is n s hn => rw [chosen_of_nonpos hn]; rfl

/-- What a wake does to the slots it is made for. -/
theorem foldl_wakeEntry_queue (ks : List Slot) (s : Sys) (j : Slot) :
    (ks.foldl wakeEntry s).queue j = if j ∈ ks then { s.queue j with valid := false } else s.queue j := by
  induction ks generalizing s with
  | nil => rfl
  | cons i ks ih =>
    rw [List.foldl_cons, ih, wakeEntry_queue]
    by_cases hj : j = i
    · subst hj
      simp
    · simp [hj]

theorem foldl_wakeEntry_thread (ks : List Slot) (s : Sys) (u : Tid) :
    (ks.foldl wakeEntry s).thread u =
      if ∃ i ∈ ks, (s.queue i).thread = u then { s.thread u with state := .runnable, timeoutOccurred := false }
      else s.thread u := by
  induction ks generalizing s with
  | nil => simp
  | cons i ks ih =>
    have hsame : ∀ j, ((s.wakeEntry i).queue j).thread = (s.queue j).thread := by
      intro j
      rw [wakeEntry_queue]
      split
      · rename_i hj
        rw [hj]
      · rfl
    rw [List.foldl_cons, ih]
    simp only [hsame, wakeEntry_thread, List.mem_cons, exists_eq_or_imp]
    by_cases hu : u = (s.queue i).thread
    · simp [hu]
    · rw [if_neg hu]
      simp [Ne.symm hu]

theorem foldl_moveEntry_queue (ks : List Slot) (s : Sys) (j : Slot) :
    (ks.foldl (moveEntry newAddr) s).queue j = if j ∈ ks then { s.queue j with addr := newAddr } else s.queue j := by
  induction ks generalizing s with
  | nil => rfl
  | cons i ks ih =>
    rw [List.foldl_cons, ih, moveEntry, setSlot_queue]
    by_cases hj : j = i
    · subst hj
      simp
    · simp [hj]

end Choices

/-! ## How many are chosen -/

section Counts

/-- The slots that a loop over the whole queue picks for an address. -/
def chosenSet (s : Sys) (addr : UInt64) (n : Int) : Finset Slot :=
  (s.chosen (onAddr addr) (List.finRange FUTEX_COUNT) n).toFinset

theorem waitersOn_eq (s : Sys) (addr : UInt64) :
    s.waitersOn addr =
      ((List.finRange FUTEX_COUNT).filter fun i => (s.queue i).valid && onAddr addr (s.queue i)).toFinset := by
  ext i
  simp [waitersOn, onAddr]

theorem nodup_chosen (s : Sys) (sel : Entry → Bool) (n : Int) : (s.chosen sel (List.finRange FUTEX_COUNT) n).Nodup :=
  ((List.nodup_finRange FUTEX_COUNT).filter _).sublist (List.take_sublist _ _)

theorem chosenSet_subset (s : Sys) (addr : UInt64) (n : Int) : s.chosenSet addr n ⊆ s.waitersOn addr := by
  intro i hi
  rw [waitersOn_eq, List.mem_toFinset]
  exact List.mem_of_mem_take (List.mem_toFinset.mp hi)

theorem card_chosenSet (s : Sys) (addr : UInt64) (n : Int) :
    ((s.chosenSet addr n).card : Int) = min (max n 0) (s.waitersOn addr).card := by
  have hnodup := (List.nodup_finRange FUTEX_COUNT).filter fun i => (s.queue i).valid && onAddr addr (s.queue i)
  rw [waitersOn_eq, chosenSet, List.toFinset_card_of_nodup (nodup_chosen s _ n), List.toFinset_card_of_nodup hnodup, chosen,
    List.length_take]
  omega

theorem length_chosen (s : Sys) (addr : UInt64) (n : Int) :
    (s.chosen (onAddr addr) (List.finRange FUTEX_COUNT) n).length = (s.chosenSet addr n).card :=
  (List.toFinset_card_of_nodup (nodup_chosen s _ n)).symm

theorem foldl_wakeEntry_rest (ks : List Slot) (s : Sys) :
    (ks.foldl wakeEntry s).threadQueue = s.threadQueue ∧ (ks.foldl wakeEntry s).word = s.word ∧
      (ks.foldl wakeEntry s).waitingCount = s.waitingCount - ks.length := by
  induction ks generalizing s with
  | nil => exact ⟨rfl, rfl, (Int.sub_zero _).symm⟩
  | cons i ks ih =>
    obtain ⟨hqueue, hword, hcount⟩ := ih (s.wakeEntry i)
    refine ⟨hqueue, hword, ?_⟩
    rw [List.foldl_cons, hcount, List.length_cons, show (s.wakeEntry i).waitingCount = s.waitingCount - 1 from rfl]
    omega

theorem foldl_moveEntry_rest (newAddr : UInt64) (ks : List Slot) (s : Sys) :
    (ks.foldl (moveEntry newAddr) s).threadQueue = s.threadQueue ∧ (ks.foldl (moveEntry newAddr) s).word = s.word ∧
      (ks.foldl (moveEntry newAddr) s).thread = s.thread ∧
      (ks.foldl (moveEntry newAddr) s).waitingCount = s.waitingCount := by
  induction ks generalizing s with
  | nil => exact ⟨rfl, rfl, rfl, rfl⟩
  | cons i ks ih => exact ih (moveEntry newAddr s i)

/-- The waiters that a wake leaves. -/
theorem waitersOn_foldl (ks : List Slot) (s : Sys) (addr : UInt64) :
    (ks.foldl wakeEntry s).waitersOn addr = s.waitersOn addr \ ks.toFinset := by
  ext i
  simp only [waitersOn, Finset.mem_filter, Finset.mem_univ, true_and, Finset.mem_sdiff, List.mem_toFinset,
    foldl_wakeEntry_queue]
  by_cases hi : i ∈ ks <;> simp [hi]

/-- Woken threads are as many as the entries they waited in. -/
theorem card_threads (hdistinct : s.DistinctThreads) {set : Finset Slot} (h : set ⊆ s.waitersOn addr) :
    (set.image fun i => (s.queue i).thread).card = set.card := by
  apply Finset.card_image_of_injOn
  intro i hi j hj heq
  have hvalid : ∀ i ∈ set, (s.queue i).valid = true := fun i hi => ((Finset.mem_filter.mp (h hi)).2).1
  exact hdistinct i j (hvalid i hi) (hvalid j hj) heq

end Counts

/-! ## Wake and requeue -/

section Conserve

theorem futexWake_wakes (s : Sys) (addr : UInt64) (n : Int) :
    Wakes s (s.futexWake addr n).1 (s.chosenSet addr n) ∅ addr ∧ (s.futexWake addr n).2 = (s.chosenSet addr n).card := by
  unfold futexWake
  rw [wakeLoop_eq (List.nodup_finRange FUTEX_COUNT), length_chosen]
  obtain ⟨hqueue, hword, -⟩ := foldl_wakeEntry_rest (s.chosen (onAddr addr) (List.finRange FUTEX_COUNT) n) s
  refine ⟨⟨fun i => ?_, fun u => ?_, hqueue, hword⟩, rfl⟩
  · rw [foldl_wakeEntry_queue]
    simp [chosenSet]
  · rw [foldl_wakeEntry_thread]
    simp [chosenSet]

theorem and_allOnes (x : UInt32) : x &&& 0xffffffff = x := by
  apply UInt32.eq_of_toBitVec_eq
  exact BitVec.and_allOnes

/-- With all bits in the mask the bitset does not matter, if no stored one is zero. -/
theorem futexWakeBitset_eq (hbits : ∀ i, (s.queue i).valid = true → (s.queue i).bitset ≠ 0) (addr : UInt64) (n : Int) :
    s.futexWakeBitset addr n 0xffffffff = s.futexWake addr n := by
  have hchosen : s.chosen (onBits addr 0xffffffff) (List.finRange FUTEX_COUNT) n =
      s.chosen (onAddr addr) (List.finRange FUTEX_COUNT) n := by
    refine congrArg (List.take n.toNat) (List.filter_congr fun i _ => ?_)
    cases hvalid : (s.queue i).valid with
    | false => rfl
    | true => simp [onBits, onAddr, and_allOnes, hbits i hvalid]
  unfold futexWakeBitset futexWake
  rw [wakeLoop_eq (List.nodup_finRange FUTEX_COUNT), wakeLoop_eq (List.nodup_finRange FUTEX_COUNT), hchosen]

/-- What `futex_cmp_requeue` moves: chosen among the waiters that it has not woken. -/
def movedSet (s : Sys) (addr : UInt64) (nrWake nrRequeue : Int) : Finset Slot :=
  (s.futexWake addr nrWake).1.chosenSet addr nrRequeue

theorem waitersOn_futexWake (s : Sys) (addr : UInt64) (n : Int) :
    (s.futexWake addr n).1.waitersOn addr = s.waitersOn addr \ s.chosenSet addr n := by
  unfold futexWake
  rw [wakeLoop_eq (List.nodup_finRange FUTEX_COUNT), waitersOn_foldl]
  rfl

theorem movedSet_subset (s : Sys) (addr : UInt64) (nrWake nrRequeue : Int) :
    s.movedSet addr nrWake nrRequeue ⊆ s.waitersOn addr \ s.chosenSet addr nrWake := by
  rw [← waitersOn_futexWake]
  exact chosenSet_subset _ addr nrRequeue

theorem card_movedSet (s : Sys) (addr : UInt64) (nrWake nrRequeue : Int) :
    ((s.movedSet addr nrWake nrRequeue).card : Int) =
      min (max nrRequeue 0) ((s.waitersOn addr).card - (s.chosenSet addr nrWake).card) := by
  have hsubset := chosenSet_subset s addr nrWake
  have hle := Finset.card_le_card hsubset
  rw [movedSet, card_chosenSet, waitersOn_futexWake, Finset.card_sdiff_of_subset hsubset]
  omega

/-- `futex_cmp_requeue` as a wake and a choice among the waiters that it leaves. -/
theorem futexCmpRequeue_eq (s : Sys) (addr newAddr : UInt64) (nrWake nrRequeue : Int) :
    s.futexCmpRequeue addr newAddr nrWake nrRequeue =
      (((s.futexWake addr nrWake).1.chosen (onAddr addr) (List.finRange FUTEX_COUNT) nrRequeue).foldl (moveEntry newAddr)
          (s.futexWake addr nrWake).1,
        (s.futexWake addr nrWake).2 + (s.movedSet addr nrWake nrRequeue).card) := by
  simp only [futexCmpRequeue]
  rw [requeueLoop_eq (List.nodup_finRange FUTEX_COUNT), length_chosen]
  simp only [movedSet, futexWake]

theorem futexCmpRequeue_wakes (s : Sys) (addr newAddr : UInt64) (nrWake nrRequeue : Int) :
    Wakes s (s.futexCmpRequeue addr newAddr nrWake nrRequeue).1 (s.chosenSet addr nrWake)
        (s.movedSet addr nrWake nrRequeue) newAddr ∧
      (s.futexCmpRequeue addr newAddr nrWake nrRequeue).2 =
        (s.chosenSet addr nrWake).card + (s.movedSet addr nrWake nrRequeue).card := by
  obtain ⟨hwakes, hwoken⟩ := futexWake_wakes s addr nrWake
  have hmoved := movedSet_subset s addr nrWake nrRequeue
  rw [futexCmpRequeue_eq, hwoken]
  obtain ⟨hqueue, hword, hthread, -⟩ := foldl_moveEntry_rest newAddr
    ((s.futexWake addr nrWake).1.chosen (onAddr addr) (List.finRange FUTEX_COUNT) nrRequeue) (s.futexWake addr nrWake).1
  refine ⟨⟨fun i => ?_, fun u => ?_, hqueue.trans hwakes.threadQueue, hword.trans hwakes.word⟩, rfl⟩
  · rw [foldl_moveEntry_queue, hwakes.queue]
    have hmem : i ∈ (s.futexWake addr nrWake).1.chosen (onAddr addr) (List.finRange FUTEX_COUNT) nrRequeue ↔
        i ∈ s.movedSet addr nrWake nrRequeue := List.mem_toFinset.symm
    by_cases hi : i ∈ s.movedSet addr nrWake nrRequeue
    · have hnot : i ∉ s.chosenSet addr nrWake := (Finset.mem_sdiff.mp (hmoved hi)).2
      simp [hmem, hi, hnot]
    · simp [hmem, hi]
  · rw [hthread, hwakes.thread]

/-- Wakes and moves are counted: so many waiters as the limits allow, each once, and nothing else. -/
theorem futex_conserves (s : Sys) (hdistinct : s.DistinctThreads) (addr newAddr : UInt64) (n nrWake nrRequeue : Int) :
    (∃ ks ⊆ s.waitersOn addr, Wakes s (s.futexWake addr n).1 ks ∅ addr ∧
      (ks.card : Int) = min (max n 0) (s.waitersOn addr).card ∧ (s.futexWake addr n).2 = ks.card ∧
      (ks.image fun i => (s.queue i).thread).card = ks.card) ∧
    ((∀ i, (s.queue i).valid = true → (s.queue i).bitset ≠ 0) →
      s.futexWakeBitset addr n 0xffffffff = s.futexWake addr n) ∧
    ∃ ks ms, ks ⊆ s.waitersOn addr ∧ ms ⊆ s.waitersOn addr ∧ Disjoint ks ms ∧
      Wakes s (s.futexCmpRequeue addr newAddr nrWake nrRequeue).1 ks ms newAddr ∧
      (ks.card : Int) = min (max nrWake 0) (s.waitersOn addr).card ∧
      (ms.card : Int) = min (max nrRequeue 0) ((s.waitersOn addr).card - ks.card) ∧
      (s.futexCmpRequeue addr newAddr nrWake nrRequeue).2 = ks.card + ms.card ∧
      ((ks ∪ ms).image fun i => (s.queue i).thread).card = ks.card + ms.card := by
  refine ⟨?_, fun hbits => futexWakeBitset_eq hbits addr n, ?_⟩
  · obtain ⟨hwakes, hret⟩ := futexWake_wakes s addr n
    exact ⟨s.chosenSet addr n, chosenSet_subset s addr n, hwakes, card_chosenSet s addr n, hret,
      card_threads hdistinct (chosenSet_subset s addr n)⟩
  · obtain ⟨hwakes, hret⟩ := futexCmpRequeue_wakes s addr newAddr nrWake nrRequeue
    have hks := chosenSet_subset s addr nrWake
    have hmoved := movedSet_subset s addr nrWake nrRequeue
    have hms : s.movedSet addr nrWake nrRequeue ⊆ s.waitersOn addr := hmoved.trans Finset.sdiff_subset
    have hdisjoint : Disjoint (s.chosenSet addr nrWake) (s.movedSet addr nrWake nrRequeue) :=
      Finset.disjoint_of_subset_right hmoved Finset.disjoint_sdiff
    refine ⟨s.chosenSet addr nrWake, s.movedSet addr nrWake nrRequeue, hks, hms, hdisjoint, hwakes, card_chosenSet s addr nrWake,
      card_movedSet s addr nrWake nrRequeue, hret, ?_⟩
    rw [card_threads hdistinct (Finset.union_subset hks hms), Finset.card_union_of_disjoint hdisjoint]

theorem oneAsleep_queue (i : Slot) : oneAsleep.queue i = if i = firstSlot then ⟨16, 0, true, 0xffffffff⟩ else emptyQueue i :=
  setSlot_queue _ firstSlot _ i

theorem oneAsleep_valid (h : (oneAsleep.queue i).valid = true) : i = firstSlot := by
  rw [oneAsleep_queue] at h
  by_contra hi
  rw [if_neg hi] at h
  cases h

theorem futex_conserves_oneAsleep :
    ∃ ks ⊆ oneAsleep.waitersOn 16, Wakes oneAsleep (oneAsleep.futexWake 16 1).1 ks ∅ 16 ∧
      (oneAsleep.futexWake 16 1).2 = ks.card := by
  have hdistinct : oneAsleep.DistinctThreads := by
    intro i j hi hj _
    rw [oneAsleep_valid hi, oneAsleep_valid hj]
  obtain ⟨ks, hks, hwakes, -, hret, -⟩ := (futex_conserves oneAsleep hdistinct 16 20 1 0 0).1
  exact ⟨ks, hks, hwakes, hret⟩

end Conserve

/-! ## The counter -/

/-- The section in a state; `none` is the panic for a full queue. -/
def queueOp (s : Sys) : QueueOp → Option Sys
  | .wait addr th ts kind now => s.futexWait addr th ts kind now
  | .resume i => some (s.cleanUp i)
  | .wake addr n => some (s.futexWake addr n).1
  | .wakeBitset addr n bits => some (s.futexWakeBitset addr n bits).1
  | .requeue addr n newAddr => some (s.futexRequeue addr n newAddr)
  | .cmpRequeue addr newAddr nrWake nrRequeue => some (s.futexCmpRequeue addr newAddr nrWake nrRequeue).1
  | .clear th => some (s.futexClear th)

/-- `futex_requeue` has nobody to wake. -/
def WakesNone (s : Sys) : QueueOp → Prop
  | .requeue addr n _ => n = 0 ∨ s.waitersOn addr = ∅
  | _ => True

/-- A section of any thread. -/
def QueueStep (s s' : Sys) : Prop := ∃ op, s.queueOp op = some s'

/-- A section of any thread that is no `futex_requeue` with somebody to wake. -/
def CountingStep (s s' : Sys) : Prop := ∃ op, s.queueOp op = some s' ∧ s.WakesNone op

section Counter

/-- Slots that are freed and counted. -/
theorem Counted.free (hs : s.Counted) (set : Finset Slot) (hset : set ⊆ s.validSlots)
    (hvalid : s'.validSlots = s.validSlots \ set) (hcount : s'.waitingCount = s.waitingCount - set.card) : s'.Counted := by
  have hle := Finset.card_le_card hset
  unfold Counted at hs ⊢
  rw [hcount, hs, hvalid, Finset.card_sdiff_of_subset hset]
  omega

/-- Sections that leave the counter and the valid slots. -/
theorem Counted.keep (hs : s.Counted) (hvalid : ∀ i, (s'.queue i).valid = (s.queue i).valid)
    (hcount : s'.waitingCount = s.waitingCount) : s'.Counted := by
  have hslots : s'.validSlots = s.validSlots := by
    unfold validSlots
    simp only [hvalid]
  unfold Counted at hs ⊢
  rw [hcount, hs, hslots]

theorem Counted.wait {ts : Option Timespec} {kind : WaitKind} {now : Timespec} (hs : s.Counted)
    (h : s.futexWait addr th ts kind now = some s') : s'.Counted := by
  obtain ⟨i, hfree, rfl⟩ := Option.map_eq_some_iff.mp h
  have hnot : i ∉ s.validSlots := by
    unfold validSlots
    simp [freeSlot_free hfree]
  have hslots : ∀ (e : Entry) (t : Thread), e.valid = true →
      ({ s.setSlot i e with waitingCount := s.waitingCount + 1 }.setThread th t).validSlots = insert i s.validSlots := by
    intro e t he
    ext j
    simp only [validSlots, setThread_queue, setSlot_queue, Finset.mem_filter, Finset.mem_univ, true_and, Finset.mem_insert]
    by_cases hj : j = i <;> simp [hj, he]
  unfold Counted at hs ⊢
  rw [hslots _ _ rfl, Finset.card_insert_of_notMem hnot, Int.natCast_add, ← hs]
  rfl

theorem Counted.resume (hs : s.Counted) (i : Slot) : (s.cleanUp i).Counted := by
  unfold cleanUp
  split
  · rename_i hvalid
    have hmem : i ∈ s.validSlots := by
      unfold validSlots
      simp [hvalid]
    apply hs.free {i} (Finset.singleton_subset_iff.mpr hmem)
    · ext j
      simp only [validSlots, setSlot_queue, Finset.mem_filter, Finset.mem_univ, true_and, Finset.mem_sdiff,
        Finset.mem_singleton]
      by_cases hj : j = i <;> simp [hj]
    · rfl
  · exact hs

theorem Counted.wakeLoop (hs : s.Counted) (sel : Entry → Bool) (n : Int) :
    (s.wakeLoop sel (List.finRange FUTEX_COUNT) n).1.Counted := by
  rw [wakeLoop_eq (List.nodup_finRange FUTEX_COUNT)]
  have hnodup := nodup_chosen s sel n
  have hcount := (foldl_wakeEntry_rest (s.chosen sel (List.finRange FUTEX_COUNT) n) s).2.2
  apply hs.free (s.chosen sel (List.finRange FUTEX_COUNT) n).toFinset
  · intro i hi
    have hsel := List.mem_filter.mp (List.mem_of_mem_take (List.mem_toFinset.mp hi))
    simp only [Bool.and_eq_true] at hsel
    unfold validSlots
    simp [hsel.2.1]
  · ext i
    simp only [validSlots, Finset.mem_filter, Finset.mem_univ, true_and, Finset.mem_sdiff, List.mem_toFinset,
      foldl_wakeEntry_queue]
    by_cases hi : i ∈ s.chosen sel (List.finRange FUTEX_COUNT) n <;> simp [hi]
  · rw [hcount, List.toFinset_card_of_nodup hnodup]

theorem Counted.cmpRequeue (hs : s.Counted) (addr newAddr : UInt64) (nrWake nrRequeue : Int) :
    (s.futexCmpRequeue addr newAddr nrWake nrRequeue).1.Counted := by
  have hwake : (s.futexWake addr nrWake).1.Counted := hs.wakeLoop (onAddr addr) nrWake
  rw [futexCmpRequeue_eq]
  generalize (s.futexWake addr nrWake).1 = s₁ at hwake
  apply hwake.keep
  · intro i
    rw [foldl_moveEntry_queue]
    split <;> rfl
  · exact (foldl_moveEntry_rest newAddr _ s₁).2.2.2

/-- With nobody to wake the first loop of `futex_requeue` does nothing. -/
theorem requeueWakeLoop_none (h : n = 0 ∨ s.waitersOn addr = ∅) (is : List Slot) : requeueWakeLoop addr is n s = s := by
  induction is with
  | nil => rfl
  | cons i is ih =>
    unfold requeueWakeLoop
    rcases h with hn | hempty
    · rw [if_neg (not_not.mpr hn)]
    · have hnot : ¬((s.queue i).valid && onAddr addr (s.queue i)) = true := by
        have hi := Finset.eq_empty_iff_forall_notMem.mp hempty i
        simpa [waitersOn, onAddr] using hi
      rw [if_neg hnot, ih, ite_self]

theorem Counted.requeue (hs : s.Counted) (h : n = 0 ∨ s.waitersOn addr = ∅) (newAddr : UInt64) :
    (s.futexRequeue addr n newAddr).Counted := by
  unfold futexRequeue
  rw [requeueWakeLoop_none h]
  apply Counted.keep hs
  · intro i
    simp only
    split <;> rfl
  · rfl

theorem Counted.clear (hs : s.Counted) (th : Tid) : (s.futexClear th).Counted := by
  have hnodup : (s.slotsOf th).Nodup := (List.nodup_finRange FUTEX_COUNT).filter _
  apply hs.free (s.slotsOf th).toFinset
  · intro i hi
    have hsel := List.mem_filter.mp (List.mem_toFinset.mp hi)
    simp only [Bool.and_eq_true] at hsel
    unfold validSlots
    simp [hsel.2.1]
  · ext i
    simp only [validSlots, futexClear, slotsOf, Finset.mem_filter, Finset.mem_univ, true_and, Finset.mem_sdiff,
      List.mem_toFinset, List.mem_filter, List.mem_finRange]
    cases hvalid : (s.queue i).valid <;> by_cases hth : (s.queue i).thread = th <;> simp [hvalid, hth]
  · rw [List.toFinset_card_of_nodup hnodup]
    rfl

/-- Every section keeps the count, `futex_requeue` if it has nobody to wake. -/
theorem Counted.queueOp (hs : s.Counted) {op : QueueOp} (h : s.queueOp op = some s') (hop : s.WakesNone op) :
    s'.Counted := by
  cases op with
  | wait addr th ts kind now => exact hs.wait h
  | resume i =>
    obtain rfl := Option.some.inj h
    exact hs.resume i
  | wake addr n =>
    obtain rfl := Option.some.inj h
    exact hs.wakeLoop (onAddr addr) n
  | wakeBitset addr n bits =>
    obtain rfl := Option.some.inj h
    exact hs.wakeLoop (onBits addr bits) n
  | requeue addr n newAddr =>
    obtain rfl := Option.some.inj h
    exact hs.requeue hop newAddr
  | cmpRequeue addr newAddr nrWake nrRequeue =>
    obtain rfl := Option.some.inj h
    exact hs.cmpRequeue addr newAddr nrWake nrRequeue
  | clear th =>
    obtain rfl := Option.some.inj h
    exact hs.clear th

theorem Counted.init (hqueue : s.queue = emptyQueue) (hcount : s.waitingCount = 0) : s.Counted := by
  have hslots : s.validSlots = ∅ := by
    unfold validSlots
    rw [hqueue]
    exact Finset.filter_false_of_mem fun i _ => by simp [emptyQueue]
  unfold Counted
  rw [hcount, hslots]
  rfl

/-- In every run whose `futex_requeue`s wake nobody the counter is the number of valid entries. -/
theorem waiting_count_exact {s₀ : Sys} (hqueue : s₀.queue = emptyQueue) (hcount : s₀.waitingCount = 0)
    (hrun : Reaches CountingStep s₀ s) : s.waitingCount = s.validSlots.card ∧ 0 ≤ s.waitingCount := by
  have hcounted : s.Counted := hrun.invariant (Counted.init hqueue hcount) fun t t' ht ⟨_, hop, hnone⟩ => ht.queueOp hop hnone
  refine ⟨hcounted, ?_⟩
  rw [hcounted]
  exact Int.natCast_nonneg _

theorem futexWait_first (now : Timespec) (hfree : (s.queue firstSlot).valid = false) :
    s.futexWait addr th none .plain now = some (s.sleepFirst th addr) := by
  unfold futexWait
  rw [freeSlot_first hfree]
  rfl

theorem waiting_count_exact_first :
    (fresh.sleepFirst 0 16).waitingCount = (fresh.sleepFirst 0 16).validSlots.card ∧
      0 ≤ (fresh.sleepFirst 0 16).waitingCount := by
  have hstep : CountingStep fresh (fresh.sleepFirst 0 16) :=
    ⟨.wait 16 0 none .plain ⟨0, 0⟩, futexWait_first ⟨0, 0⟩ rfl, trivial⟩
  exact waiting_count_exact rfl rfl (.single hstep)

/-- A thread waits and `futex_requeue` wakes it: no entry is valid, and the counter says 1. -/
theorem requeue_miscounts :
    ((fresh.sleepFirst 0 16).futexRequeue 16 1 20).waitingCount = 1 ∧
      ((fresh.sleepFirst 0 16).futexRequeue 16 1 20).validSlots = ∅ ∧
      ¬∀ s₀ s, s₀.queue = emptyQueue → s₀.waitingCount = 0 → Reaches QueueStep s₀ s →
        s.waitingCount = s.validSlots.card ∧ 0 ≤ s.waitingCount := by
  obtain ⟨rest, hrest⟩ := finRange_slots
  have hqueue : ∀ i, (fresh.sleepFirst 0 16).queue i = if i = firstSlot then ⟨16, 0, true, 0xffffffff⟩ else emptyQueue i :=
    fun i => setSlot_queue _ firstSlot _ i
  have hfirst : (fresh.sleepFirst 0 16).queue firstSlot = ⟨16, 0, true, 0xffffffff⟩ := (hqueue firstSlot).trans (if_pos rfl)
  have hloop : requeueWakeLoop 16 (List.finRange FUTEX_COUNT) 1 (fresh.sleepFirst 0 16) =
      ((fresh.sleepFirst 0 16).setSlot firstSlot ⟨16, 0, false, 0xffffffff⟩).setThread 0
        { (fresh.sleepFirst 0 16).thread 0 with state := .runnable } := by
    rw [hrest, requeueWakeLoop, if_pos (by decide), hfirst, if_pos (by decide)]
    exact requeueWakeLoop_none (Or.inl rfl) rest
  have hcount : ((fresh.sleepFirst 0 16).futexRequeue 16 1 20).waitingCount = 1 := by
    unfold futexRequeue
    rw [hloop]
    rfl
  have hslots : ((fresh.sleepFirst 0 16).futexRequeue 16 1 20).validSlots = ∅ := by
    apply Finset.filter_false_of_mem
    intro i _
    unfold futexRequeue
    rw [hloop]
    simp only [setThread_queue, setSlot_queue, hqueue]
    by_cases hi : i = firstSlot <;> simp [hi, emptyQueue]
  refine ⟨hcount, hslots, fun h => ?_⟩
  have hwait : QueueStep fresh (fresh.sleepFirst 0 16) := ⟨.wait 16 0 none .plain ⟨0, 0⟩, futexWait_first ⟨0, 0⟩ rfl⟩
  have hrequeue : QueueStep (fresh.sleepFirst 0 16) ((fresh.sleepFirst 0 16).futexRequeue 16 1 20) :=
    ⟨.requeue 16 1 20, rfl⟩
  have hexact := (h fresh _ rfl rfl ((Relation.ReflTransGen.single hwait).tail hrequeue)).1
  rw [hcount, hslots] at hexact
  exact absurd hexact (by decide)

end Counter

end Sys

end SC7.Futex
