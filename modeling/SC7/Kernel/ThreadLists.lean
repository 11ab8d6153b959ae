-- SUMMARY: The lists of thread descriptors (`thread.c`, `process.c`): the free list and the queue of each process, through allocation, scheduling, exit and reclaim on one CPU.
import Mathlib.Data.Fintype.Card
import SC7.Kernel.ListFamily
import SC7.Kernel.Process

/-!
# Lists of threads

A descriptor of the static pool is on `free_thread` or on the `thread_queue` of a process. It moves with
`alloc_thread` and the push of `allocproc` or `clone_thread`, with the rotation of `scheduler` after the
thread has run, and with `freeproc`. Neither `thread_exit` nor `exit` moves it.

A step is one call, on one CPU; `scheduler` is two, because it goes on when the thread that it has started
switches back. `sleeping` stands for `t_SLEEPING` and for `t_TIMING`. A failed `ASSERT` and a `panic` are
`none`; `kalloc` and the copies of `clone_thread` succeed, because it panics if they do not.
-/

namespace SC7.ThreadLists

open Function (update update_eq_self update_of_ne update_self)
open Process (Slot NPROC ProcState ThreadState initproc)

def THREAD_NUM : Nat := 2048

/-- A descriptor of `thread_pools`. -/
abbrev Thread := Fin THREAD_NUM

/-- The addresses of list elements. -/
inductive Node where
  | null
  | freeHead
  | freeTail
  | queueHead (p : Slot)
  | queueTail (p : Slot)
  | elem (t : Thread)
  deriving DecidableEq

/-- `free_thread`, or `p->thread_queue`. -/
def header : Option Slot → KList Node
  | none => ⟨.freeHead, .freeTail⟩
  | some p => ⟨.queueHead p, .queueTail p⟩

structure Sys where
  links : Links Node
  /-- `t->p`. -/
  owner : Thread → Option Slot
  threadState : Thread → ThreadState
  state : Slot → ProcState
  /-- `p->current_thread`. -/
  current : Slot → Option Thread
  /-- `p->main_thread`. -/
  main : Slot → Option Thread
  /-- `cpu->proc`, with the thread that the scheduler has started. -/
  running : Option (Slot × Thread)

namespace Sys

variable (σ : Sys)

def setThreadState (t : Thread) (st : ThreadState) : Sys := { σ with threadState := update σ.threadState t st }

def setState (p : Slot) (st : ProcState) : Sys := { σ with state := update σ.state p st }

/-! ## `thread.c` -/

/-- The links after `thread_init`. -/
def threadInit (L : Links Node) : Option (Links Node) :=
  (List.finRange THREAD_NUM).foldlM (fun L i => listPushBack .null L (header none) (.elem i))
    (listInit .null L (header none))

/-- `list_entry(e, thread_t, elem)`. -/
def listEntry : Node → Option Thread
  | .elem t => some t
  | _ => none

def allocThread : Option (Thread × Sys) :=
  if listEmpty σ.links (header none) then none
  else
    (listPopFront .null σ.links (header none)).bind fun (e, links) =>
      (listEntry e).map fun t => (t, { σ with links, threadState := update σ.threadState t .used })

/-! ## `process.c` -/

/-- The threads that a loop over `p->thread_queue` comes to. -/
def threads (p : Slot) : List Thread :=
  ((σ.links.walk (listEnd (header (some p))) THREAD_NUM (listBegin σ.links (header (some p)))).getD []).filterMap listEntry

/-- `allocproc`; `pid` tells whether `allocpid` has a number left. -/
def allocproc (pid : Bool) : Option Sys :=
  match (List.finRange NPROC).find? fun p => σ.state p = .unused with
  | none => some σ
  | some p =>
    if pid then
      (σ.setState p .used).allocThread.bind fun (t, σ) =>
        let links := listInit .null σ.links (header (some p))
        (listPushFront .null links (header (some p)) (.elem t)).map fun links =>
          { σ with
            links
            owner := update σ.owner t (some p)
            current := update σ.current p (some t)
            main := update σ.main p (some t) }
    else some σ

/-- The end of `fork` and `clone`, and of the start of the first process. -/
def ready (p : Slot) : Sys :=
  let σ := match σ.current p with
    | some t => σ.setThreadState t .runnable
    | none => σ
  σ.setState p .runnable

def cloneThread (p : Slot) : Option Sys :=
  σ.allocThread.bind fun (t, σ) =>
    (listPushFront .null σ.links (header (some p)) (.elem t)).map fun links =>
      ({ σ with links, owner := update σ.owner t (some p) } : Sys).setThreadState t .runnable

/-- `scheduler` up to the switch to a thread of `p`; `late` says whose `awakeTime` has passed. The trapframes
that it checks are there as long as the process is in use. -/
def dispatch (p : Slot) (late : Thread → Bool) : Sys :=
  match (σ.threads p).find? fun t =>
      σ.threadState t = .runnable ∨ σ.threadState t = .sleeping ∧ late t with
  | none => σ
  | some t =>
    let σ := σ.setThreadState t .runnable
    if σ.current p = none then σ
    else
      { (σ.setThreadState t .running).setState p .running with
        current := update σ.current p (some t)
        running := some (p, t) }

/-- `scheduler` after the switch back. -/
def back (p : Slot) (t : Thread) : Option Sys :=
  (listRemove .null σ.links (.elem t)).bind fun links =>
    (listPushBack .null links (header (some p)) (.elem t)).map fun links => { σ with links, running := none }

/-- `yield`, `sleep_on_chan` and the wait for a futex, up to the switch. -/
def leave (p : Slot) (t : Thread) (pst : ProcState) (tst : ThreadState) : Sys :=
  (σ.setThreadState t tst).setState p pst

/-- Another thread of the process is active. -/
def othersActive (p : Slot) (t : Thread) : Bool :=
  (σ.threads p).any fun t' => σ.threadState t' ≠ .zombie ∧ σ.threadState t' ≠ .unused ∧ t' ≠ t

/-- `exit` of the process, up to the switch. -/
def exitProcess (p : Slot) (t : Thread) : Option Sys :=
  if p = initproc then none else some (σ.leave p t .zombie .zombie)

/-- `thread_exit`, up to the switch. -/
def threadExit (p : Slot) (t : Thread) : Option Sys :=
  let σ := σ.setThreadState t .zombie
  if σ.othersActive p t then some (σ.setState p .runnable) else σ.exitProcess p t

/-- `exit`, up to the switch. -/
def exit (p : Slot) (t : Thread) : Option Sys :=
  if p = initproc then none
  else if σ.main p ≠ some t ∧ σ.othersActive p t then σ.threadExit p t
  else σ.exitProcess p t

/-- The loop of `freeproc` from the element `e` on. -/
def freeThreads (p : Slot) : Nat → Node → Sys → Option Sys
  | 0, _, _ => none
  | fuel + 1, e, σ =>
    if e = listEnd (header (some p)) then some σ
    else
      let tmp := σ.links.next e
      (listEntry e).bind fun t =>
        (listRemove .null σ.links e).bind fun links =>
          (listPushFront .null links (header none) e).bind fun links =>
            freeThreads p fuel tmp { σ with links, threadState := update σ.threadState t .unused }

def freeproc (p : Slot) : Option Sys :=
  (freeThreads p (THREAD_NUM + 1) (listBegin σ.links (header (some p))) σ).map fun σ =>
    let σ := σ.setState p .unused
    let σ := match σ.current p with
      | some t => { σ.setThreadState t .unused with current := update σ.current p none }
      | none => σ
    match σ.main p with
    | some t => { σ.setThreadState t .unused with main := update σ.main p none }
    | none => σ

end Sys

/-- What happens next. -/
inductive Event where
  | allocproc (pid : Bool)
  | ready (p : Slot)
  | cloneThread
  | dispatch (p : Slot) (late : Thread → Bool)
  | back
  | yield
  | sleep
  /-- The wait for a futex, with or without a time limit. -/
  | wait
  | wake (p : Slot)
  | wakeThread (t : Thread)
  | threadExit
  | exit
  | freeproc (p : Slot)

namespace Sys

variable (σ : Sys)

/-- What the thread that runs does, as long as its process is `RUNNING`. -/
def byRunning (f : Slot → Thread → Option Sys) : Option Sys :=
  match σ.running with
  | some (p, t) => if σ.state p = .running then f p t else none
  | none => none

/-- One step; `none` also if the event cannot happen now. A process is reaped when it is a zombie, by one that
runs. -/
def step : Event → Option Sys
  | .allocproc pid => σ.allocproc pid
  | .ready p => if σ.state p = .used then some (σ.ready p) else none
  | .cloneThread => σ.byRunning fun p _ => σ.cloneThread p
  | .dispatch p late => if σ.running = none ∧ σ.state p = .runnable then some (σ.dispatch p late) else none
  | .back =>
    match σ.running with
    | some (p, t) => if σ.state p = .running then none else σ.back p t
    | none => none
  | .yield => σ.byRunning fun p t => some (σ.leave p t .runnable .runnable)
  | .sleep => σ.byRunning fun p t => some (σ.leave p t .sleeping .runnable)
  | .wait => σ.byRunning fun p t => some (σ.leave p t .runnable .sleeping)
  | .wake p => if σ.state p = .sleeping then some (σ.setState p .runnable) else none
  | .wakeThread t => some (σ.setThreadState t .runnable)
  | .threadExit => σ.byRunning fun p t => σ.threadExit p t
  | .exit => σ.byRunning fun p t => σ.exit p t
  | .freeproc p => σ.byRunning fun _ _ => if σ.state p = .zombie then σ.freeproc p else none

def Step (σ σ' : Sys) : Prop := ∃ e, σ.step e = some σ'

/-- After `thread_init`, with no process yet. -/
def Boot : Prop := (∃ L, threadInit L = some σ.links) ∧ (∀ p, σ.state p = .unused) ∧ σ.running = none

/-- The lists in use: `free_thread`, and the queues of the processes. -/
def InUse : Option Slot → Prop
  | none => True
  | some p => σ.state p ≠ .unused

/-- The list is in use and well formed, and the thread is on it. -/
def On (i : Option Slot) (t : Thread) : Prop :=
  σ.InUse i ∧ ∃ xs, IsList .null σ.links (header i) xs ∧ .elem t ∈ xs

/-- Every descriptor is on exactly one list. -/
structure Conserved : Prop where
  well_formed : ∀ i, σ.InUse i → ∃ xs, IsList .null σ.links (header i) xs
  one_list : ∀ t, ∃! i, σ.On i t
  owner : ∀ p t, σ.On (some p) t → σ.owner t = some p
  /-- The thread that runs is one of its process. -/
  running : ∀ p t, σ.running = some (p, t) → σ.On (some p) t

/-- No assertion about the lists fails: the rotation and the reclaim go through, and an allocation panics only
when no descriptor is free. -/
structure NeverAsserts : Prop where
  back : ∀ p t, σ.running = some (p, t) → ∃ σ', σ.back p t = some σ'
  freeproc : ∀ p, σ.state p = .zombie → (∀ q t, σ.running = some (q, t) → q ≠ p) → ∃ σ', σ.freeproc p = some σ'
  allocproc : ∀ pid, σ.allocproc pid = none → ∀ t, ¬ σ.On none t
  cloneThread : ∀ p, σ.state p ≠ .unused → σ.cloneThread p = none → ∀ t, ¬ σ.On none t

end Sys

/-! ## The invariant -/

/-- The elements of the lists in use, when `on` says which threads are on them. -/
def elems (state : Slot → ProcState) (on : Option Slot → List Thread) : Option Slot → Option (List Node)
  | none => some ((on none).map .elem)
  | some p => if state p = .unused then none else some ((on (some p)).map .elem)

/-- `on` lists the threads of each list, and `place` says on which list a thread is. -/
structure Holds (σ : Sys) (on : Option Slot → List Thread) (place : Thread → Option Slot) : Prop where
  lists : ListFamily .null σ.links header (elems σ.state on)
  mem : ∀ i t, t ∈ on i ↔ place t = i
  unused : ∀ p, σ.state p = .unused → on (some p) = []
  owner : ∀ p t, place t = some p → σ.owner t = some p
  running : ∀ p t, σ.running = some (p, t) → place t = some p

def Inv (σ : Sys) : Prop := ∃ on place, Holds σ on place

section Elems

variable {state : Slot → ProcState} {on : Option Slot → List Thread} {i : Option Slot} {p : Slot} {t : Thread}
  {xs : List Node}

theorem mem_of_elems (h : elems state on i = some xs) : xs = (on i).map .elem := by
  cases i with
  | none => exact (Option.some.inj h).symm
  | some p =>
    simp only [elems, Option.ite_none_left_eq_some, Option.some.injEq] at h
    exact h.2.symm

theorem elems_some (hp : state p ≠ .unused) : elems state on (some p) = some ((on (some p)).map .elem) := if_neg hp

theorem elem_mem : Node.elem t ∈ (on i).map Node.elem ↔ t ∈ on i := by
  rw [List.mem_map_of_injective]
  intro a b hab
  cases hab
  rfl

theorem elem_mem_nodes : Node.elem t ∈ (header i).nodes ((on i).map .elem) ↔ t ∈ on i := by
  rw [KList.mem_nodes, elem_mem]
  cases i <;> simp [header]

/-- The other elements of a list are not in it as well. -/
theorem not_mem_of_isList {L : Links Node} {as bs : List Thread}
    (h : IsList .null L (header i) ((as ++ t :: bs).map .elem)) : t ∉ as ++ bs := by
  have hnd : ((as ++ t :: bs).map Node.elem).Nodup := (List.nodup_append.mp (List.nodup_cons.mp h.nodup).2).1
  have hnd' : (as ++ t :: bs).Nodup := List.Nodup.of_map _ hnd
  exact (List.nodup_cons.mp (List.nodup_middle.mp hnd')).1

/-- No list is longer than the pool. -/
theorem length_le {L : Links Node} (h : IsList .null L (header i) ((on i).map .elem)) :
    (on i).length ≤ THREAD_NUM := by
  have hnd : (on i).Nodup := List.Nodup.of_map _ (List.nodup_append.mp (List.nodup_cons.mp h.nodup).2).1
  exact hnd.length_le_card.trans_eq (Fintype.card_fin THREAD_NUM)

/-- Replacing the threads of a list in use. -/
theorem update_elems (hlive : ∀ p, i = some p → state p ≠ .unused) (ts : List Thread) :
    update (elems state on) i (some (ts.map .elem)) = elems state (update on i ts) := by
  funext j
  by_cases hj : j = i
  · subst hj
    rw [update_self]
    cases j with
    | none => simp [elems]
    | some p => simp [elems, hlive p rfl]
  · rw [update_of_ne hj]
    cases j with
    | none => simp [elems, update_of_ne hj]
    | some p => simp [elems, update_of_ne hj]

theorem update_free (ts : List Thread) :
    update (elems state on) none (some (ts.map .elem)) = elems state (update on none ts) :=
  update_elems (fun _ hq => absurd hq (by simp)) ts

theorem update_queue (hp : state p ≠ .unused) (ts : List Thread) :
    update (elems state on) (some p) (some (ts.map .elem)) = elems state (update on (some p) ts) :=
  update_elems (fun _ hq => Option.some.inj hq ▸ hp) ts

/-- A process that is taken into use has an empty queue. -/
theorem update_elems_used (hempty : on (some p) = []) (st : ProcState) (hst : st ≠ .unused) :
    update (elems state on) (some p) (some []) = elems (update state p st) on := by
  funext j
  by_cases hj : j = some p
  · subst hj
    simp [elems, hst, hempty]
  · rw [update_of_ne hj]
    cases j with
    | none => rfl
    | some q =>
      have hq : q ≠ p := fun h => hj (by rw [h])
      simp only [elems, update_of_ne hq]

end Elems

section Moves

variable {σ σ' : Sys} {on : Option Slot → List Thread} {place : Thread → Option Slot} {i j : Option Slot} {p q : Slot}
  {t t' : Thread} {as bs ts : List Thread} {L : Links Node} {state : Slot → ProcState}

/-- A thread that is on no list is fresh. -/
theorem fresh_of_not_mem (hno : ∀ k, t ∉ on k) : ListFamily.Fresh header (elems state on) (.elem t) := by
  intro k xs hk
  rw [mem_of_elems hk, elem_mem_nodes]
  exact hno k

/-- After a thread has been taken off its list it is on none. -/
theorem not_mem_update (hmem : ∀ k t', t' ∈ on k ↔ place t' = k) (hi : t ∈ on i) (hrest : t ∉ ts) (k : Option Slot) :
    t ∉ update on i ts k := by
  by_cases hk : k = i
  · subst hk
    rwa [update_self]
  · rw [update_of_ne hk, hmem, (hmem i t).mp hi]
    exact Ne.symm hk

/-- Moving a thread from one list to another, or to another place in its own. -/
theorem mem_move (hmem : ∀ k t', t' ∈ on k ↔ place t' = k) (hi : on i = as ++ t :: bs) (hrest : t ∉ as ++ bs)
    (hts : ∀ t', t' ∈ ts ↔ t' = t ∨ t' ∈ update on i (as ++ bs) j) (k : Option Slot) (t' : Thread) :
    t' ∈ update (update on i (as ++ bs)) j ts k ↔ update place t j t' = k := by
  have hother : ∀ k, t' ≠ t → (t' ∈ update on i (as ++ bs) k ↔ place t' = k) := by
    intro k hne
    by_cases hk : k = i
    · subst hk
      rw [update_self, ← hmem, hi]
      simp [hne]
    · rw [update_of_ne hk, hmem]
  have hnone := not_mem_update hmem (hi ▸ by simp : t ∈ on i) hrest
  by_cases ht : t' = t
  · subst ht
    rw [update_self]
    by_cases hk : k = j
    · subst hk
      rw [update_self, hts]
      exact iff_of_true (Or.inl rfl) rfl
    · rw [update_of_ne hk]
      exact iff_of_false (hnone k) (Ne.symm hk)
  · rw [update_of_ne ht]
    by_cases hk : k = j
    · subst hk
      rw [update_self, hts, hother k ht]
      exact or_iff_right ht
    · rw [update_of_ne hk, hother k ht]

/-- `alloc_thread` takes the front of the free list. -/
theorem allocThread_cons (hlists : ListFamily .null σ.links header (elems state on)) (hfree : on none = t :: ts) :
    ∃ L', σ.allocThread = some (t, { σ with links := L', threadState := update σ.threadState t .used }) ∧
      ListFamily .null L' header (elems state (update on none ts)) := by
  have helems : elems state on none = some (.elem t :: ts.map .elem) := by rw [elems, hfree, List.map_cons]
  obtain ⟨L', hpop, hnew⟩ := hlists.listPopFront helems
  have hne : listEmpty σ.links (header none) = false := by
    rw [Bool.eq_false_iff, ne_eq, (hlists.isList none _ helems).empty_iff]
    exact List.cons_ne_nil _ _
  refine ⟨L', ?_, ?_⟩
  · rw [Sys.allocThread, hne, hpop]
    rfl
  · rwa [update_free] at hnew

theorem allocThread_state (halloc : σ.allocThread = some (t, σ')) : σ'.state = σ.state := by
  rw [Sys.allocThread, Option.ite_none_left_eq_some, Option.bind_eq_some_iff] at halloc
  obtain ⟨-, ⟨e, L'⟩, -, halloc⟩ := halloc
  obtain ⟨t', -, heq⟩ := Option.map_eq_some_iff.mp halloc
  cases heq
  rfl

theorem allocThread_nil (hlists : ListFamily .null σ.links header (elems state on)) (hfree : on none = []) :
    σ.allocThread = none := by
  have helems : elems state on none = some [] := by rw [elems, hfree, List.map_nil]
  rw [Sys.allocThread, (hlists.isList none _ helems).empty_iff.mpr rfl]
  rfl

/-- The headers of the queues are apart from everything else. -/
theorem header_fresh {xs : List Node} (hj : j ≠ some p) (helems : elems state on j = some xs) :
    (header (some p)).head ∉ (header j).nodes xs ∧ (header (some p)).tail ∉ (header j).nodes xs := by
  rw [mem_of_elems helems, KList.mem_nodes, KList.mem_nodes]
  cases j with
  | none => simp [header]
  | some q =>
    have hq : p ≠ q := fun h => hj (by rw [h])
    simp [header, hq]

/-- The threads that a loop over a queue comes to are those on it. -/
theorem Holds.threads_eq (h : Holds σ on place) (hp : σ.state p ≠ .unused) : σ.threads p = on (some p) := by
  have hlist := h.lists.isList (some p) _ (elems_some hp)
  have hlen : ((on (some p)).map Node.elem).length ≤ THREAD_NUM := by
    rw [List.length_map]
    exact length_le hlist
  rw [Sys.threads, listEnd, hlist.walk_eq hlen, Option.getD_some, List.filterMap_map]
  exact List.filterMap_some

/-- A process that is in use is not one whose queue has to be empty. -/
theorem unused_update (hunused : ∀ q, state q = .unused → on (some q) = []) (hp : state p ≠ .unused)
    (ts : List Thread) (q : Slot) (hq : state q = .unused) : update on (some p) ts (some q) = [] := by
  have hqp : some q ≠ some p := by
    rintro hqp
    cases hqp
    exact hp hq
  rw [update_of_ne hqp]
  exact hunused q hq

theorem owner_update {owner : Thread → Option Slot}
    (howner : ∀ p t, place t = some p → owner t = some p) (hplace : update place t i t' = some q) :
    update owner t i t' = some q := by
  by_cases ht : t' = t
  · subst ht
    rw [update_self] at hplace ⊢
    exact hplace
  · rw [update_of_ne ht] at hplace ⊢
    exact howner q t' hplace

/-- The thread that runs is not one from the free list. -/
theorem running_update (hfree : place t = none) (hplace : place t' = some q) : update place t i t' = some q := by
  rw [update_of_ne, hplace]
  rintro rfl
  exact absurd (hfree.symm.trans hplace) (by simp)

end Moves

/-! ## Steps -/

section Steps

variable {σ σ' : Sys} {on : Option Slot → List Thread} {place : Thread → Option Slot} {p q : Slot} {t : Thread}
  {ts qs : List Thread} {pid : Bool} {pst : ProcState}

/-- The lists depend on the links, and on which processes are in use. -/
theorem Holds.frame (h : Holds σ on place) (hlinks : σ'.links = σ.links) (howner : σ'.owner = σ.owner)
    (hstate : ∀ p, σ'.state p = .unused ↔ σ.state p = .unused)
    (hrunning : ∀ p t, σ'.running = some (p, t) → place t = some p) : Holds σ' on place where
  lists := by
    have helems : elems σ'.state on = elems σ.state on := by
      funext i
      cases i with
      | none => rfl
      | some p => simp only [elems, hstate p]
    rw [helems, hlinks]
    exact h.lists
  mem := h.mem
  unused := fun p hp => h.unused p ((hstate p).mp hp)
  owner := by
    rw [howner]
    exact h.owner
  running := hrunning

/-- A process with a thread is in use. -/
theorem Holds.live (h : Holds σ on place) (hplace : place t = some p) : σ.state p ≠ .unused := by
  intro hunused
  have hmem := (h.mem (some p) t).mpr hplace
  rw [h.unused p hunused] at hmem
  exact absurd hmem List.not_mem_nil

/-- Only `allocproc` and `freeproc` take a process into use or out of it. -/
theorem setState_unused (hp : σ.state p ≠ .unused) (hpst : pst ≠ .unused) (q : Slot) :
    update σ.state p pst q = .unused ↔ σ.state q = .unused := by
  by_cases hq : q = p
  · subst hq
    rw [update_self]
    exact iff_of_false hpst hp
  · rw [update_of_ne hq]

section Kept

variable (h : Holds σ on place)

include h

theorem Holds.setThreadState (t : Thread) (tst : ThreadState) : Holds (σ.setThreadState t tst) on place :=
  h.frame rfl rfl (fun _ => Iff.rfl) h.running

section Live

variable (hp : σ.state p ≠ .unused)

include hp

theorem Holds.setState (hpst : pst ≠ .unused) : Holds (σ.setState p pst) on place :=
  h.frame rfl rfl (setState_unused hp hpst) h.running

theorem Holds.leave (hpst : pst ≠ .unused) (t : Thread) (tst : ThreadState) : Holds (σ.leave p t pst tst) on place :=
  (h.setThreadState t tst).setState hp hpst

theorem Holds.ready : Holds (σ.ready p) on place := by
  rw [Sys.ready]
  split
  · exact (h.setThreadState _ _).setState hp (by simp)
  · exact h.setState hp (by simp)

/-- The thread that the scheduler starts is one of the queue that it searches. -/
theorem Holds.dispatch {late : Thread → Bool} : Holds (σ.dispatch p late) on place := by
  rw [Sys.dispatch]
  split
  · exact h
  · rename_i t hfind
    have hmem := List.mem_of_find?_eq_some hfind
    rw [h.threads_eq hp, h.mem] at hmem
    simp only
    split
    · exact h.setThreadState t .runnable
    · have hrunning : ProcState.running ≠ .unused := by simp
      refine h.frame rfl rfl (setState_unused hp hrunning) ?_
      intro q t' hrun
      cases hrun
      exact hmem

theorem Holds.exitProcess (hstep : σ.exitProcess p t = some σ') : Holds σ' on place := by
  rw [Sys.exitProcess, Option.ite_none_left_eq_some] at hstep
  obtain ⟨-, hstep⟩ := hstep
  cases hstep
  exact h.leave hp (by simp) t .zombie

theorem Holds.threadExit (hstep : σ.threadExit p t = some σ') : Holds σ' on place := by
  have hzombie := h.setThreadState t .zombie
  simp only [Sys.threadExit] at hstep
  split at hstep
  · cases hstep
    exact hzombie.setState hp (by simp)
  · exact hzombie.exitProcess hp hstep

theorem Holds.exit (hstep : σ.exit p t = some σ') : Holds σ' on place := by
  rw [Sys.exit, Option.ite_none_left_eq_some] at hstep
  obtain ⟨-, hstep⟩ := hstep
  split at hstep
  · exact h.threadExit hp hstep
  · exact h.exitProcess hp hstep

end Live

/-- The front of the free list is on no other list. -/
theorem Holds.front (hfree : on none = t :: ts) :
    on none = [] ++ t :: ts ∧ place t = none ∧ t ∉ [] ++ ts ∧ ∀ i, t ∉ update on none ts i := by
  have hsplit : on none = [] ++ t :: ts := hfree
  have hmem : t ∈ on none := hfree ▸ List.mem_cons_self
  have hlist := h.lists.isList none _ rfl
  rw [hsplit] at hlist
  have hrest : t ∉ [] ++ ts := not_mem_of_isList hlist
  exact ⟨hsplit, (h.mem none t).mp hmem, hrest, not_mem_update h.mem hmem hrest⟩

/-- `clone_thread` needs a free descriptor and nothing else. -/
theorem Holds.cloneThread (hp : σ.state p ≠ .unused) (hfree : on none = t :: ts) :
    ∃ σ', σ.cloneThread p = some σ' ∧ Inv σ' := by
  obtain ⟨hsplit, hplace, hrest, hno⟩ := h.front hfree
  obtain ⟨L₁, halloc, hlists⟩ := allocThread_cons h.lists hfree
  have hqueue : elems σ.state (update on none ts) (some p) = some ((on (some p)).map .elem) := by
    rw [elems_some hp, update_of_ne (by simp)]
  obtain ⟨L₂, hpush, hlists⟩ := hlists.listPushFront hqueue (fresh_of_not_mem hno) (by simp)
  rw [← List.map_cons, update_queue hp] at hlists
  refine ⟨Sys.setThreadState
    { σ with
      links := L₂
      owner := update σ.owner t (some p)
      threadState := update σ.threadState t .used } t .runnable, ?_, ?_⟩
  · rw [Sys.cloneThread, halloc]
    simp only [Option.bind_some, hpush, Option.map_some]
  · refine ⟨_, update place t (some p), hlists, ?_, ?_, ?_, ?_⟩
    · refine mem_move h.mem hsplit hrest fun t' => ?_
      rw [List.nil_append, update_of_ne (by simp), List.mem_cons]
    · refine unused_update (fun q hq => ?_) hp _
      rw [update_of_ne (by simp)]
      exact h.unused q hq
    · exact fun q t' => owner_update h.owner
    · exact fun q t' hrun => running_update hplace (h.running q t' hrun)

/-- `allocproc` takes a slot and a thread for its queue, which it makes empty first. -/
theorem Holds.allocproc (pid : Bool) (hfree : on none = t :: ts) : ∃ σ', σ.allocproc pid = some σ' ∧ Inv σ' := by
  rw [Sys.allocproc]
  split
  · exact ⟨σ, rfl, on, place, h⟩
  · rename_i p hfind
    have hp : σ.state p = .unused := by simpa using List.find?_some hfind
    split
    · obtain ⟨hsplit, hplace, hrest, hno⟩ := h.front hfree
      obtain ⟨L₁, halloc, hlists⟩ := allocThread_cons (σ := σ.setState p .used) h.lists hfree
      have hempty : update on none ts (some p) = [] := by
        rw [update_of_ne (by simp)]
        exact h.unused p hp
      have hinit := hlists.listInit (i := some p) (by simp [header]) (by simp [header]) (by simp [header])
        fun j xs hj helems => header_fresh hj helems
      rw [update_elems_used hempty .used (by simp)] at hinit
      have hused : update σ.state p .used p ≠ ProcState.unused := by simp
      have hqueue : elems (update σ.state p .used) (update on none ts) (some p) = some [] := by
        rw [elems_some hused, hempty, List.map_nil]
      obtain ⟨L₂, hpush, hlists⟩ := hinit.listPushFront hqueue (fresh_of_not_mem hno) (by simp)
      rw [show [Node.elem t] = [t].map Node.elem from rfl, update_queue hused] at hlists
      refine
        ⟨{ σ with
            links := L₂
            owner := update σ.owner t (some p)
            threadState := update σ.threadState t .used
            state := update σ.state p .used
            current := update σ.current p (some t)
            main := update σ.main p (some t) }, ?_, ?_⟩
      · rw [halloc]
        simp only [Option.bind_some, hpush, Option.map_some]
        rfl
      · refine ⟨_, update place t (some p), hlists, ?_, ?_, ?_, ?_⟩
        · refine mem_move h.mem hsplit hrest fun t' => ?_
          rw [List.nil_append, hempty, List.mem_singleton]
          simp
        · intro q hq
          have hqp : q ≠ p := by
            rintro rfl
            exact hused hq
          rw [update_of_ne (by simpa using hqp), update_of_ne (by simp)]
          refine h.unused q ?_
          rwa [← update_of_ne hqp .used σ.state]
        · exact fun q t' => owner_update h.owner
        · exact fun q t' hrun => running_update hplace (h.running q t' hrun)
    · exact ⟨σ, rfl, on, place, h⟩

/-- Without a free descriptor nothing is allocated. -/
theorem Holds.allocproc_nil (hfree : on none = []) (hstep : σ.allocproc pid = some σ') : σ' = σ := by
  rw [Sys.allocproc] at hstep
  split at hstep
  · exact (Option.some.inj hstep).symm
  · split at hstep
    · rw [allocThread_nil (σ := σ.setState _ .used) h.lists hfree] at hstep
      exact absurd hstep (by simp)
    · exact (Option.some.inj hstep).symm

/-- The scheduler puts the thread that has run to the back of its queue, whatever has become of it. -/
theorem Holds.back (hrun : σ.running = some (p, t)) : ∃ σ', σ.back p t = some σ' ∧ Inv σ' := by
  have hplace := h.running p t hrun
  have hmem : t ∈ on (some p) := (h.mem (some p) t).mpr hplace
  have hp := h.live hplace
  obtain ⟨as, bs, hsplit⟩ := List.append_of_mem hmem
  have hqueue : elems σ.state on (some p) = some (as.map .elem ++ .elem t :: bs.map .elem) := by
    rw [elems_some hp, hsplit, List.map_append, List.map_cons]
  have hrest : t ∉ as ++ bs := by
    have hlist := h.lists.isList (some p) _ (elems_some hp)
    rw [hsplit] at hlist
    exact not_mem_of_isList hlist
  obtain ⟨L₁, hremove, hlists⟩ := h.lists.listRemove hqueue
  rw [← List.map_append, update_queue hp] at hlists
  have hno := not_mem_update h.mem hmem hrest
  have hqueue' : elems σ.state (update on (some p) (as ++ bs)) (some p) = some ((as ++ bs).map .elem) := by
    rw [elems_some hp, update_self]
  obtain ⟨L₂, hpush, hlists⟩ := hlists.listPushBack hqueue' (fresh_of_not_mem hno) (by simp)
  rw [show (as ++ bs).map Node.elem ++ [Node.elem t] = (as ++ bs ++ [t]).map Node.elem by simp,
    update_queue hp] at hlists
  refine ⟨{ σ with links := L₂, running := none }, ?_, ?_⟩
  · rw [Sys.back, hremove, Option.bind_some, hpush, Option.map_some]
  · refine ⟨_, update place t (some p), hlists, ?_, ?_, ?_, ?_⟩
    · refine mem_move h.mem hsplit hrest fun t' => ?_
      rw [update_self, List.mem_append, List.mem_singleton, or_comm]
    · exact unused_update (unused_update h.unused hp _) hp _
    · intro q t' hplace'
      rw [← hplace, update_eq_self] at hplace'
      exact h.owner q t' hplace'
    · exact fun q t' hnone => absurd hnone (by simp)

end Kept

/-- One turn of the loop of `freeproc` moves the front of the queue to the free list. -/
theorem reclaim_front {L : Links Node} {state : Slot → ProcState}
    (hlists : ListFamily .null L header (elems state on)) (hmem : ∀ i t, t ∈ on i ↔ place t = i)
    (hp : state p ≠ .unused) (hsplit : on (some p) = [] ++ t :: qs) :
    ∃ L₁ L₂, listRemove .null L (.elem t) = some L₁ ∧
      listPushFront .null L₁ (header none) (.elem t) = some L₂ ∧
      ListFamily .null L₂ header (elems state (update (update on (some p) qs) none (t :: on none))) ∧
      ∀ i t', t' ∈ update (update on (some p) qs) none (t :: on none) i ↔ update place t none t' = i := by
  have hlist := hlists.isList (some p) _ (elems_some hp)
  rw [hsplit] at hlist
  have hrest : t ∉ [] ++ qs := not_mem_of_isList hlist
  have hi : elems state on (some p) = some ([] ++ .elem t :: qs.map .elem) := by
    rw [elems_some hp, hsplit]
    rfl
  obtain ⟨L₁, hremove, hlists₁⟩ := hlists.listRemove hi
  rw [List.nil_append, update_queue hp] at hlists₁
  have hno := not_mem_update hmem (hsplit ▸ by simp : t ∈ on (some p)) hrest
  have hfree : elems state (update on (some p) qs) none = some ((on none).map .elem) := by
    rw [elems, update_of_ne (by simp)]
  obtain ⟨L₂, hpush, hlists₂⟩ := hlists₁.listPushFront hfree (fresh_of_not_mem hno) (by simp)
  rw [← List.map_cons, update_free] at hlists₂
  refine ⟨L₁, L₂, hremove, hpush, hlists₂, mem_move hmem hsplit hrest fun t' => ?_⟩
  rw [update_of_ne (by simp), List.mem_cons]

/-- The loop of `freeproc` moves every thread of the queue to the free list, whatever the rest of the lists. -/
theorem freeThreads_eq {state : Slot → ProcState} {fuel : Nat}
    (hlists : ListFamily .null σ.links header (elems state on)) (hmem : ∀ i t, t ∈ on i ↔ place t = i)
    (hp : state p ≠ .unused) (hqueue : on (some p) = qs) (hfuel : qs.length < fuel) :
    ∃ L' ts on', Sys.freeThreads p fuel (listBegin σ.links (header (some p))) σ =
        some { σ with links := L', threadState := ts } ∧
      ListFamily .null L' header (elems state on') ∧ on' (some p) = [] ∧
      (∀ q, q ≠ p → on' (some q) = on (some q)) ∧
      ∀ i t, t ∈ on' i ↔ (if place t = some p then none else place t) = i := by
  induction qs generalizing σ on place fuel with
  | nil =>
    obtain ⟨fuel, rfl⟩ : ∃ n, fuel = n + 1 := ⟨fuel - 1, by omega⟩
    have hnext := (hlists.isList (some p) _ (elems_some hp)).next_head
    have hend : listBegin σ.links (header (some p)) = listEnd (header (some p)) := by
      rw [listBegin, hnext]
      simp only [hqueue]
      rfl
    refine ⟨σ.links, σ.threadState, on, ?_, hlists, hqueue, fun _ _ => rfl, ?_⟩
    · rw [Sys.freeThreads, if_pos hend]
    · intro i t
      have ht : place t ≠ some p := by
        rw [ne_eq, ← hmem, hqueue]
        exact List.not_mem_nil
      rw [if_neg ht, hmem]
  | cons t qs ih =>
    obtain ⟨fuel, rfl⟩ : ∃ n, fuel = n + 1 := ⟨fuel - 1, by omega⟩
    have hsplit : on (some p) = [] ++ t :: qs := hqueue
    have hlist := hlists.isList (some p) _ (elems_some hp)
    rw [hsplit] at hlist
    have hbegin : listBegin σ.links (header (some p)) = .elem t := by
      rw [listBegin, hlist.next_head]
      rfl
    have hin : t ∈ on (some p) := by simp [hqueue]
    obtain ⟨L₁, L₂, hremove, hpush, hlists₂, hmem₂⟩ := reclaim_front hlists hmem hp hsplit
    have hqueue₂ : update (update on (some p) qs) none (t :: on none) (some p) = qs := by
      rw [update_of_ne (by simp), update_self]
    -- the element after `t` is where the loop goes on, and the front of what is left of the queue
    have htmp : σ.links.next (.elem t) = listBegin L₂ (header (some p)) := by
      have hleft := hlists₂.isList (some p) _ (elems_some hp)
      rw [hqueue₂] at hleft
      rw [listBegin, hleft.next_head]
      rw [List.map_append, List.map_cons] at hlist
      exact hlist.next_eq
    obtain ⟨L', ts, on', hrun, hlists', hempty, hothers, hmem'⟩ :=
      ih (σ := { σ with links := L₂, threadState := update σ.threadState t .unused }) hlists₂ hmem₂ hqueue₂
        (Nat.lt_of_succ_lt_succ hfuel)
    refine ⟨L', ts, on', ?_, hlists', hempty, ?_, ?_⟩
    · have hend : Node.elem t ≠ listEnd (header (some p)) := by simp [listEnd, header]
      rw [Sys.freeThreads, hbegin, if_neg hend]
      simp only [Sys.listEntry, Option.bind_some, hremove, hpush, htmp]
      exact hrun
    · intro q hq
      have hqp : some q ≠ some p := by simpa using hq
      rw [hothers q hq, update_of_ne (by simp), update_of_ne hqp]
    · intro i t'
      rw [hmem']
      by_cases ht : t' = t
      · subst ht
        rw [update_self, if_neg (by simp), (hmem _ t').mp hin, if_pos rfl]
      · rw [update_of_ne ht]

/-- What follows the loop only changes the states and the pointers of the process. -/
theorem Holds.reclaimed {on' : Option Slot → List Thread} (h : Holds σ on place)
    (hlists : ListFamily .null σ'.links header (elems σ.state on')) (hempty : on' (some p) = [])
    (hothers : ∀ q, q ≠ p → on' (some q) = on (some q))
    (hmem : ∀ i t, t ∈ on' i ↔ (if place t = some p then none else place t) = i) (howner : σ'.owner = σ.owner)
    (hstate : σ'.state = update σ.state p .unused) (hsame : σ'.running = σ.running)
    (hrunning : ∀ q t, σ.running = some (q, t) → q ≠ p) :
    Holds σ' on' fun t => if place t = some p then none else place t where
  lists := by
    rw [hstate]
    refine hlists.mono fun i xs hi => ?_
    rw [← hi]
    cases i with
    | none => rfl
    | some q =>
      have hqp : q ≠ p := by
        rintro rfl
        simp [elems] at hi
      simp only [elems, update_of_ne hqp]
  mem := hmem
  unused := by
    intro q hq
    by_cases hqp : q = p
    · rw [hqp, hempty]
    · rw [hstate, update_of_ne hqp] at hq
      rw [hothers q hqp]
      exact h.unused q hq
  owner := by
    intro q t hq
    rw [howner]
    split at hq
    · exact absurd hq (by simp)
    · exact h.owner q t hq
  running := by
    intro q t hq
    rw [hsame] at hq
    have hplace := h.running q t hq
    rw [if_neg, hplace]
    rw [hplace]
    simpa using hrunning q t hq

theorem Holds.freeproc (h : Holds σ on place) (hp : σ.state p = .zombie)
    (hrunning : ∀ q t, σ.running = some (q, t) → q ≠ p) : ∃ σ', σ.freeproc p = some σ' ∧ Inv σ' := by
  have hused : σ.state p ≠ .unused := by simp [hp]
  have hlen : (on (some p)).length < THREAD_NUM + 1 :=
    Nat.lt_succ_of_le (length_le (h.lists.isList (some p) _ (elems_some hused)))
  obtain ⟨L', ts, on', hrun, hlists, hempty, hothers, hmem⟩ := freeThreads_eq h.lists h.mem hused rfl hlen
  have hrest : ∀ σ' : Sys, σ'.links = L' → σ'.owner = σ.owner → σ'.state = update σ.state p .unused →
      σ'.running = σ.running → Inv σ' := fun σ' hlinks howner hstate hsame =>
    ⟨_, _, h.reclaimed (hlinks ▸ hlists) hempty hothers hmem howner hstate hsame hrunning⟩
  rw [Sys.freeproc, hrun, Option.map_some]
  refine ⟨_, rfl, ?_⟩
  simp only
  split
  · split
    · exact hrest _ rfl rfl rfl rfl
    · exact hrest _ rfl rfl rfl rfl
  · split
    · exact hrest _ rfl rfl rfl rfl
    · exact hrest _ rfl rfl rfl rfl

theorem byRunning_some {f : Slot → Thread → Option Sys} (hstep : σ.byRunning f = some σ') :
    ∃ p t, σ.running = some (p, t) ∧ σ.state p = .running ∧ f p t = some σ' := by
  rw [Sys.byRunning] at hstep
  split at hstep
  · rename_i p t hrun
    rw [Option.ite_none_right_eq_some] at hstep
    exact ⟨p, t, hrun, hstep.1, hstep.2⟩
  · exact absurd hstep (by simp)

theorem Inv.step {e : Event} (h : Inv σ) (hstep : σ.step e = some σ') : Inv σ' := by
  obtain ⟨on, place, h⟩ := h
  cases e with
  | allocproc pid =>
    cases hfree : on none with
    | nil =>
      rw [h.allocproc_nil hfree hstep]
      exact ⟨on, place, h⟩
    | cons t ts =>
      obtain ⟨σ'', halloc, hinv⟩ := h.allocproc pid hfree
      cases halloc.symm.trans hstep
      exact hinv
  | ready p =>
    rw [Sys.step, Option.ite_none_right_eq_some] at hstep
    obtain ⟨hused, hstep⟩ := hstep
    cases hstep
    exact ⟨on, place, h.ready (by simp [hused])⟩
  | cloneThread =>
    obtain ⟨p, t, -, hp, hstep⟩ := byRunning_some hstep
    cases hfree : on none with
    | nil =>
      rw [Sys.cloneThread, allocThread_nil h.lists hfree] at hstep
      exact absurd hstep (by simp)
    | cons t ts =>
      have hused : σ.state p ≠ .unused := by simp [hp]
      obtain ⟨σ'', hclone, hinv⟩ := h.cloneThread hused hfree
      cases hclone.symm.trans hstep
      exact hinv
  | dispatch p late =>
    rw [Sys.step, Option.ite_none_right_eq_some] at hstep
    obtain ⟨⟨-, hp⟩, hstep⟩ := hstep
    cases hstep
    exact ⟨on, place, h.dispatch (by simp [hp])⟩
  | back =>
    rw [Sys.step] at hstep
    split at hstep
    · rename_i p t hrun
      rw [Option.ite_none_left_eq_some] at hstep
      obtain ⟨σ'', hback, hinv⟩ := h.back hrun
      cases hback.symm.trans hstep.2
      exact hinv
    · exact absurd hstep (by simp)
  | yield | sleep | wait =>
    obtain ⟨p, t, -, hp, hstep⟩ := byRunning_some hstep
    cases hstep
    exact ⟨on, place, h.leave (by simp [hp]) (by simp) t _⟩
  | wake p =>
    rw [Sys.step, Option.ite_none_right_eq_some] at hstep
    obtain ⟨hp, hstep⟩ := hstep
    cases hstep
    exact ⟨on, place, h.setState (by simp [hp]) (by simp)⟩
  | wakeThread t =>
    cases hstep
    exact ⟨on, place, h.setThreadState t .runnable⟩
  | threadExit =>
    obtain ⟨p, t, -, hp, hstep⟩ := byRunning_some hstep
    exact ⟨on, place, h.threadExit (by simp [hp]) hstep⟩
  | exit =>
    obtain ⟨p, t, -, hp, hstep⟩ := byRunning_some hstep
    exact ⟨on, place, h.exit (by simp [hp]) hstep⟩
  | freeproc p =>
    obtain ⟨q, t, hrun, hq, hstep⟩ := byRunning_some hstep
    rw [Option.ite_none_right_eq_some] at hstep
    obtain ⟨hp, hstep⟩ := hstep
    -- the process that is reaped is a zombie, so it is not the one that runs
    have hother : ∀ q' t', σ.running = some (q', t') → q' ≠ p := by
      intro q' t' hrun' hqp
      cases hrun.symm.trans hrun'
      rw [hqp, hp] at hq
      exact absurd hq (by simp)
    obtain ⟨σ'', hfree, hinv⟩ := h.freeproc hp hother
    cases hfree.symm.trans hstep
    exact hinv

end Steps

/-! ## The start -/

section Start

variable {σ : Sys} {L : Links Node} {state : Slot → ProcState} {on : Option Slot → List Thread} {xs ts : List Thread}

/-- The loop of `thread_init` appends the threads that are on no list yet. -/
theorem pushBack_all (hlists : ListFamily .null L header (elems state on)) (hfree : on none = xs)
    (hno : ∀ t ∈ ts, ∀ i, t ∉ on i) (hnd : ts.Nodup) :
    ∃ L', ts.foldlM (fun L i => listPushBack .null L (header none) (.elem i)) L = some L' ∧
      ListFamily .null L' header (elems state (update on none (xs ++ ts))) := by
  induction ts generalizing L on xs with
  | nil =>
    refine ⟨L, rfl, ?_⟩
    rwa [List.append_nil, ← hfree, update_eq_self]
  | cons t ts ih =>
    obtain ⟨ht, hnd⟩ := List.nodup_cons.mp hnd
    have hi : elems state on none = some (xs.map .elem) := by rw [elems, hfree]
    have hfresh : ListFamily.Fresh header (elems state on) (.elem t) := fresh_of_not_mem (hno t List.mem_cons_self)
    obtain ⟨L₁, hpush, hlists₁⟩ := hlists.listPushBack hi hfresh (by simp)
    rw [show xs.map Node.elem ++ [Node.elem t] = (xs ++ [t]).map Node.elem by simp, update_free] at hlists₁
    have hno₁ : ∀ t' ∈ ts, ∀ i, t' ∉ update on none (xs ++ [t]) i := by
      intro t' ht' i
      have hne : t' ≠ t := fun heq => ht (heq ▸ ht')
      have hon := hno t' (List.mem_cons_of_mem t ht')
      by_cases hi : i = none
      · subst hi
        rw [update_self, ← hfree, List.mem_append, List.mem_singleton, not_or]
        exact ⟨hon none, hne⟩
      · rw [update_of_ne hi]
        exact hon i
    obtain ⟨L₂, hrun, hlists₂⟩ := ih hlists₁ (update_self ..) hno₁ hnd
    refine ⟨L₂, ?_, ?_⟩
    · rw [List.foldlM_cons, hpush]
      exact hrun
    · rwa [Function.update_idem, List.append_assoc, List.singleton_append] at hlists₂

/-- `thread_init` puts every thread on the free list, whatever the links were. -/
theorem threadInit_eq (hstate : ∀ p, state p = .unused) :
    ∃ L', Sys.threadInit L = some L' ∧
      ListFamily .null L' header (elems state (update (fun _ => []) none (List.finRange THREAD_NUM))) := by
  have hnone : ListFamily .null L header fun _ => none := ⟨by simp, by simp⟩
  have hinit := hnone.listInit (i := none) (by simp [header]) (by simp [header]) (by simp [header]) (by simp)
  have helems : update (fun _ => none) none (some []) = elems state fun _ => [] := by
    funext i
    cases i with
    | none => rfl
    | some p => simp [elems, hstate p]
  rw [helems] at hinit
  obtain ⟨L', hrun, hlists⟩ := pushBack_all hinit rfl (by simp) (List.nodup_finRange THREAD_NUM)
  rw [List.nil_append] at hlists
  exact ⟨L', hrun, hlists⟩

theorem Inv.boot (h : σ.Boot) : Inv σ := by
  obtain ⟨⟨L, hlinks⟩, hstate, hrunning⟩ := h
  obtain ⟨L', hinit, hlists⟩ := threadInit_eq (L := L) hstate
  cases hinit.symm.trans hlinks
  refine ⟨_, fun _ => none, hlists, ?_, ?_, ?_, ?_⟩
  · intro i t
    cases i with
    | none => simp
    | some p => simp
  · intro p _
    rw [update_of_ne (by simp)]
  · exact fun p t hplace => absurd hplace (by simp)
  · intro p t hrun
    rw [hrunning] at hrun
    exact absurd hrun (by simp)

end Start

/-! ## Conservation -/

section Conservation

variable {σ σ₀ : Sys} {on : Option Slot → List Thread} {place : Thread → Option Slot}

theorem inUse_iff {i : Option Slot} : σ.InUse i ↔ elems σ.state on i = some ((on i).map .elem) := by
  cases i with
  | none => exact iff_of_true trivial rfl
  | some p => simp [Sys.InUse, elems]

theorem Holds.on_iff (h : Holds σ on place) {i : Option Slot} {t : Thread} : σ.On i t ↔ place t = i := by
  constructor
  · rintro ⟨hi, xs, hxs, ht⟩
    have hlist := h.lists.isList i _ (inUse_iff.mp hi)
    rw [hxs.unique hlist, elem_mem] at ht
    exact (h.mem i t).mp ht
  · rintro hplace
    have hi : σ.InUse i := by
      cases i with
      | none => trivial
      | some p => exact h.live hplace
    exact ⟨hi, _, h.lists.isList i _ (inUse_iff.mp hi), elem_mem.mpr ((h.mem i t).mpr hplace)⟩

theorem Inv.conserved (h : Inv σ) : σ.Conserved := by
  obtain ⟨on, place, h⟩ := h
  refine ⟨?_, ?_, ?_, ?_⟩
  · exact fun i hi => ⟨_, h.lists.isList i _ (inUse_iff.mp hi)⟩
  · exact fun t => ⟨place t, h.on_iff.mpr rfl, fun i hi => (h.on_iff.mp hi).symm⟩
  · exact fun p t hon => h.owner p t (h.on_iff.mp hon)
  · exact fun p t hrun => h.on_iff.mpr (h.running p t hrun)

/-- A descriptor that is not missing is at the front of the free list, or behind it. -/
theorem Holds.not_on_free (h : Holds σ on place) {α : Type*} {r : Option α}
    (hcons : ∀ t ts, on none = t :: ts → ∃ a, r = some a) (hr : r = none) (t : Thread) : ¬ σ.On none t := by
  intro hon
  have hmem := (h.mem none t).mpr (h.on_iff.mp hon)
  cases hfree : on none with
  | nil => rw [hfree] at hmem; exact absurd hmem List.not_mem_nil
  | cons t' ts =>
    obtain ⟨a, ha⟩ := hcons t' ts hfree
    exact absurd (ha.symm.trans hr) (by simp)

theorem Inv.neverAsserts (h : Inv σ) : σ.NeverAsserts := by
  obtain ⟨on, place, h⟩ := h
  refine ⟨?_, ?_, ?_, ?_⟩
  · intro p t hrun
    obtain ⟨σ', hback, -⟩ := h.back hrun
    exact ⟨σ', hback⟩
  · intro p hp hother
    obtain ⟨σ', hfree, -⟩ := h.freeproc hp hother
    exact ⟨σ', hfree⟩
  · refine fun pid hnone => h.not_on_free (fun t ts hfree => ?_) hnone
    obtain ⟨σ', halloc, -⟩ := h.allocproc pid hfree
    exact ⟨σ', halloc⟩
  · refine fun p hp hnone => h.not_on_free (fun t ts hfree => ?_) hnone
    obtain ⟨σ', hclone, -⟩ := h.cloneThread hp hfree
    exact ⟨σ', hclone⟩

/-- Every descriptor is on exactly one list, in every state that a run reaches. -/
theorem threads_conserved (hboot : σ₀.Boot) (hrun : Reaches Sys.Step σ₀ σ) : σ.Conserved ∧ σ.NeverAsserts := by
  have hinv : Inv σ := hrun.invariant (Inv.boot hboot) fun s s' hs ⟨e, hstep⟩ => hs.step hstep
  exact ⟨hinv.conserved, hinv.neverAsserts⟩

/-- The kernel after `thread_init`, on links that are all null before. -/
def booted : Sys where
  links := (Sys.threadInit ⟨fun _ => .null, fun _ => .null⟩).getD ⟨fun _ => .null, fun _ => .null⟩
  owner := fun _ => none
  threadState := fun _ => .unused
  state := fun _ => .unused
  current := fun _ => none
  main := fun _ => none
  running := none

theorem booted_boot : booted.Boot := by
  have hstate : ∀ p, booted.state p = .unused := fun _ => rfl
  obtain ⟨L, hinit, -⟩ := threadInit_eq (L := ⟨fun _ => .null, fun _ => .null⟩) hstate
  have hlinks : booted.links = L := by rw [booted, hinit, Option.getD_some]
  exact ⟨⟨_, hinit.trans (congrArg some hlinks.symm)⟩, fun _ => rfl, rfl⟩

/-- At the start every descriptor is free, so the first `allocproc` does not panic. -/
theorem booted_allocproc : ∃ σ, booted.allocproc true = some σ ∧ ∃ p, σ.state p = .used := by
  cases hstep : booted.allocproc true with
  | none =>
    have hinv := Inv.boot booted_boot
    obtain ⟨i, hi, -⟩ := hinv.conserved.one_list ⟨0, by decide⟩
    cases i with
    | none => exact absurd hi (hinv.neverAsserts.allocproc true hstep ⟨0, by decide⟩)
    | some p => exact absurd rfl hi.1
  | some σ =>
    refine ⟨σ, rfl, ?_⟩
    rw [Sys.allocproc] at hstep
    split at hstep
    · rename_i hfind
      exact absurd (List.find?_eq_none.mp hfind ⟨0, by decide⟩ (List.mem_finRange _)) (by simp [booted])
    · rename_i p _
      rw [if_pos rfl, Option.bind_eq_some_iff] at hstep
      obtain ⟨⟨t, σ₁⟩, halloc, hstep⟩ := hstep
      obtain ⟨L, -, rfl⟩ := Option.map_eq_some_iff.mp hstep
      exact ⟨p, by simp [allocThread_state halloc, Sys.setState]⟩

/-- After the `allocproc` of the first process. -/
theorem threads_conserved_first :
    ∃ σ, Reaches Sys.Step booted σ ∧ (∃ p, σ.state p = .used) ∧ σ.Conserved ∧ σ.NeverAsserts := by
  obtain ⟨σ, hstep, hused⟩ := booted_allocproc
  have hrun : Reaches Sys.Step booted σ := .single ⟨.allocproc true, hstep⟩
  exact ⟨σ, hrun, hused, threads_conserved booted_boot hrun⟩

end Conservation

end SC7.ThreadLists
