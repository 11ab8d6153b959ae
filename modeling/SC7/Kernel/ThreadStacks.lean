-- SUMMARY: The areas that the stacks of threads lie in (`clone_thread`, `thread_exit`, `munmap`): their counts against the threads that use them.
import SC7.Mem.Munmap

/-!
# The stacks of the threads

`clone_thread` looks for the area with the stack of the new thread, counts the thread in `ref_count` and lets the
thread remember the node; `thread_exit` counts it out at the node that the thread remembers, wherever that is. `munmap`
looks at `ref_count` for an area in its range: it takes one off and keeps the area. An area that it only cuts, or that
begins where the range ends, gets new nodes whatever its count says.

The list of areas is modelled twice, as for `munmap`: by the nodes in memory, to which the threads point, and by
the areas with the page table. A panic, and the exit of the process, is no step.
-/

namespace SC7.Stacks

/-! ## Threads -/

/-- What a thread has of its stack; `none` is `NULL`. -/
structure Thread where
  stackVma : Option Nat
  /-- neither `t_ZOMBIE` nor `t_UNUSED` -/
  live : Bool

structure Proc where
  mem : VmaMem
  /-- the nodes of the list of areas -/
  nodes : List Nat
  space : Space
  /-- the thread queue -/
  threads : List Thread

/-- The number of live threads whose `stack_vma` is the node. -/
def users (threads : List Thread) (n : Nat) : Nat := threads.countP fun t => t.live && t.stackVma == some n

namespace Proc

/-- `vma->ref_count += d`. -/
def count (p : Proc) (v : Nat) (d : Int) : Proc :=
  let mem := p.mem.setNode v { p.mem.node v with refCount := (p.mem.node v).refCount + d }
  { p with mem, space := p.space.setVmas (p.nodes.map mem.node) }

/-- The search for `existing_vma`. -/
def findStack (fuel pid stackVa : Nat) (p : Proc) : Option (Option Nat) :=
  Links.seek p.mem.links.next (p.mem.head pid)
    (fun v => decide (stackVa ≥ (p.mem.node v).addr ∧ stackVa < (p.mem.node v).end_)) fuel
    (p.mem.links.next (p.mem.head pid))

def cloneThread (fuel pid stackVa : Nat) (p : Proc) : Option Proc := (p.findStack fuel pid stackVa).map fun
    | none => { p with threads := ⟨none, true⟩ :: p.threads }
    | some v => { p.count v 1 with threads := ⟨some v, true⟩ :: p.threads }

/-- `thread_exit` of the `i`th thread; the last one takes the process with it. -/
def threadExit (i : Nat) (p : Proc) : Option Proc :=
  p.threads[i]?.bind fun t =>
    if t.live = false then none
    else
      let q := match t.stackVma with
        | none => p
        | some v => p.count v (-1)
      let threads := p.threads.set i ⟨none, false⟩
      if threads.any (·.live) then some { q with threads } else none

end Proc

inductive Op where
  | cloneThread (stackVa : Nat)
  | threadExit (i : Nat)
  | munmap (start : Nat) (len : Int)

/-- A call of the process `pid`. The allocator gives `munmap` any pages that hold no area. -/
inductive Step (arch : Arch) (pid : Nat) : Op → Proc → Proc → Prop where
  | cloneThread {p p' : Proc} {fuel stackVa : Nat} :
      p.cloneThread fuel pid stackVa = some p' → Step arch pid (.cloneThread stackVa) p p'
  | threadExit {p p' : Proc} {i : Nat} : p.threadExit i = some p' → Step arch pid (.threadExit i) p p'
  | munmap {p : Proc} {ops : PageOps} {fuel start : Nat} {len r r' : Int} {supply nodes' : List Nat} {mem' : VmaMem}
      {space' : Space} :
      start < 2 ^ 64 → len < 2 ^ 31 →
      ({ p.mem with supply } : VmaMem).munmap ops fuel pid start len = some (r, mem') →
      Space.munmap arch start len p.space = some (r', space') →
      Represents mem' pid nodes' space' →
      Step arch pid (.munmap start len) p ⟨mem', nodes', space', p.threads⟩

/-! ## What the counts are for -/

/-- Each count is one more than the threads that use the area, and each thread points to an area of the list. -/
structure Right (p : Proc) : Prop where
  counts : ∀ n ∈ p.nodes, (p.mem.node n).refCount = 1 + users p.threads n
  listed : ∀ t ∈ p.threads, ∀ n, t.stackVma = some n → n ∈ p.nodes

/-- The pages of the stacks of the live threads keep their entries. -/
def KeepsStacks (p p' : Proc) : Prop :=
  ∀ t ∈ p.threads, t.live = true → ∀ n, t.stackVma = some n → ∀ a, (p.mem.node n).Has a →
    p'.space.leaf (a / PGSIZE) = p.space.leaf (a / PGSIZE)

/-- A process whose list of areas is well formed. -/
structure Proc.Ok (pid : Nat) (p : Proc) : Prop where
  represents : Represents p.mem pid p.nodes p.space
  sorted : Vma.Sorted p.space.vmas

/-- The range of a `munmap` neither overlaps the area of a thread, nor ends where one begins. -/
def Op.Spares (p : Proc) : Op → Prop
  | .munmap start len => ∀ t ∈ p.threads, ∀ n, t.stackVma = some n →
      ¬(p.mem.node n).Touched (pgRoundDown start) (munmapEnd start len)
  | _ => True

variable {arch : Arch} {pid fuel stackVa i n v start : Nat} {d len : Int} {p p' : Proc} {op : Op}
  {threads : List Thread} {t : Thread} {l supply : List Nat} {m : VmaMem} {s : Space}

/-! ## Counting -/

/-- A used area counts more than one. -/
theorem users_pos (ht : t ∈ threads) (hlive : t.live = true) (hv : t.stackVma = some v) : 0 < users threads v := by
  unfold users
  rw [List.countP_pos_iff]
  exact ⟨t, ht, by simp [hlive, hv]⟩

theorem users_eq_zero (h : ∀ t ∈ threads, t.stackVma ≠ some v) : users threads v = 0 := by
  unfold users
  rw [List.countP_eq_zero]
  intro t ht hc
  simp only [Bool.and_eq_true, beq_iff_eq] at hc
  exact h t ht hc.2

theorem users_cons (threads : List Thread) (w : Option Nat) (n : Nat) :
    users (⟨w, true⟩ :: threads) n = users threads n + if w = some n then 1 else 0 := by
  unfold users
  rw [List.countP_cons]
  simp

/-- A thread that leaves is counted no longer. -/
theorem users_set (ht : threads[i]? = some t) (hlive : t.live = true) (n : Nat) :
    users (threads.set i ⟨none, false⟩) n + (if t.stackVma = some n then 1 else 0) = users threads n := by
  obtain ⟨hi, hget⟩ := List.getElem?_eq_some_iff.mp ht
  have hset := List.countP_set (p := fun t : Thread => t.live && t.stackVma == some n) (a := ⟨none, false⟩) hi
  have hpos : t.stackVma = some n → 0 < users threads n := users_pos (hget ▸ List.getElem_mem hi) hlive
  rw [hget] at hset
  unfold users at *
  rw [hset]
  by_cases hn : t.stackVma = some n
  · have h0 := hpos hn
    simp only [hlive, hn, Bool.true_and, beq_self_eq_true, if_true, Bool.false_and, Bool.false_eq_true, if_false]
    omega
  · simp [hn]

namespace Proc

/-- Counting writes one field of one node. -/
theorem count_node (p : Proc) (v : Nat) (d : Int) (n : Nat) :
    (p.count v d).mem.node n =
      { p.mem.node n with refCount := (p.mem.node n).refCount + if n = v then d else 0 } := by
  change Function.update p.mem.node v _ n = _
  by_cases hn : n = v
  · subst hn
    rw [Function.update_self, if_pos rfl]
  · rw [Function.update_of_ne hn, if_neg hn, Int.add_zero]

/-- The list stays as it is. -/
theorem Ok.count (h : p.Ok pid) (hv : v ∈ p.nodes) : (p.count v d).Ok pid where
  represents := by
    have hmem : v ∈ VmaMem.owned (p.mem.head pid) p.nodes [] := by simp [hv]
    obtain ⟨howns, hmoved⟩ := h.represents.owns.write hmem
      { p.mem.node v with refCount := (p.mem.node v).refCount + d }
    exact ⟨howns, hmoved.closed h.represents.closed, rfl⟩
  sorted := by
    have hs := h.sorted
    rw [← h.represents.vmas] at hs
    change Vma.Sorted (p.nodes.map (p.count v d).mem.node)
    refine ⟨List.pairwise_map.mpr ((List.pairwise_map.mp hs.1).imp fun {a b} hab => ?_), fun w hw => ?_⟩
    · rw [count_node, count_node]
      exact hab
    · obtain ⟨n, hn, rfl⟩ := List.mem_map.mp hw
      obtain ⟨h1, h2, h3⟩ := hs.2 _ (List.mem_map_of_mem hn)
      rw [count_node]
      exact ⟨h1, h2, h3⟩

end Proc

/-! ## `clone_thread` and `thread_exit` -/

/-- The search finds a node of the list. -/
theorem seek_mem {L : Links Nat} {h : Nat} {c : Nat → Bool} {x : Nat} (hring : L.Circular h l)
    (hx : x ∈ h :: l) (hs : Links.seek L.next h c fuel x = some (some v)) : v ∈ l := by
  induction fuel generalizing x with
  | zero => cases hs
  | succ fuel ih =>
    rw [Links.seek] at hs
    split at hs
    · cases hs
    · rename_i hne
      split at hs
      · cases hs
        exact (List.mem_cons.mp hx).resolve_left hne
      · exact ih (hring.next_mem_ring hx) hs

theorem findStack_mem (h : p.Ok pid) (hs : p.findStack fuel pid stackVa = some (some v)) : v ∈ p.nodes := by
  have hring := h.represents.owns.circular
  exact seek_mem hring (hring.next_mem_ring (List.mem_cons_self ..)) hs

theorem cloneThread_keeps (h : p.Ok pid) (hright : Right p) (hcall : p.cloneThread fuel pid stackVa = some p') :
    p'.Ok pid ∧ Right p' ∧ p'.space.leaf = p.space.leaf := by
  obtain ⟨found, hfind, rfl⟩ := Option.map_eq_some_iff.mp hcall
  cases found with
  | none =>
    refine ⟨⟨h.represents, h.sorted⟩, ⟨fun n hn => ?_, fun t ht n hn => ?_⟩, rfl⟩
    · have hcount := hright.counts n hn
      rw [users_cons, if_neg (by simp), Nat.add_zero]
      exact hcount
    · rcases List.mem_cons.mp ht with rfl | ht
      · cases hn
      · exact hright.listed t ht n hn
  | some v =>
    have hv := findStack_mem h hfind
    obtain ⟨hrep, hsorted⟩ := h.count (d := 1) hv
    refine ⟨⟨hrep, hsorted⟩, ⟨fun n hn => ?_, fun t ht n hn => ?_⟩, rfl⟩
    · have hcount := hright.counts n hn
      have hnode := congrArg Vma.refCount (p.count_node v 1 n)
      rw [users_cons]
      refine hnode.trans ?_
      dsimp only
      rw [hcount]
      by_cases hnv : n = v
      · rw [if_pos hnv, if_pos (by rw [hnv])]
        push_cast
        omega
      · rw [if_neg hnv, if_neg fun heq => hnv (Option.some.inj heq).symm]
        push_cast
        omega
    · rcases List.mem_cons.mp ht with rfl | ht
      · cases hn
        exact hv
      · exact hright.listed t ht n hn

theorem threadExit_keeps (h : p.Ok pid) (hright : Right p) (hcall : p.threadExit i = some p') :
    p'.Ok pid ∧ Right p' ∧ p'.space.leaf = p.space.leaf := by
  obtain ⟨t, ht, hcall⟩ := Option.bind_eq_some_iff.mp hcall
  dsimp only at hcall
  split at hcall
  · cases hcall
  · rename_i hlive
    have hlive := eq_true_of_ne_false hlive
    split at hcall
    · obtain rfl := Option.some.inj hcall
      have hmem : t ∈ p.threads := List.mem_of_getElem? ht
      have hlisted : ∀ t' ∈ p.threads.set i ⟨none, false⟩, ∀ n, t'.stackVma = some n → n ∈ p.nodes := by
        intro t' ht' n hn
        rcases List.mem_or_eq_of_mem_set ht' with ht' | rfl
        · exact hright.listed t' ht' n hn
        · cases hn
      cases hv : t.stackVma with
      | none =>
        refine ⟨⟨h.represents, h.sorted⟩, ⟨fun n hn => ?_, hlisted⟩, rfl⟩
        have husers := users_set ht hlive n
        rw [hv, if_neg (by simp), Nat.add_zero] at husers
        have hcount := hright.counts n hn
        rw [← husers] at hcount
        exact hcount
      | some v =>
        have hvmem := hright.listed t hmem v hv
        obtain ⟨hrep, hsorted⟩ := h.count (d := -1) hvmem
        refine ⟨⟨hrep, hsorted⟩, ⟨fun n hn => ?_, hlisted⟩, rfl⟩
        have husers := users_set ht hlive n
        have hcount := hright.counts n hn
        have hnode := congrArg Vma.refCount (p.count_node v (-1) n)
        refine hnode.trans ?_
        dsimp only
        rw [hcount]
        by_cases hnv : n = v
        · rw [if_pos (by rw [hv, hnv])] at husers
          rw [if_pos hnv]
          omega
        · rw [if_neg fun heq => hnv (Option.some.inj (hv.symm.trans heq)).symm] at husers
          rw [if_neg hnv]
          omega
    · cases hcall

/-! ## `munmap` -/

/-- The nodes of a process are those of its list. -/
theorem nodes_unique {l' : List Nat} {s' : Space} (h : Represents m pid l s)
    (h' : Represents m pid l' s') : l = l' := by
  have hwalk := h.owns.circular.walk_eq (Nat.le_max_left l.length l'.length)
  have hwalk' := h'.owns.circular.walk_eq (Nat.le_max_right l.length l'.length)
  exact Option.some.inj (hwalk.symm.trans hwalk')

/-- The pages of the allocator do not matter. -/
theorem represents_supply (h : Represents m pid l s) : Represents { m with supply } pid l s :=
  ⟨⟨h.owns.circular, h.owns.nodup, h.owns.used⟩, h.closed, h.vmas⟩

/-- The range of `munmap`, from any start. -/
theorem apart_rounded (hstart : start < 2 ^ 64) (hpos : 0 < len) (hlen : len < 2 ^ 31) :
    Vma.Apart (pgRoundDown start) (munmapEnd start len) := by
  simp only [Vma.Apart, munmapEnd, pgRoundDown, toU64, PGSIZE]
  omega

/-- An area that nobody holds leaves areas with its count. -/
theorem refCount_unmap {a w : Vma} {end_ : Nat} (hone : a.Touched start end_ → a.refCount = 1)
    (hw : w ∈ a.unmap start end_) : w.refCount = a.refCount := by
  by_cases ht : a.Touched start end_
  · have hheld : ¬a.Held start end_ := fun hheld => by
      have := hheld.2.2
      rw [hone ht] at this
      omega
    rcases Vma.mem_pieces.mp (Vma.unmap_touched ht hheld hw) with ⟨-, rfl⟩ | ⟨-, rfl⟩
    · rfl
    · rfl
  · rw [Vma.unmap_untouched ht] at hw
    rw [List.mem_singleton.mp hw]

section Munmap

variable {m' : VmaMem} {l' : List Nat} {s' : Space} {start end_ : Nat} {r : Int}

/-- The areas in the range have no users, so each of them counts one. -/
theorem touched_one (hright : Right p)
    (hspares : ∀ t ∈ p.threads, ∀ n, t.stackVma = some n → ¬(p.mem.node n).Touched start end_)
    (hn : n ∈ p.nodes) (ht : (p.mem.node n).Touched start end_) :
    users p.threads n = 0 ∧ (p.mem.node n).refCount = 1 := by
  have husers : users p.threads n = 0 := users_eq_zero fun t hmem hv => hspares t hmem n hv ht
  have hcount := hright.counts n hn
  rw [husers] at hcount
  exact ⟨husers, hcount⟩

variable (h : p.Ok pid) (hright : Right p)
  (hspares : ∀ t ∈ p.threads, ∀ n, t.stackVma = some n → ¬(p.mem.node n).Touched start end_)
  (hu : Unmapped start end_ r p.mem m' p.nodes l' p.space s')
include h hright hspares hu

/-- What is left counts its users, and the nodes of the threads stay. -/
theorem unmapped_right (hvmas : l'.map m'.node = s'.vmas) : Right ⟨m', l', s', p.threads⟩ where
  counts n hn := by
    -- the area of the node is what is left of one of the old areas
    have hleft : ∃ w ∈ p.nodes, m'.node n ∈ (p.mem.node w).unmap start end_ := by
      have hmem : m'.node n ∈ s'.vmas := hvmas ▸ List.mem_map_of_mem hn
      rw [hu.vmas, ← h.represents.vmas] at hmem
      obtain ⟨a, ha, hmem⟩ := List.mem_flatMap.mp hmem
      obtain ⟨w, hw, rfl⟩ := List.mem_map.mp ha
      exact ⟨w, hw, hmem⟩
    obtain ⟨w, hw, hmem⟩ := hleft
    have hpos : 0 < (m'.node n).refCount := by
      rw [refCount_unmap (fun ht => (touched_one hright hspares hw ht).2) hmem, hright.counts w hw]
      omega
    -- a node with a piece has no users
    have hpiece : users p.threads n = 0 →
        (∃ x ∈ p.nodes, (p.mem.node x).Touched start end_ ∧ m'.node n ∈ (p.mem.node x).pieces start end_) →
        (m'.node n).refCount = 1 + users p.threads n := by
      rintro husers ⟨x, hx, ht, hp⟩
      have hone := (touched_one hright hspares hx ht).2
      rw [husers]
      rcases Vma.mem_pieces.mp hp with ⟨-, heq⟩ | ⟨-, heq⟩
      · rw [heq]
        exact hone
      · rw [heq]
        exact hone
    by_cases hold : n ∈ p.nodes
    · by_cases ht : (p.mem.node n).Touched start end_
      · obtain ⟨husers, hone⟩ := touched_one hright hspares hold ht
        obtain ⟨m₁, m₂, hsplit⟩ := List.append_of_mem hold
        rcases hu.nodes.touched m₁ n m₂ hsplit ht hn with hdec | ⟨x, hx, hrest⟩
        · -- the count would be zero
          rw [hdec] at hpos
          dsimp only at hpos
          omega
        · exact hpiece husers ⟨x, by rw [hsplit]; simp [hx], hrest⟩
      · rw [(hu.nodes.same n hold ht).2]
        exact hright.counts n hold
    · have husers : users p.threads n = 0 := users_eq_zero fun t hmem hv => hold (hright.listed t hmem n hv)
      exact hpiece husers ((hu.nodes.new n hn).resolve_left hold)
  listed t ht n hn := (hu.nodes.same n (hright.listed t ht n hn) (hspares t ht n hn)).1

/-- No entry of their pages is cleared. -/
theorem unmapped_keepsStacks (hs : Vma.Sorted p.space.vmas) : KeepsStacks p ⟨m', l', s', p.threads⟩ := by
  intro t ht _ n hn a ha
  refine hu.leaf.kept _ ?_
  rintro ⟨w, hw, hfreed⟩
  have hpage : a / PGSIZE * PGSIZE ≤ a ∧ a < (a / PGSIZE + 1) * PGSIZE := by
    simp only [PGSIZE]
    omega
  obtain ⟨hwa, -⟩ := hfreed.has (hu.aligned w hw) hpage.1 hpage.2
  have hmem : p.mem.node n ∈ p.space.vmas := h.represents.vmas ▸ List.mem_map_of_mem (hright.listed t ht n hn)
  rw [← hs.unique hmem hw ha hwa] at hfreed
  exact hspares t ht n hn hfreed.1

end Munmap

/-- A call that spares the stacks. -/
theorem munmap_keeps (h : p.Ok pid) (hright : Right p) {r r' : Int} {ops : PageOps}
    {nodes' : List Nat} {mem' : VmaMem} {space' : Space} (hstart : start < 2 ^ 64) (hlen : len < 2 ^ 31)
    (hspares : (Op.munmap start len).Spares p)
    (hm : ({ p.mem with supply } : VmaMem).munmap ops fuel pid start len = some (r, mem'))
    (hsp : Space.munmap arch start len p.space = some (r', space')) (hrep' : Represents mem' pid nodes' space') :
    Proc.Ok pid ⟨mem', nodes', space', p.threads⟩ ∧ Right ⟨mem', nodes', space', p.threads⟩ ∧
      KeepsStacks p ⟨mem', nodes', space', p.threads⟩ := by
  have hrep : Represents { p.mem with supply } pid p.nodes p.space := represents_supply h.represents
  by_cases hpos : 0 < len
  · obtain ⟨l', hrepl, -, hu⟩ := munmap_rounded hrep h.sorted hpos hm hsp
    obtain rfl := nodes_unique hrepl hrep'
    have hapart := apart_rounded hstart hpos hlen
    have hu' : Unmapped (pgRoundDown start) (munmapEnd start len) r p.mem mem' p.nodes l' p.space space' :=
      ⟨⟨hu.nodes.same, hu.nodes.new, hu.nodes.touched⟩, hu.vmas, hu.aligned, hu.leaf, hu.result⟩
    refine ⟨⟨hrepl, ?_⟩, unmapped_right h hright hspares hu' hrepl.vmas,
      unmapped_keepsStacks h hright hspares hu' h.sorted⟩
    rw [hu.vmas]
    exact h.sorted.flatMap fun w hw => (h.sorted.2 w hw).unmap hapart
  · -- the length is refused
    rw [Space.munmap, if_pos (Int.not_lt.mp hpos)] at hsp
    obtain rfl : p.space = space' := (Prod.mk.inj (Option.some.inj hsp)).2
    unfold VmaMem.munmap at hm
    split at hm
    · cases hm
    · dsimp only at hm
      rw [if_pos (.inr (Int.not_lt.mp hpos))] at hm
      obtain rfl : { p.mem with supply } = mem' := (Prod.mk.inj (Option.some.inj hm)).2
      obtain rfl := nodes_unique hrep hrep'
      exact ⟨⟨hrep, h.sorted⟩, ⟨hright.counts, hright.listed⟩, fun _ _ _ _ _ _ _ => rfl⟩

/-! ## Runs -/

/-- One call that spares the stacks. -/
theorem Step.keeps (h : p.Ok pid) (hright : Right p) (hspares : op.Spares p) (hstep : Step arch pid op p p') :
    p'.Ok pid ∧ Right p' ∧ KeepsStacks p p' := by
  cases hstep with
  | cloneThread hcall =>
    obtain ⟨hok, hright', hleaf⟩ := cloneThread_keeps h hright hcall
    exact ⟨hok, hright', fun _ _ _ _ _ _ _ => by rw [hleaf]⟩
  | threadExit hcall =>
    obtain ⟨hok, hright', hleaf⟩ := threadExit_keeps h hright hcall
    exact ⟨hok, hright', fun _ _ _ _ _ _ _ => by rw [hleaf]⟩
  | munmap hstart hlen hm hsp hrep => exact munmap_keeps h hright hstart hlen hspares hm hsp hrep

/-- In a run in which every `munmap` spares the stacks of the threads, the counts are right, no thread points to an
area that is gone, and the pages of the stacks of live threads stay. -/
theorem stacks_right_run {p₀ : Proc} (h : p₀.Ok pid) (hright : Right p₀)
    (hrun : Reaches (fun q q' => ∃ op : Op, op.Spares q ∧ Step arch pid op q q') p₀ p) :
    Right p ∧ ∀ op p', op.Spares p → Step arch pid op p p' → KeepsStacks p p' := by
  have hinv : p.Ok pid ∧ Right p := by
    refine hrun.invariant (I := fun q => q.Ok pid ∧ Right q) ⟨h, hright⟩ ?_
    rintro q q' ⟨hok, hq⟩ ⟨op, hspares, hstep⟩
    obtain ⟨hok', hq', -⟩ := hstep.keeps hok hq hspares
    exact ⟨hok', hq'⟩
  exact ⟨hinv.2, fun op p' hspares hstep => (hstep.keeps hinv.1 hinv.2 hspares).2.2⟩

/-- A process with one area of three pages and its first thread. -/
def oneThread : Proc := ⟨oneNode, [0x2000], oneArea, [⟨none, true⟩]⟩

theorem oneThread_ok : oneThread.Ok 1 := ⟨oneNode_represents, oneArea_sorted⟩

theorem oneThread_right : Right oneThread where
  counts n hn := by
    obtain rfl := List.mem_singleton.mp hn
    decide
  listed t ht n hn := by
    obtain rfl := List.mem_singleton.mp ht
    cases hn

/-- With a second thread, whose stack is in the area. -/
def twoThreads : Proc := { oneThread.count 0x2000 1 with threads := [⟨some 0x2000, true⟩, ⟨none, true⟩] }

theorem oneThread_clone : Step .riscv 1 (.cloneThread 0x12FF0) oneThread twoThreads := by
  have hcall : oneThread.cloneThread 2 1 0x12FF0 = some twoThreads := rfl
  exact .cloneThread hcall

theorem twoThreads_ok : twoThreads.Ok 1 := by
  obtain ⟨hrep, hsorted⟩ := oneThread_ok.count (d := 1) (List.mem_singleton_self 0x2000)
  exact ⟨hrep, hsorted⟩

/-- A page two pages below the stack is unmapped. -/
theorem stacks_right_run_below :
    ∃ p, Step .riscv 1 (.munmap 0xE000 0x1000) twoThreads p ∧ Right p ∧ p.space.vmas = twoThreads.space.vmas := by
  obtain ⟨r, m', hm⟩ : ∃ r m', ({ twoThreads.mem with supply := [] } : VmaMem).munmap VmaMem.allOk 4 1 0xE000 0x1000 =
      some (r, m') := ⟨_, _, Option.eq_some_of_isSome (by decide)⟩
  obtain ⟨r', s', hs, hvmas⟩ : ∃ r s', Space.munmap .riscv 0xE000 0x1000 twoThreads.space = some (r, s') ∧
      s'.vmas = twoThreads.space.vmas := ⟨_, _, Option.eq_some_of_isSome (by decide), by decide⟩
  obtain ⟨l', hrep, -⟩ :=
    munmap_rounded (represents_supply twoThreads_ok.represents) twoThreads_ok.sorted (by decide) hm hs
  have hstep : Step .riscv 1 (.munmap 0xE000 0x1000) twoThreads ⟨m', l', s', twoThreads.threads⟩ :=
    .munmap (by decide) (by decide) hm hs hrep
  have hspares : (Op.munmap 0xE000 0x1000).Spares twoThreads := by
    intro t ht n hn
    rcases List.mem_cons.mp ht with rfl | ht
    · cases hn
      decide
    · obtain rfl := List.mem_singleton.mp ht
      cases hn
  have hclone : (Op.cloneThread 0x12FF0).Spares oneThread := trivial
  have hrun : Reaches (fun q q' => ∃ op : Op, op.Spares q ∧ Step .riscv 1 op q q') oneThread
      ⟨m', l', s', twoThreads.threads⟩ :=
    (Relation.ReflTransGen.single ⟨_, hclone, oneThread_clone⟩).tail ⟨_, hspares, hstep⟩
  exact ⟨_, hstep, (stacks_right_run oneThread_ok oneThread_right hrun).1, hvmas⟩

/-- The page right below the stack is unmapped: the area of the stack gets a new node, and the thread points to the
page of the old one. -/
theorem not_right_adjacent :
    ¬∀ p₀ p : Proc, p₀.Ok 1 → Right p₀ → Reaches (fun q q' => ∃ op, Step .riscv 1 op q q') p₀ p → Right p := by
  intro hall
  obtain ⟨r, m', hm, hfirst⟩ : ∃ r m', ({ twoThreads.mem with supply := [0x3000] } : VmaMem).munmap VmaMem.allOk 4 1
      0xF000 0x1000 = some (r, m') ∧ m'.links.next (m'.head 1) = 0x3000 :=
    ⟨_, _, Option.eq_some_of_isSome (by decide), by decide⟩
  obtain ⟨r', s', hs, hlen⟩ : ∃ r s', Space.munmap .riscv 0xF000 0x1000 twoThreads.space = some (r, s') ∧
      s'.vmas.length = 1 := ⟨_, _, Option.eq_some_of_isSome (by decide), by decide⟩
  obtain ⟨l', hrep, -⟩ :=
    munmap_rounded (represents_supply twoThreads_ok.represents) twoThreads_ok.sorted (by decide) hm hs
  have hstep : Step .riscv 1 (.munmap 0xF000 0x1000) twoThreads ⟨m', l', s', twoThreads.threads⟩ :=
    .munmap (by decide) (by decide) hm hs hrep
  have hright := hall oneThread ⟨m', l', s', twoThreads.threads⟩ oneThread_ok oneThread_right
    ((Relation.ReflTransGen.single ⟨_, oneThread_clone⟩).tail ⟨_, hstep⟩)
  have hlisted : 0x2000 ∈ l' := hright.listed ⟨some 0x2000, true⟩ (List.mem_cons_self ..) 0x2000 rfl
  -- the list has one node, the new one
  rw [← hrep.vmas, List.length_map] at hlen
  obtain ⟨x, rfl⟩ := List.length_eq_one_iff.mp hlen
  have hnext : 0x3000 = x := hfirst.symm.trans hrep.owns.circular.next_head
  rw [← List.mem_singleton.mp hlisted] at hnext
  exact absurd hnext (by decide)

end SC7.Stacks
