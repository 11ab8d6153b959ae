-- SUMMARY: The locks that the allocator and the page-table code take, on every path through them.
import SC7.Base.Locks
import SC7.Mem.Unmap

/-!
# Locks of the memory layer

The functions of `pmem.c` and `vmem.c` once more, with the locks they take. The
memory that a lock protects belongs to other CPUs until the lock is taken, so
what a function finds there is an input of the call: the allocator behind each
`acquire(&buddy_sys.lock)`, the tables and entries on the way of each walk.
Whatever is found, the functions below `uvmalloc`, `uvmalloc1` and `uvmcopy`
leave the locks as they were; those three call `vmunmap` with `vmem_lock` held.
-/

namespace SC7

open Locks

/-- The spinlocks of the memory and process layer. -/
inductive Lock where
  | buddy
  | vmem
  | pid
  | proc (slot : Nat)
  | thread (idx : Nat)
  deriving DecidableEq, Repr

/-- Kernel code. -/
abbrev Kernel (α : Type) : Type := Act Lock α

/-- The block that the metadata of a page describes is the one that the metadata of the block's own
first page describes, if a page of it is in use. -/
def Pmem.Headed (s : Pmem) : Prop :=
  ∀ page < s.totalPages, 0 ≤ (s.nodes page).order → (s.nodes page).addr ≠ NULL →
    s.bitmap.allClear (s.pageIdx (s.nodes page).addr) (1 <<< (s.nodes page).order.toNat) = false →
    s.nodes (s.pageIdx (s.nodes page).addr) = s.nodes page

/-- Every state of the allocator that keeps its invariant is of this kind. -/
theorem Pmem.Wf.headed {s : Pmem} {live : List Block} (h : s.Wf live) : s.Headed := by
  obtain ⟨L, hinv⟩ := h
  intro page hpage horder hnull hused
  have hrecorded (b : Block) (hplaced : s.Placed b) (hrec : s.Recorded b) (hmem : page ∈ b) :
      s.nodes (s.pageIdx (s.nodes page).addr) = s.nodes page := by
    rw [hrec page hmem, pageIdx_pageAddr hinv.region (Nat.le_of_lt hplaced.page_lt), hrec b.page b.page_mem]
  -- the page is in a block, by the cover
  have hmeta := hinv.core.metadata page
  have hcover := hinv.core.cover page
  have hno := hinv.core.uncovered page
  have hfree := hinv.core.free
  have halive := hinv.core.alive
  grind

namespace Spin

/-- The allocator as `pmem_free_pages` finds it. -/
structure Heap where
  pmem : Pmem
  headed : pmem.Headed

/-- The allocator as the critical sections of one `pmem_alloc_pages` find it. -/
structure AllocSeen where
  first : Pmem
  rebuild : Pmem
  second : Pmem
  reclaim : Pmem
  rebuildAgain : Pmem
  third : Pmem

/-! ## `pmem.c` -/

/-- A block found and no block found both drop the lock. -/
def buddyAlloc (s : Pmem) (order : Int) : Kernel Nat :=
  if order < 0 ∨ order > BUDDY_MAX_ORDER then return NULL
  else locked .buddy (Act.lift ((s.buddyAlloc order).map Prod.fst))

def buddyFree (s : Pmem) (ptr : Nat) (order : Int) : Kernel Unit :=
  if ptr = NULL ∨ order < 0 ∨ order > BUDDY_MAX_ORDER then return ()
  else do
    acquire .buddy
    let page := s.pageIdx ptr
    if page ≥ s.totalPages then Act.die
    else
      let node := s.nodes page
      -- a block that is free already: the source returns without `release`
      if s.bitmap.allClear (s.pageIdx node.addr) (blockSize node.order / PGSIZE) then return ()
      else do
        Act.lift ((s.buddyFree ptr order).map fun _ => ())
        release .buddy

def buddyCleanupAndRebuild (s : Pmem) : Kernel Unit :=
  locked .buddy (Act.lift (s.buddyCleanupAndRebuild.map fun _ => ()))

def forceMemoryReclaim (s s' : Pmem) : Kernel Unit := do
  let reclaimed ← locked .buddy (return (s.reclaimOrphans s.totalPages).2)
  if reclaimed > 0 then buddyCleanupAndRebuild s' else return ()

def pmemAllocPages (seen : AllocSeen) (npages : Int) : Kernel Nat :=
  if npages ≤ 0 then return NULL
  else
    let order := getOrder npages.toNat
    if order = -1 then return NULL
    else do
      let ptr ← buddyAlloc seen.first order
      if ptr ≠ NULL then return ptr
      else do
        buddyCleanupAndRebuild seen.rebuild
        let ptr ← buddyAlloc seen.second order
        if ptr ≠ NULL then return ptr
        else do
          forceMemoryReclaim seen.reclaim seen.rebuildAgain
          buddyAlloc seen.third order

def pmemFreePages (heap : Heap) (ptr : Nat) (npages : Int) : Kernel Unit :=
  let s := heap.pmem
  if ptr = NULL ∨ npages ≤ 0 then return ()
  else if ptr < s.memStart ∨ ptr ≥ s.memEnd then return ()
  else
    let page := s.pageIdx ptr
    if page ≥ s.totalPages then return ()
    else
      let node := s.nodes page
      let actualPages := 1 <<< node.order.toNat
      if node.addr < s.memStart ∨ node.addr ≥ s.memEnd then return ()
      else if node.order < 0 ∨ node.order > BUDDY_MAX_ORDER then return ()
      else if (actualPages : Int) < npages then return ()
      else if node.addr % blockSize node.order ≠ 0 then return ()
      else if s.bitmap.allClear (s.pageIdx node.addr) actualPages then return ()
      else buddyFree s node.addr node.order

/-! ## Walking and mapping -/

/-- The entry of one level on the way of a walk: a table, a valid entry with address 0, or nothing. -/
inductive LevelSeen where
  | next
  | broken
  | missing (seen : AllocSeen)

/-- What one walk finds. `root` is false for a null page table. -/
structure WalkSeen where
  root : Bool
  level : Nat → LevelSeen
  pte : Pte

section Walk

variable (arch : Arch)

def walkLevels (alloc : Bool) (w : WalkSeen) : Nat → Kernel Bool
  | 0 => return true
  | level + 1 =>
    match w.level (level + 1) with
    | .next => walkLevels alloc w level
    | .broken => return false
    | .missing seen =>
      if alloc then do
        let pt ← pmemAllocPages seen 1
        if pt = NULL then return false else walkLevels alloc w level
      else return false

def walkInternal (w : WalkSeen) (va : Nat) (alloc : Bool) : Kernel (Option Pte) :=
  if va ≥ MAXVA arch then Act.die
  else if w.root = false then return none
  else do
    let found ← walkLevels alloc w (PT_LEVEL arch - 1)
    return if found then some w.pte else none

def walk (w : WalkSeen) (va : Nat) (alloc : Bool) : Kernel (Option Pte) :=
  locked .vmem (walkInternal arch w va alloc)

/-- The entries are written without a lock operation, so the permissions play no part. -/
def mappagesLoop (w : Nat → WalkSeen) (end_ : Nat) : Nat → Nat → Kernel Int
  | 0, _ => Act.die
  | n + 1, current => do
      match ← walkInternal arch (w current) current true with
      | none => Act.die
      | some pte =>
        if pte.valid then return -EINVAL
        else if current = end_ then return 1
        else mappagesLoop w end_ n (add64 current PGSIZE)

def mappagesInternal (w : Nat → WalkSeen) (va pa len : Nat) : Kernel Int :=
  if va ≥ MAXVA arch ∨ pa % PGSIZE ≠ 0 then Act.die
  else mappagesLoop arch w (pgRoundDown (sub64 (add64 va len) 1)) (len / PGSIZE + 2) (pgRoundDown va)

def mappages (w : Nat → WalkSeen) (va pa len : Nat) : Kernel Int :=
  locked .vmem (mappagesInternal arch w va pa len)

/-- What `vmunmap` finds at each address. -/
structure UnmapSeen where
  walk : Nat → WalkSeen
  heap : Nat → Heap

def unmapPage (seen : UnmapSeen) (doFree : Bool) (a : Nat) : Kernel Unit := do
  match ← walkInternal arch (seen.walk a) a false with
  | none => return ()
  | some pte =>
    if pte.valid = false then return ()
    else if PTE_FLAGS arch pte = PTE_V then Act.die
    else
      let s := (seen.heap a).pmem
      if doFree ∧ pte.pa ≠ 0 ∧ s.memStart ≤ pte.pa ∧ pte.pa < s.memEnd then
        pmemFreePages (seen.heap a) pte.pa 1
      else return ()

def vmunmapLoop (seen : UnmapSeen) (doFree : Bool) (end_ : Nat) : Nat → Nat → Kernel Unit
  | 0, a => if a < end_ then Act.die else return ()
  | n + 1, a =>
    if a < end_ then do
      unmapPage arch seen doFree a
      vmunmapLoop seen doFree end_ n (add64 a PGSIZE)
    else return ()

def vmunmap (seen : UnmapSeen) (va npages : Nat) (doFree : Bool) : Kernel Unit :=
  if va % PGSIZE ≠ 0 then Act.die
  else locked .vmem (vmunmapLoop arch seen doFree (add64 va (npages * PGSIZE % 2 ^ 64)) npages va)

end Walk

/-! ## Growing and shrinking -/

/-- A VMA as `free_vma` finds it: its range, the address of its structure, and the allocator. -/
structure VmaSeen where
  addr : Nat
  end_ : Nat
  self : Nat
  left : AllocSeen
  right : AllocSeen
  heap : Heap

/-- The part of a VMA beyond a bound becomes a structure of its own. -/
def splitVma (beyond : Prop) [Decidable beyond] (seen : AllocSeen) : Kernel Unit :=
  if beyond then do
    let part ← pmemAllocPages seen 1
    if part = NULL then Act.die else return ()
  else return ()

/-- One round of `free_vma`. -/
def freeOverlap (start end_ : Nat) (v : VmaSeen) : Kernel Unit :=
  if v.end_ > start ∧ v.addr < end_ then
    if v.addr ≥ start ∧ v.end_ ≤ end_ then pmemFreePages v.heap v.self 1
    else do
      splitVma (v.addr < start) v.left
      splitVma (v.end_ > end_) v.right
      pmemFreePages v.heap v.self 1
  else return ()

def freeVmaLoop (start end_ : Nat) : List VmaSeen → Kernel Unit
  | [] => return ()
  | v :: vmas => do
      freeOverlap start end_ v
      freeVmaLoop start end_ vmas

/-- `vmas` is `none` for a process without a list. -/
def freeVma (vmas : Option (List VmaSeen)) (start end_ : Nat) : Kernel Int :=
  match vmas with
  | none => return -1
  | some vmas => do
      freeVmaLoop start end_ vmas
      return 1

/-- What the growth of a page table finds: first for the attempt with one block, then page by page,
then for the clean-up from a page on. -/
structure GrowSeen where
  block : AllocSeen
  blockWalk : Nat → WalkSeen
  blockHeap : Heap
  page : Nat → AllocSeen
  pageWalk : Nat → Nat → WalkSeen
  pageHeap : Nat → Heap
  vmas : Option (List VmaSeen)
  unmap : UnmapSeen

section Grow

variable (arch : Arch) (seen : GrowSeen)

def uvmdealloc (oldsz newsz : Nat) : Kernel Nat :=
  if newsz ≥ oldsz then return oldsz
  else if pgRoundUp newsz < pgRoundUp oldsz then do
    let npages := toInt32 ((pgRoundUp oldsz - pgRoundUp newsz) / PGSIZE)
    let _ ← freeVma seen.vmas newsz oldsz
    vmunmap arch seen.unmap (pgRoundUp newsz) (toU64 npages) true
    return newsz
  else return newsz

def uvmdealloc1 (start end_ : Nat) : Kernel Nat :=
  if start ≥ end_ then Act.die
  else if pgRoundUp start ≤ pgRoundUp end_ then do
    let npages := toInt32 ((pgRoundUp end_ - pgRoundUp start) / PGSIZE)
    vmunmap arch seen.unmap (pgRoundUp start) (toU64 npages) true
    return 0
  else return 0

/-- The first attempt of `uvmalloc` and `uvmalloc1`. -/
def tryBlock (va npages : Nat) : Kernel Vmem.Tried :=
  if npages > 0 then do
    let mem ← pmemAllocPages seen.block (toInt32 npages)
    if mem ≠ NULL then do
      let r ← mappagesInternal arch seen.blockWalk va mem (npages * PGSIZE)
      if r = 1 then return .mapped
      else do
        pmemFreePages seen.blockHeap mem (toInt32 npages)
        return .refused
    else return .noMemory
  else return .noMemory

/-- One page of the second attempt: `none` inside if there was no memory, else whether the page was
mapped. -/
def tryPage (a : Nat) : Kernel (Option Bool) := do
  let mem ← pmemAllocPages (seen.page a) 1
  if mem = NULL then return none
  else do
    let r ← mappagesInternal arch (seen.pageWalk a) a mem PGSIZE
    if r = 1 then return some true
    else do
      pmemFreePages (seen.pageHeap a) mem 1
      return some false

/-- The second attempt. `undo` is what follows a page that was not mapped. -/
def fillLoop (end_ : Nat) (done : Int) (undo : Nat → Option Bool → Kernel Int) : Nat → Nat → Kernel Int
  | 0, a => if a < end_ then Act.die else do
      release .vmem
      return done
  | n + 1, a =>
    if a < end_ then do
      let made ← tryPage arch seen a
      if made = some true then fillLoop end_ done undo n (add64 a PGSIZE)
      else undo a made
    else do
      release .vmem
      return done

/-- Without memory the lock is dropped before the clean-up, after a refused mapping behind it. -/
def undoAlloc (oldsz a : Nat) (made : Option Bool) : Kernel Int :=
  if made = none then do
    release .vmem
    let _ ← uvmdealloc arch seen a oldsz
    return 0
  else do
    let _ ← uvmdealloc arch seen a oldsz
    release .vmem
    return 0

def undoAlloc1 (start a : Nat) (made : Option Bool) : Kernel Int := do
  let _ ← uvmdealloc1 arch seen start a
  if made = none then Act.die
  else do
    release .vmem
    return 0

def uvmalloc (oldsz newsz : Nat) : Kernel Int := do
  acquire .vmem
  if newsz < oldsz then do
    release .vmem
    return oldsz
  else
    let oldsz := pgRoundUp oldsz
    let npages := sub64 (pgRoundUp newsz) oldsz / PGSIZE
    match ← tryBlock arch seen oldsz npages with
    | .mapped => do
        release .vmem
        return newsz
    | .refused => do
        release .vmem
        return -EINVAL
    | .noMemory =>
      fillLoop arch seen newsz newsz (undoAlloc arch seen oldsz) (Vmem.pageCeil newsz) oldsz

def uvmalloc1 (start end_ : Nat) : Kernel Int := do
  acquire .vmem
  if start ≥ end_ then Act.die
  else
    let npages := sub64 (pgRoundUp end_) start / PGSIZE
    match ← tryBlock arch seen start npages with
    | .mapped => do
        release .vmem
        return 1
    | _ => fillLoop arch seen end_ 1 (undoAlloc1 arch seen start) (Vmem.pageCeil end_) start

end Grow

/-! ## Copying -/

/-- What `uvmcopy` finds: the old table, the allocator and the new table for each page. -/
structure CopySeen where
  old : Nat → WalkSeen
  page : Nat → AllocSeen
  new : Nat → Nat → WalkSeen
  heap : Nat → Heap
  unmap : UnmapSeen

section Copy

variable (arch : Arch) (seen : CopySeen)

/-- One page: `false` for the jump to `err`. A page that is mapped in the new table already is not
one of its reasons, as `mappages_internal` answers it with `-EINVAL`. -/
def copyPage (va : Nat) : Kernel Bool := do
  match ← walkInternal arch (seen.old va) va false with
  | none => return true
  | some pte =>
    if pte.valid = false then return true
    else do
      let mem ← pmemAllocPages (seen.page va) 1
      if mem = NULL then return false
      else do
        let r ← mappagesInternal arch (seen.new va) va mem PGSIZE
        if r = -1 then do
          pmemFreePages (seen.heap va) mem 1
          return false
        else return true

/-- The pages one after the other; the counter `i` of the page that failed. -/
def copyPages : List (Nat × Nat) → Kernel (Option Nat)
  | [] => return none
  | (va, i) :: vas => do
      if ← copyPage arch seen va then copyPages vas else return some i

/-- The addresses that `uvmcopy` copies, in its order, each with the counter `i` at that time: the
first page if the program lies above it, one fixed page on RISC-V, and the program up to `sz`. -/
def copied (virtAddr sz : Nat) : List (Nat × Nat) :=
  let i := pgRoundDown virtAddr
  (if i ≥ 0x100 then [(0, i)] else []) ++ (if arch = .riscv then [(0x10000036e, i)] else []) ++
    (List.range (Vmem.pageCeil (sz - i))).map fun k => (i + k * PGSIZE, i + k * PGSIZE)

def uvmcopy (virtAddr sz : Nat) : Kernel Int := do
  acquire .vmem
  match ← copyPages arch seen (copied arch virtAddr sz) with
  | none => do
      release .vmem
      return 0
  | some i => do
      vmunmap arch seen.unmap 0 (i / PGSIZE) true
      release .vmem
      return -1

end Copy

/-! ## The allocator leaves the locks alone -/

/-- The lock of the allocator. -/
def buddyLock (l : Lock) : Prop := l = .buddy

/-- The locks of the memory layer. -/
def memoryLocks (l : Lock) : Prop := l = .buddy ∨ l = .vmem

section Allocator

theorem buddyAlloc_keeps {s : Pmem} {order : Int} : Locks.Keeps buddyLock (buddyAlloc s order) := by
  rw [buddyAlloc]
  split
  · exact keeps_pure
  · exact Locks.Keeps.locked (keeps_lift (S := fun _ => False)) id (fun _ h => h.elim) rfl

theorem buddyCleanupAndRebuild_keeps {s : Pmem} : Locks.Keeps buddyLock (buddyCleanupAndRebuild s) :=
  Locks.Keeps.locked (keeps_lift (S := fun _ => False)) id (fun _ h => h.elim) rfl

theorem forceMemoryReclaim_keeps {s s' : Pmem} : Locks.Keeps buddyLock (forceMemoryReclaim s s') := by
  apply Locks.Keeps.bind
  · exact Locks.Keeps.locked (keeps_pure (S := fun _ => False)) id (fun _ h => h.elim) rfl
  · intro reclaimed
    split
    · exact buddyCleanupAndRebuild_keeps
    · exact keeps_pure

theorem pmemAllocPages_keeps {seen : AllocSeen} {npages : Int} :
    Locks.Keeps buddyLock (pmemAllocPages seen npages) := by
  rw [pmemAllocPages]
  split
  · exact keeps_pure
  dsimp only
  split
  · exact keeps_pure
  apply buddyAlloc_keeps.bind
  intro ptr
  split
  · exact keeps_pure
  apply buddyCleanupAndRebuild_keeps.bind
  intro _
  apply buddyAlloc_keeps.bind
  intro ptr
  split
  · exact keeps_pure
  exact forceMemoryReclaim_keeps.bind fun _ => buddyAlloc_keeps

/-- Nothing of the block that `buddy_free` is asked to free is in use. -/
def AlreadyFreed (s : Pmem) (ptr : Nat) : Prop := s.bitmap.allClear (s.pageIdx (s.nodes (s.pageIdx ptr)).addr)
    (blockSize (s.nodes (s.pageIdx ptr)).order / PGSIZE) = true

theorem buddyFree_keeps {s : Pmem} {ptr : Nat} {order : Int} (h : ¬AlreadyFreed s ptr) :
    Locks.Keeps buddyLock (buddyFree s ptr order) := by
  rw [buddyFree]
  split
  · exact keeps_pure
  · rw [AlreadyFreed] at h
    dsimp only
    rw [if_neg h]
    split
    · refine ⟨none, fun c hc => ?_⟩
      rw [bind_returned (acquire_apply (hc _ rfl)), die_apply, lift_none]
    · refine ⟨(s.buddyFree ptr order).map fun _ => (), fun c hc => ?_⟩
      rw [bind_returned (acquire_apply (hc _ rfl))]
      cases s.buddyFree ptr order with
      | none => exact bind_died rfl
      | some s' => exact (bind_returned rfl).trans release_head

theorem pmemFreePages_keeps {heap : Heap} {ptr : Nat} {npages : Int} :
    Locks.Keeps buddyLock (pmemFreePages heap ptr npages) := by
  simp only [pmemFreePages]
  split
  · exact keeps_pure
  split
  · exact keeps_pure
  split
  · exact keeps_pure
  rename_i hpage
  split
  · exact keeps_pure
  split
  · exact keeps_pure
  rename_i horder
  split
  · exact keeps_pure
  split
  · exact keeps_pure
  split
  · exact keeps_pure
  rename_i hused
  by_cases hnull : (heap.pmem.nodes (heap.pmem.pageIdx ptr)).addr = NULL
  · rw [buddyFree, if_pos (.inl hnull)]
    exact keeps_pure
  have hnode := heap.headed _ (Nat.not_le.mp hpage) (by omega) hnull (by simpa using hused)
  apply buddyFree_keeps
  -- `buddy_free` repeats the check that `pmem_free_pages` has just made
  rw [AlreadyFreed, hnode]
  obtain ⟨k, hk⟩ := Int.eq_ofNat_of_zero_le (show 0 ≤ (heap.pmem.nodes (heap.pmem.pageIdx ptr)).order by omega)
  rw [hk, Int.toNat_natCast, Nat.one_shiftLeft] at hused
  rw [hk, blockSize_div]
  exact hused

end Allocator

/-! ## Page tables -/

section Tables

variable {arch : Arch} {alloc doFree : Bool} {w : WalkSeen} {n va end_ pa len a npages : Nat} {seen : UnmapSeen}

theorem walkLevels_keeps : Locks.Keeps buddyLock (walkLevels alloc w n) := by
  induction n with
  | zero => exact keeps_pure
  | succ level ih =>
    rw [walkLevels]
    split
    · exact ih
    · exact keeps_pure
    · split
      · apply pmemAllocPages_keeps.bind
        intro pt
        split
        · exact keeps_pure
        · exact ih
      · exact keeps_pure

theorem walkInternal_keeps : Locks.Keeps buddyLock (walkInternal arch w va alloc) := by
  rw [walkInternal]
  split
  · exact keeps_die
  split
  · exact keeps_pure
  exact walkLevels_keeps.bind fun _ => keeps_pure

/-- A critical section of `vmem_lock` may use the allocator. -/
theorem keeps_vmem {α : Type} {m : Kernel α} (hm : Locks.Keeps buddyLock m) :
    Locks.Keeps memoryLocks (locked .vmem m) :=
  hm.locked nofun (fun _ => .inl) (.inr rfl)

theorem walk_keeps : Locks.Keeps memoryLocks (walk arch w va alloc) := keeps_vmem walkInternal_keeps

theorem mappagesLoop_keeps {w : Nat → WalkSeen} {current : Nat} :
    Locks.Keeps buddyLock (mappagesLoop arch w end_ n current) := by
  induction n generalizing current with
  | zero => exact keeps_die
  | succ n ih =>
    apply walkInternal_keeps.bind
    intro pte
    cases pte with
    | none => exact keeps_die
    | some pte =>
      dsimp only
      split
      · exact keeps_pure
      split
      · exact keeps_pure
      exact ih

theorem mappagesInternal_keeps {w : Nat → WalkSeen} : Locks.Keeps buddyLock (mappagesInternal arch w va pa len) := by
  rw [mappagesInternal]
  split
  · exact keeps_die
  · exact mappagesLoop_keeps

theorem mappages_keeps {w : Nat → WalkSeen} : Locks.Keeps memoryLocks (mappages arch w va pa len) :=
  keeps_vmem mappagesInternal_keeps

theorem unmapPage_keeps : Locks.Keeps buddyLock (unmapPage arch seen doFree a) := by
  apply walkInternal_keeps.bind
  intro pte
  cases pte with
  | none => exact keeps_pure
  | some pte =>
    dsimp only
    split
    · exact keeps_pure
    split
    · exact keeps_die
    split
    · exact pmemFreePages_keeps
    · exact keeps_pure

theorem vmunmapLoop_keeps : Locks.Keeps buddyLock (vmunmapLoop arch seen doFree end_ n a) := by
  induction n generalizing a with
  | zero =>
    rw [vmunmapLoop]
    split
    · exact keeps_die
    · exact keeps_pure
  | succ n ih =>
    rw [vmunmapLoop]
    split
    · exact unmapPage_keeps.bind fun _ => ih
    · exact keeps_pure

theorem vmunmap_keeps : Locks.Keeps memoryLocks (vmunmap arch seen va npages doFree) := by
  rw [vmunmap]
  split
  · exact keeps_die
  · exact keeps_vmem vmunmapLoop_keeps

/-- `vmunmap` takes `vmem_lock` itself. -/
theorem vmunmap_held {c : Cpu Lock} (hva : va % PGSIZE = 0) (hc : .vmem ∈ c.held) :
    vmunmap arch seen va npages doFree c = .fault (.doubleAcquire .vmem) := by
  rw [vmunmap, if_neg (not_not_intro hva), locked]
  exact bind_fault (acquire_held hc)

end Tables

/-! ## Growing and shrinking -/

theorem splitVma_keeps {beyond : Prop} [Decidable beyond] {seen : AllocSeen} :
    Locks.Keeps buddyLock (splitVma beyond seen) := by
  rw [splitVma]
  split
  · apply pmemAllocPages_keeps.bind
    intro part
    split
    · exact keeps_die
    · exact keeps_pure
  · exact keeps_pure

theorem freeOverlap_keeps {start end_ : Nat} {v : VmaSeen} :
    Locks.Keeps buddyLock (freeOverlap start end_ v) := by
  rw [freeOverlap]
  split
  · split
    · exact pmemFreePages_keeps
    · apply splitVma_keeps.bind
      intro _
      apply splitVma_keeps.bind
      intro _
      exact pmemFreePages_keeps
  · exact keeps_pure

theorem freeVmaLoop_keeps {start end_ : Nat} {vmas : List VmaSeen} :
    Locks.Keeps buddyLock (freeVmaLoop start end_ vmas) := by
  induction vmas with
  | nil => exact keeps_pure
  | cons v vmas ih => exact freeOverlap_keeps.bind fun _ => ih

theorem freeVma_keeps {vmas : Option (List VmaSeen)} {start end_ : Nat} :
    Locks.Keeps buddyLock (freeVma vmas start end_) := by
  cases vmas with
  | none => exact keeps_pure
  | some vmas => exact freeVmaLoop_keeps.bind fun _ => keeps_pure

section Grow

variable {arch : Arch} {seen : GrowSeen}

theorem tryBlock_keeps {va npages : Nat} : Locks.Keeps buddyLock (tryBlock arch seen va npages) := by
  rw [tryBlock]
  split
  · apply pmemAllocPages_keeps.bind
    intro mem
    split
    · apply mappagesInternal_keeps.bind
      intro r
      split
      · exact keeps_pure
      · exact pmemFreePages_keeps.bind fun _ => keeps_pure
    · exact keeps_pure
  · exact keeps_pure

theorem tryPage_keeps {a : Nat} : Locks.Keeps buddyLock (tryPage arch seen a) := by
  apply pmemAllocPages_keeps.bind
  intro mem
  split
  · exact keeps_pure
  · apply mappagesInternal_keeps.bind
    intro r
    split
    · exact keeps_pure
    · exact pmemFreePages_keeps.bind fun _ => keeps_pure

theorem uvmdealloc_keeps {oldsz newsz : Nat} : Locks.Keeps memoryLocks (uvmdealloc arch seen oldsz newsz) := by
  rw [uvmdealloc]
  split
  · exact keeps_pure
  split
  · apply (freeVma_keeps.mono fun _ => .inl).bind
    intro _
    exact vmunmap_keeps.bind fun _ => keeps_pure
  · exact keeps_pure

theorem uvmdealloc1_keeps {start end_ : Nat} : Locks.Keeps memoryLocks (uvmdealloc1 arch seen start end_) := by
  rw [uvmdealloc1]
  split
  · exact keeps_die
  split
  · exact vmunmap_keeps.bind fun _ => keeps_pure
  · exact keeps_pure

theorem pgRoundUp_mod (a : Nat) : pgRoundUp a % PGSIZE = 0 := Nat.mul_mod_left _ _

/-- Behind the lock, `uvmdealloc` takes it again unless there is nothing to unmap. -/
theorem uvmdealloc_held {oldsz newsz : Nat} {c : Cpu Lock} (hlt : newsz < oldsz)
    (hround : pgRoundUp newsz < pgRoundUp oldsz) (hbuddy : c.Avoids buddyLock) (hc : .vmem ∈ c.held)
    {r : Int} (ho : outcome (freeVma seen.vmas newsz oldsz) = some r) :
    uvmdealloc arch seen oldsz newsz c = .fault (.doubleAcquire .vmem) := by
  rw [uvmdealloc, if_neg (Nat.not_le.mpr hlt), if_pos hround,
    bind_returned (freeVma_keeps.returned hbuddy ho)]
  exact bind_fault (vmunmap_held (pgRoundUp_mod _) hc)

theorem uvmdealloc1_held {start end_ : Nat} {c : Cpu Lock} (hlt : start < end_)
    (hround : pgRoundUp start ≤ pgRoundUp end_) (hc : .vmem ∈ c.held) :
    uvmdealloc1 arch seen start end_ c = .fault (.doubleAcquire .vmem) := by
  rw [uvmdealloc1, if_neg (Nat.not_le.mpr hlt), if_pos hround]
  exact bind_fault (vmunmap_held (pgRoundUp_mod _) hc)

/-- A page is only mapped below `MAXVA`. -/
theorem lt_of_tryPage {a : Nat} (h : outcome (tryPage arch seen a) = some (some true)) : a < MAXVA arch := by
  by_contra hge
  have hdie : mappagesInternal arch (seen.pageWalk a) a = fun _ _ => Act.die := by
    funext mem len
    rw [mappagesInternal, if_pos (.inl (Nat.not_lt.mp hge))]
  rw [outcome, tryPage, hdie] at h
  have hfree : Cpu.Avoids buddyLock (⟨[], 0⟩ : Cpu Lock) := fun _ _ hmem => by cases hmem
  cases ho : outcome (pmemAllocPages (seen.page a) 1) with
  | none =>
    rw [bind_died (pmemAllocPages_keeps.died hfree ho)] at h
    cases h
  | some mem =>
    rw [bind_returned (pmemAllocPages_keeps.returned hfree ho)] at h
    split at h
    · rename_i hr
      split at hr
      · cases hr
        cases h
      · cases hr
    · cases h

variable (arch seen)

/-- The second attempt from `a` maps `k` pages and then comes to one that is not mapped. -/
structure StopsAt (a end_ k : Nat) (made : Option Bool) : Prop where
  before : ∀ j < k, outcome (tryPage arch seen (a + j * PGSIZE)) = some (some true)
  lt : a + k * PGSIZE < end_
  at_ : outcome (tryPage arch seen (a + k * PGSIZE)) = some made
  failed : made ≠ some true

/-- How the second attempt ends: at a page that is not mapped, in a panic, or with all pages mapped. -/
inductive FillEnd (a end_ : Nat) (done : Int) (undo : Nat → Option Bool → Kernel Int) (c : Cpu Lock)
    (r : Result Lock Int) : Prop where
  | stops (k : Nat) (made : Option Bool) (h : StopsAt arch seen a end_ k made)
      (hr : r = undo (a + k * PGSIZE) made c)
  | dies (h : ∀ k made, ¬StopsAt arch seen a end_ k made) (hr : r = .died)
  | fills (h : ∀ k made, ¬StopsAt arch seen a end_ k made)
      (hr : r = (release .vmem >>= fun _ => pure done : Kernel Int) c)

variable {arch seen}

theorem StopsAt.unique {a end_ k k' : Nat} {made made' : Option Bool}
    (h : StopsAt arch seen a end_ k made) (h' : StopsAt arch seen a end_ k' made') :
    k = k' ∧ made = made' := by
  have hk : k = k' := by
    rcases Nat.lt_trichotomy k k' with hlt | heq | hgt
    · exact absurd (Option.some.inj (h.at_.symm.trans (h'.before k hlt))) h.failed
    · exact heq
    · exact absurd (Option.some.inj (h'.at_.symm.trans (h.before k' hgt))) h'.failed
  subst hk
  exact ⟨rfl, Option.some.inj (h.at_.symm.trans h'.at_)⟩

theorem stopsAt_succ {a end_ k : Nat} {made : Option Bool}
    (hfirst : outcome (tryPage arch seen a) = some (some true)) :
    StopsAt arch seen a end_ (k + 1) made ↔ StopsAt arch seen (a + PGSIZE) end_ k made := by
  have hshift : ∀ j, a + PGSIZE + j * PGSIZE = a + (j + 1) * PGSIZE := by
    intro j
    rw [Nat.succ_mul]
    omega
  constructor
  · intro h
    refine ⟨fun j hj => ?_, ?_, ?_, h.failed⟩
    · rw [hshift]
      exact h.before (j + 1) (by omega)
    · rw [hshift]
      exact h.lt
    · rw [hshift]
      exact h.at_
  · intro h
    refine ⟨fun j hj => ?_, ?_, ?_, h.failed⟩
    · cases j with
      | zero => simpa using hfirst
      | succ j =>
        rw [← hshift]
        exact h.before j (by omega)
    · rw [← hshift]
      exact h.lt
    · rw [← hshift]
      exact h.at_

theorem fillLoop_end {end_ n a : Nat} {done : Int} {undo : Nat → Option Bool → Kernel Int}
    {c : Cpu Lock} (hc : c.Avoids buddyLock) (hfuel : end_ ≤ a + n * PGSIZE) :
    FillEnd arch seen a end_ done undo c (fillLoop arch seen end_ done undo n a c) := by
  have hover : ∀ b, ¬b < end_ → ∀ k made, ¬StopsAt arch seen b end_ k made := by
    intro b hb k made h
    have := h.lt
    omega
  induction n generalizing a with
  | zero =>
    have hge : ¬a < end_ := by omega
    rw [fillLoop, if_neg hge]
    exact .fills (hover a hge) rfl
  | succ n ih =>
    rw [fillLoop]
    by_cases hlt : a < end_
    · rw [if_pos hlt]
      cases ho : outcome (tryPage arch seen a) with
      | none =>
        refine .dies (fun k made h => ?_) (bind_died (tryPage_keeps.died hc ho))
        cases k with
        | zero =>
          have hat := h.at_
          rw [Nat.zero_mul, Nat.add_zero, ho] at hat
          cases hat
        | succ k =>
          have hat := h.before 0 (Nat.succ_pos _)
          rw [Nat.zero_mul, Nat.add_zero, ho] at hat
          cases hat
      | some made =>
        rw [bind_returned (tryPage_keeps.returned hc ho)]
        by_cases hmade : made = some true
        · subst hmade
          have hva := lt_of_tryPage ho
          have hnext : add64 a PGSIZE = a + PGSIZE := by
            have := Vmem.MAXVA_le arch
            simp only [add64, PGSIZE]
            omega
          rw [if_pos rfl, hnext]
          have hnot : ∀ made, ¬StopsAt arch seen a end_ 0 made := by
            intro made h
            have hat := h.at_
            rw [Nat.zero_mul, Nat.add_zero, ho] at hat
            exact h.failed (Option.some.inj hat).symm
          have hnone : (∀ k made, ¬StopsAt arch seen (a + PGSIZE) end_ k made) →
              ∀ k made, ¬StopsAt arch seen a end_ k made := by
            intro h k made hs
            cases k with
            | zero => exact hnot made hs
            | succ k => exact h k made ((stopsAt_succ ho).mp hs)
          cases ih (a := a + PGSIZE) (by rw [Nat.succ_mul] at hfuel; omega) with
          | stops k made h hr =>
            refine .stops (k + 1) made ((stopsAt_succ ho).mpr h) (hr.trans ?_)
            rw [Nat.succ_mul, Nat.add_comm (k * PGSIZE), Nat.add_assoc]
          | dies h hr => exact .dies (hnone h) hr
          | fills h hr => exact .fills (hnone h) hr
        · rw [if_neg hmade]
          refine .stops 0 made ⟨fun j hj => absurd hj (Nat.not_lt_zero j), ?_, ?_, hmade⟩ ?_
          · simpa using hlt
          · simpa using ho
          · simp
    · rw [if_neg hlt]
      exact .fills (hover a hlt) rfl

end Grow

/-! ## When the locks are kept -/

section Discipline

variable {arch : Arch} {c : Cpu Lock} {seen : GrowSeen} {end_ k oldsz newsz start : Nat} {made : Option Bool}
  {pages : List (Nat × Nat)}

/-- The CPU behind `acquire(&vmem_lock)`. -/
def inVmem (c : Cpu Lock) : Cpu Lock := ⟨.vmem :: c.held, c.noff + 1⟩

theorem inVmem_avoids (hc : c.Avoids memoryLocks) : (inVmem c).Avoids buddyLock := by
  intro l hl hmem
  rcases List.mem_cons.mp hmem with rfl | hmem
  · cases hl
  · exact hc l (.inl hl) hmem

theorem acquire_vmem (hc : c.Avoids memoryLocks) : acquire .vmem c = .returned () (inVmem c) :=
  acquire_apply (hc _ (.inr rfl))

theorem release_vmem {α : Type} {f : Unit → Kernel α} : (release .vmem >>= f) (inVmem c) = f () c :=
  bind_returned release_head

theorem buddyFree_disciplined {s : Pmem} {ptr : Nat} {order : Int} (hc : c.Avoids buddyLock) :
    Disciplined noLocks (buddyFree s ptr order) c ↔
      (ptr ≠ NULL → 0 ≤ order → order ≤ BUDDY_MAX_ORDER → s.pageIdx ptr < s.totalPages →
        ¬AlreadyFreed s ptr) := by
  constructor
  · intro h hptr hnonneg hmax hpage hfreed
    have hret : buddyFree s ptr order c = .returned () ⟨.buddy :: c.held, c.noff + 1⟩ := by
      rw [AlreadyFreed] at hfreed
      rw [buddyFree, if_neg (by omega)]
      dsimp only
      rw [bind_returned (acquire_apply (hc _ rfl)), if_neg (Nat.not_le.mpr hpage), if_pos hfreed, pure_apply]
    rw [Disciplined, hret] at h
    have hlen := h.1.length_eq
    simp [noLocks] at hlen
  · intro h
    by_cases hfreed : AlreadyFreed s ptr
    · by_cases hbad : ptr = NULL ∨ order < 0 ∨ order > BUDDY_MAX_ORDER
      · rw [buddyFree, if_pos hbad]
        exact kept_same rfl
      · by_cases hpage : s.pageIdx ptr < s.totalPages
        · exact absurd hfreed (h (by omega) (by omega) (by omega) hpage)
        · apply kept_died
          rw [buddyFree, if_neg hbad]
          dsimp only
          rw [bind_returned (acquire_apply (hc _ rfl)), if_pos (Nat.not_lt.mp hpage), die_apply]
    · exact (buddyFree_keeps hfreed).disciplined hc

/-- No page after the first is refused in the second attempt of `uvmalloc` (or the clean-up dies
before it comes to the page table). -/
def UvmallocMeets (arch : Arch) (seen : GrowSeen) (oldsz newsz : Nat) : Prop :=
  oldsz ≤ newsz →
  outcome (tryBlock arch seen (pgRoundUp oldsz) (sub64 (pgRoundUp newsz) (pgRoundUp oldsz) / PGSIZE)) =
    some .noMemory →
  ∀ k > 0, StopsAt arch seen (pgRoundUp oldsz) newsz k (some false) →
    outcome (freeVma seen.vmas (pgRoundUp oldsz) (pgRoundUp oldsz + k * PGSIZE)) = none

/-- No page after the first fails in the second attempt of `uvmalloc1`. -/
def Uvmalloc1Meets (arch : Arch) (seen : GrowSeen) (start end_ : Nat) : Prop :=
  start < end_ →
  (outcome (tryBlock arch seen start (sub64 (pgRoundUp end_) start / PGSIZE)) = some .noMemory ∨
    outcome (tryBlock arch seen start (sub64 (pgRoundUp end_) start / PGSIZE)) = some .refused) →
  ∀ k > 0, ∀ made, ¬StopsAt arch seen start end_ k made

/-- No page that `uvmcopy` comes to lacks memory. -/
def UvmcopyMeets (arch : Arch) (seen : CopySeen) (virtAddr sz : Nat) : Prop :=
  ∀ pre page post, copied arch virtAddr sz = pre ++ page :: post →
    (∀ p ∈ pre, outcome (copyPage arch seen p.1) = some true) →
    outcome (copyPage arch seen page.1) ≠ some false

/-- The end of the page before `a + k * PGSIZE` is in reach, so rounding it up does not wrap. -/
theorem StopsAt.le {a : Nat} (h : StopsAt arch seen a end_ (k + 1) made) : a + k * PGSIZE < MAXVA arch :=
  lt_of_tryPage (h.before k (Nat.lt_succ_self k))

theorem undoAlloc_kept
    (hc : c.Avoids memoryLocks) (hal : oldsz % PGSIZE = 0) (h : StopsAt arch seen oldsz newsz k made) :
    (undoAlloc arch seen oldsz (oldsz + k * PGSIZE) made (inVmem c)).Kept noLocks c ↔
      (0 < k → made = some false → outcome (freeVma seen.vmas oldsz (oldsz + k * PGSIZE)) = none) := by
  by_cases hmade : made = none
  · subst hmade
    have hrun : undoAlloc arch seen oldsz (oldsz + k * PGSIZE) none (inVmem c) =
        (uvmdealloc arch seen (oldsz + k * PGSIZE) oldsz >>= fun _ => pure 0 : Kernel Int) c := by
      rw [undoAlloc, if_pos rfl, release_vmem]
    refine ⟨fun _ _ h => (nomatch h), fun _ => ?_⟩
    rw [hrun]
    exact (uvmdealloc_keeps.bind fun _ => keeps_pure).disciplined hc
  · have hfalse : made = some false := by
      have hfailed := h.failed
      rcases made with _ | _ | _
      · exact absurd rfl hmade
      · rfl
      · exact absurd rfl hfailed
    subst hfalse
    cases k with
    | zero =>
      refine ⟨fun _ h => absurd h (Nat.lt_irrefl 0), fun _ => ?_⟩
      have hsame : uvmdealloc arch seen (oldsz + 0 * PGSIZE) oldsz = (pure (oldsz + 0 * PGSIZE) : Kernel Nat) := by
        rw [uvmdealloc, if_pos (by simp)]
      have hrun : undoAlloc arch seen oldsz (oldsz + 0 * PGSIZE) (some false) (inVmem c) = .returned 0 c := by
        rw [undoAlloc, if_neg hmade, hsame, bind_returned pure_apply, release_vmem, pure_apply]
      exact kept_same hrun
    | succ k =>
      have hlt : oldsz < oldsz + (k + 1) * PGSIZE := by
        rw [Nat.succ_mul]
        simp only [PGSIZE]
        omega
      have hround : pgRoundUp oldsz < pgRoundUp (oldsz + (k + 1) * PGSIZE) := by
        have hle := h.le
        have hmax := Vmem.MAXVA_le arch
        simp only [pgRoundUp, alignUp, add64, PGSIZE] at *
        omega
      have hbuddy := inVmem_avoids hc
      cases ho : outcome (freeVma seen.vmas oldsz (oldsz + (k + 1) * PGSIZE)) with
      | none =>
        refine ⟨fun _ _ _ => rfl, fun _ => kept_died ?_⟩
        rw [undoAlloc, if_neg hmade, uvmdealloc, if_neg (Nat.not_le.mpr hlt), if_pos hround]
        exact bind_died (bind_died (freeVma_keeps.died hbuddy ho))
      | some r =>
        have hrun : undoAlloc arch seen oldsz (oldsz + (k + 1) * PGSIZE) (some false) (inVmem c) =
            .fault (.doubleAcquire .vmem) := by
          rw [undoAlloc, if_neg hmade]
          exact bind_fault (uvmdealloc_held hlt hround hbuddy (List.mem_cons_self ..) ho)
        refine ⟨fun hd => absurd hd (not_kept_fault hrun), fun hd => ?_⟩
        cases hd (Nat.succ_pos k) rfl

theorem undoAlloc1_kept (h : StopsAt arch seen start end_ k made) :
    (undoAlloc1 arch seen start (start + k * PGSIZE) made (inVmem c)).Kept noLocks c ↔ k = 0 := by
  cases k with
  | zero =>
    refine ⟨fun _ => rfl, fun _ => kept_died ?_⟩
    rw [undoAlloc1, uvmdealloc1, if_pos (by simp)]
    exact bind_died rfl
  | succ k =>
    have hlt : start < start + (k + 1) * PGSIZE := by
      rw [Nat.succ_mul]
      simp only [PGSIZE]
      omega
    have hround : pgRoundUp start ≤ pgRoundUp (start + (k + 1) * PGSIZE) := by
      have hle := h.le
      have hmax := Vmem.MAXVA_le arch
      simp only [pgRoundUp, alignUp, add64, PGSIZE] at *
      omega
    have hrun : undoAlloc1 arch seen start (start + (k + 1) * PGSIZE) made (inVmem c) =
        .fault (.doubleAcquire .vmem) :=
      bind_fault (uvmdealloc1_held hlt hround (List.mem_cons_self ..))
    exact ⟨fun hd => absurd hd (not_kept_fault hrun), fun h => absurd h (Nat.succ_ne_zero k)⟩

theorem uvmalloc_disciplined (hc : c.Avoids memoryLocks) :
    Disciplined noLocks (uvmalloc arch seen oldsz newsz) c ↔ UvmallocMeets arch seen oldsz newsz := by
  have hbuddy := inVmem_avoids hc
  rw [Disciplined, uvmalloc, bind_returned (acquire_vmem hc)]
  by_cases hlt : newsz < oldsz
  · rw [if_pos hlt, release_vmem]
    refine ⟨fun _ hle => absurd hlt (Nat.not_lt.mpr hle), fun _ => kept_same rfl⟩
  · rw [if_neg hlt]
    cases ho : outcome (tryBlock arch seen (pgRoundUp oldsz)
      (sub64 (pgRoundUp newsz) (pgRoundUp oldsz) / PGSIZE)) with
    | none =>
      rw [bind_died (tryBlock_keeps.died hbuddy ho)]
      refine ⟨fun _ _ hno => ?_, fun _ => trivial⟩
      rw [ho] at hno
      cases hno
    | some tried =>
      rw [bind_returned (tryBlock_keeps.returned hbuddy ho)]
      cases tried with
      | mapped =>
        refine ⟨fun _ _ hno => ?_, fun _ => kept_same release_vmem⟩
        rw [ho] at hno
        cases hno
      | refused =>
        refine ⟨fun _ _ hno => ?_, fun _ => kept_same release_vmem⟩
        rw [ho] at hno
        cases hno
      | noMemory =>
        dsimp only
        have hfuel : newsz ≤ pgRoundUp oldsz + Vmem.pageCeil newsz * PGSIZE := by
          simp only [Vmem.pageCeil, PGSIZE]
          omega
        cases fillLoop_end hbuddy hfuel with
        | stops k made h hr =>
          rw [hr, undoAlloc_kept hc (pgRoundUp_mod _) h]
          constructor
          · intro hd _ _ k' hk' h'
            obtain ⟨rfl, rfl⟩ := h.unique h'
            exact hd hk' rfl
          · intro hm hk hfalse
            subst hfalse
            exact hm (Nat.not_lt.mp hlt) ho k hk h
        | dies h hr =>
          rw [hr]
          exact ⟨fun _ _ _ k _ h' => absurd h' (h k _), fun _ => trivial⟩
        | fills h hr =>
          rw [hr, release_vmem]
          exact ⟨fun _ _ _ k _ h' => absurd h' (h k _), fun _ => kept_same rfl⟩

theorem uvmalloc1_disciplined (hc : c.Avoids memoryLocks) :
    Disciplined noLocks (uvmalloc1 arch seen start end_) c ↔ Uvmalloc1Meets arch seen start end_ := by
  have hbuddy := inVmem_avoids hc
  rw [Disciplined, uvmalloc1, bind_returned (acquire_vmem hc)]
  by_cases hge : start ≥ end_
  · rw [if_pos hge]
    refine ⟨fun _ hlt => absurd hlt (Nat.not_lt.mpr hge), fun _ => trivial⟩
  · rw [if_neg hge]
    have hfuel : end_ ≤ start + Vmem.pageCeil end_ * PGSIZE := by
      simp only [Vmem.pageCeil, PGSIZE]
      omega
    -- both reasons to go page by page
    have hfill : outcome (tryBlock arch seen start (sub64 (pgRoundUp end_) start / PGSIZE)) =
          some .noMemory ∨
        outcome (tryBlock arch seen start (sub64 (pgRoundUp end_) start / PGSIZE)) = some .refused →
        ((fillLoop arch seen end_ 1 (undoAlloc1 arch seen start) (Vmem.pageCeil end_) start
          (inVmem c)).Kept noLocks c ↔ Uvmalloc1Meets arch seen start end_) := by
      intro htried
      cases fillLoop_end hbuddy hfuel with
      | stops k made h hr =>
        rw [hr, undoAlloc1_kept h]
        constructor
        · intro hk _ _ k' hk' made' h'
          obtain ⟨rfl, -⟩ := h.unique h'
          omega
        · intro hm
          by_contra hk
          exact hm (Nat.not_le.mp hge) htried k (Nat.pos_of_ne_zero hk) made h
      | dies h hr =>
        rw [hr]
        exact ⟨fun _ _ _ k _ made => h k made, fun _ => trivial⟩
      | fills h hr =>
        rw [hr, release_vmem]
        exact ⟨fun _ _ _ k _ made => h k made, fun _ => kept_same rfl⟩
    cases ho : outcome (tryBlock arch seen start (sub64 (pgRoundUp end_) start / PGSIZE)) with
    | none =>
      rw [bind_died (tryBlock_keeps.died hbuddy ho)]
      refine ⟨fun _ _ htried => ?_, fun _ => trivial⟩
      rw [ho] at htried
      rcases htried with h | h <;> cases h
    | some tried =>
      rw [bind_returned (tryBlock_keeps.returned hbuddy ho)]
      cases tried with
      | mapped =>
        refine ⟨fun _ _ htried => ?_, fun _ => kept_same release_vmem⟩
        rw [ho] at htried
        rcases htried with h | h <;> cases h
      | refused => exact hfill (.inr ho)
      | noMemory => exact hfill (.inl ho)

theorem copyPage_keeps {seen : CopySeen} {va : Nat} : Locks.Keeps buddyLock (copyPage arch seen va) := by
  apply walkInternal_keeps.bind
  intro pte
  cases pte with
  | none => exact keeps_pure
  | some pte =>
    dsimp only
    split
    · exact keeps_pure
    apply pmemAllocPages_keeps.bind
    intro mem
    split
    · exact keeps_pure
    apply mappagesInternal_keeps.bind
    intro r
    split
    · exact pmemFreePages_keeps.bind fun _ => keeps_pure
    · exact keeps_pure

theorem copyPages_keeps {seen : CopySeen} : Locks.Keeps buddyLock (copyPages arch seen pages) := by
  induction pages with
  | nil => exact keeps_pure
  | cons page pages ih =>
    apply copyPage_keeps.bind
    intro ok
    split
    · exact ih
    · exact keeps_pure

/-- The copy jumps to `err` at the first page that is not copied. -/
theorem copyPages_some {seen : CopySeen} : (∃ i, outcome (copyPages arch seen pages) = some (some i)) ↔
      ∃ pre page post, pages = pre ++ page :: post ∧
        (∀ p ∈ pre, outcome (copyPage arch seen p.1) = some true) ∧
        outcome (copyPage arch seen page.1) = some false := by
  have hfree : Cpu.Avoids buddyLock (⟨[], 0⟩ : Cpu Lock) := fun _ _ hmem => by cases hmem
  induction pages with
  | nil =>
    constructor
    · rintro ⟨i, h⟩
      cases h
    · rintro ⟨pre, page, post, h, -⟩
      cases pre <;> cases h
  | cons page pages ih =>
    cases ho : outcome (copyPage arch seen page.1) with
    | none =>
      have hout : outcome (copyPages arch seen (page :: pages)) = none := by
        rw [outcome, copyPages, bind_died (copyPage_keeps.died hfree ho)]
      rw [hout]
      constructor
      · rintro ⟨i, h⟩
        cases h
      · rintro ⟨pre, page', post, h, hpre, hpage⟩
        cases pre with
        | nil =>
          cases h
          rw [ho] at hpage
          cases hpage
        | cons p pre =>
          cases h
          rw [hpre _ (List.mem_cons_self ..)] at ho
          cases ho
    | some ok =>
      cases ok with
      | false =>
        have hout : outcome (copyPages arch seen (page :: pages)) = some (some page.2) := by
          rw [outcome, copyPages, bind_returned (copyPage_keeps.returned hfree ho)]
          rfl
        rw [hout]
        exact ⟨fun _ => ⟨[], page, pages, rfl, List.forall_mem_nil _, ho⟩, fun _ => ⟨_, rfl⟩⟩
      | true =>
        have hout : outcome (copyPages arch seen (page :: pages)) = outcome (copyPages arch seen pages) := by
          rw [outcome, copyPages, bind_returned (copyPage_keeps.returned hfree ho)]
          rfl
        rw [hout]
        refine ih.trans ?_
        constructor
        · rintro ⟨pre, page', post, rfl, hpre, hpage⟩
          refine ⟨page :: pre, page', post, rfl, fun p hp => ?_, hpage⟩
          rcases List.mem_cons.mp hp with rfl | hp
          · exact ho
          · exact hpre p hp
        · rintro ⟨pre, page', post, h, hpre, hpage⟩
          cases pre with
          | nil =>
            cases h
            rw [ho] at hpage
            cases hpage
          | cons p pre =>
            cases h
            exact ⟨pre, page', post, rfl, fun q hq => hpre q (List.mem_cons_of_mem _ hq), hpage⟩

theorem uvmcopy_disciplined {seen : CopySeen} {virtAddr sz : Nat} (hc : c.Avoids memoryLocks) :
    Disciplined noLocks (uvmcopy arch seen virtAddr sz) c ↔ UvmcopyMeets arch seen virtAddr sz := by
  have hbuddy := inVmem_avoids hc
  have hmeets : UvmcopyMeets arch seen virtAddr sz ↔
      ¬∃ i, outcome (copyPages arch seen (copied arch virtAddr sz)) = some (some i) := by
    rw [copyPages_some]
    constructor
    · rintro hm ⟨pre, page, post, h, hpre, hpage⟩
      exact hm pre page post h hpre hpage
    · intro h pre page post hsplit hpre hpage
      exact h ⟨pre, page, post, hsplit, hpre, hpage⟩
  rw [hmeets, Disciplined, uvmcopy, bind_returned (acquire_vmem hc)]
  cases ho : outcome (copyPages arch seen (copied arch virtAddr sz)) with
  | none =>
    rw [bind_died (copyPages_keeps.died hbuddy ho)]
    exact ⟨fun _ ⟨_, h⟩ => (nomatch h), fun _ => trivial⟩
  | some failed =>
    rw [bind_returned (copyPages_keeps.returned hbuddy ho)]
    cases failed with
    | none => exact ⟨fun _ ⟨_, h⟩ => (nomatch h), fun _ => kept_same release_vmem⟩
    | some i =>
      refine ⟨fun hd => ?_, fun h => absurd ⟨i, rfl⟩ h⟩
      exact absurd hd (not_kept_fault (bind_fault (vmunmap_held rfl (List.mem_cons_self ..))))

end Discipline

end Spin

end SC7
