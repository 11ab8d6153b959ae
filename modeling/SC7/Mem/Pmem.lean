-- SUMMARY: The physical page allocator (`pmem.c`): its state and its functions, as the kernel computes them.
import SC7.Base.Loop
import SC7.Base.Bitmap
import SC7.Kernel.List

/-!
# Physical memory

`pmem.c` manages one region of physical memory with a buddy system. The first pages
of the region hold a bitmap (one bit a page) and one `buddy_node_t` a page; every
free block of order `k` is linked on `free_lists[k]` through the node of its first
page.

Addresses are 64-bit: `add64` and `sub64` are the wrapping operations of the C code.
A function that reaches `panic` or a failed `ASSERT` returns `none`. Locking is left
out: each function below holds `buddy_sys.lock` from its first read to its last write.
-/

namespace SC7

abbrev PGSIZE : Nat := 4096
abbrev BUDDY_MAX_ORDER : Nat := 11
abbrev NULL : Nat := 0

/-! ## 64-bit addresses -/

def add64 (a b : Nat) : Nat := (a + b) % 2 ^ 64

def sub64 (a b : Nat) : Nat := (a + (2 ^ 64 - b)) % 2 ^ 64

/-- `ALIGN_UP(num, align)`, where masking with `~(align - 1)` rounds down to a multiple of
the power of two `align`. -/
def alignUp (num align : Nat) : Nat := add64 num (align - 1) / align * align

def pgRoundUp (a : Nat) : Nat := alignUp a PGSIZE

def pgRoundDown (a : Nat) : Nat := a / PGSIZE * PGSIZE

/-! ## State -/

/-- The pointers to list elements that occur in the allocator: the two header elements of
`free_lists[k]` and the element embedded in `nodes[page]`. -/
inductive ElemPtr where
  | null
  | head (k : Nat)
  | tail (k : Nat)
  | node (page : Nat)
  deriving DecidableEq, Repr

/-- `buddy_node_t` without its list element. -/
structure BuddyNode where
  addr : Nat
  order : Int
  deriving DecidableEq, Repr

/-- `buddy_system_t`, the list elements it holds, and the memory it hands out. `nodes` and
`elems` together are the array `nodes`. -/
structure Pmem where
  memStart : Nat
  memEnd : Nat
  totalPages : Nat
  bitmap : Bitmap
  nodes : Nat → BuddyNode
  elems : Links ElemPtr
  mem : Nat → UInt8

/-- `&buddy_sys.free_lists[k]`. -/
def freeLists (k : Nat) : KList ElemPtr := ⟨.head k, .tail k⟩

/-- `PGSIZE << order`. -/
def blockSize (order : Int) : Nat := PGSIZE <<< order.toNat

/-- The pages that the bitmap and the node array of a region take; `buddy_node_t` has 32
bytes. -/
def metaPages (totalPages : Nat) : Nat :=
  let bitmapBytes := (totalPages + 63) / 64 * 8
  let nodesBytes := totalPages * 32
  (bitmapBytes + nodesBytes + PGSIZE - 1) / PGSIZE

/-- The order of a request for `size` pages, `-1` if there is none. -/
def getOrder (size : Nat) : Int :=
  let order := go 1 0 BUDDY_MAX_ORDER
  if order ≥ BUDDY_MAX_ORDER then -1 else order
where
  /-- The `while` loop; the last argument is `BUDDY_MAX_ORDER - order`. -/
  go (temp order : Nat) : Nat → Nat
    | 0 => order
    | n + 1 => if temp < size then go (temp <<< 1) (order + 1) n else order

def getBuddyAddr (addr : Nat) (order : Int) : Nat := addr ^^^ blockSize order

namespace Pmem

variable (s : Pmem)

/-- The index of the page at `addr`; it wraps below `mem_start`. -/
def pageIdx (addr : Nat) : Nat := sub64 addr s.memStart / PGSIZE

/-- The address of page `page`. -/
def pageAddr (page : Nat) : Nat := s.memStart + page * PGSIZE

def isBuddyAvailable (addr : Nat) (order : Int) : Bool :=
  if addr < s.memStart || addr ≥ s.memEnd || sub64 addr s.memStart % blockSize order != 0 then
    false
  else
    let node := s.nodes (s.pageIdx addr)
    node.addr == addr && node.order == order && !s.bitmap.test (s.pageIdx addr)

def setBuddyUsed (addr : Nat) (order : Int) : Pmem :=
  { s with bitmap := s.bitmap.setRange (s.pageIdx addr) (blockSize order / PGSIZE) }

def setBuddyFree (addr : Nat) (order : Int) : Pmem :=
  { s with bitmap := s.bitmap.clearRange (s.pageIdx addr) (blockSize order / PGSIZE) }

/-- `nodes[page].addr = addr; nodes[page].order = order`. -/
def setNode (page : Nat) (node : BuddyNode) : Pmem :=
  { s with nodes := Function.update s.nodes page node }

/-- `nodes[page].elem.prev = NULL; nodes[page].elem.next = NULL`. -/
def clearElem (page : Nat) : Pmem :=
  { s with elems := (s.elems.setPrev (.node page) .null).setNext (.node page) .null }

def setBlockMetadata (addr : Nat) (order : Int) : Pmem := go (1 <<< order.toNat)
where
  go : Nat → Pmem
    | 0 => s
    | i + 1 =>
      let page := s.pageIdx addr + i
      if page < s.totalPages then (go i).setNode page ⟨addr, order⟩ else go i

/-- `list_push_front(&free_lists[k], &nodes[page].elem)`. -/
def pushFront (k page : Nat) : Option Pmem :=
  (listPushFront .null s.elems (freeLists k) (.node page)).map fun elems => { s with elems }

/-! ## Initialisation -/

/-- `list_init` of the first `n` free lists. -/
def initLists (L : Links ElemPtr) : Nat → Links ElemPtr
  | 0 => L
  | k + 1 => listInit .null (initLists L k) (freeLists k)

/-- Mark the first `n` pages as metadata pages. -/
def markMeta : Nat → Pmem
  | 0 => s
  | i + 1 =>
    let s := markMeta i
    { s with bitmap := s.bitmap.set i }.setNode i ⟨s.pageAddr i, -1⟩

end Pmem

/-- The order of the blocks that `buddy_init` and the rebuild put on the free lists: the
largest one of which at least one aligned block fits. -/
def pickOrder (availableStart availableEnd : Nat) : Nat → Option Nat
  | 0 => if add64 (alignUp availableStart (blockSize 0)) (blockSize 0) > availableEnd then none
      else some 0
  | k + 1 =>
    if add64 (alignUp availableStart (blockSize ↑(k + 1))) (blockSize ↑(k + 1)) > availableEnd then
      pickOrder availableStart availableEnd k
    else some (k + 1)

namespace Pmem

variable (s : Pmem)

def metaEnd : Nat := s.memStart + metaPages s.totalPages * PGSIZE

/-- One round of the inner loop of `buddy_init`: the block at `addr` becomes free. -/
def initBlock (k addr : Nat) : Option Pmem := do
  let page := s.pageIdx addr
  let s := (s.setNode page ⟨addr, k⟩).clearElem page
  let s ← s.pushFront k page
  some (s.setBlockMetadata addr k)

/-- The scan over `[metaEnd, memEnd)` that `buddy_init` and the rebuild share, for the order that
was picked: `add` is what they do with each aligned block of that order. A round moves a whole
block forward, so the pages of the region bound the rounds. -/
def scanFrom (add : Pmem → Nat → Nat → Option Pmem) : Option Nat → Option Pmem
  | none => some s
  | some k =>
    let size := blockSize k
    (Loop.run (fun st : Pmem × Nat => decide (add64 st.2 size ≤ st.1.memEnd))
      (fun st => (add st.1 k st.2).map fun s => (s, add64 st.2 size))
      (s.totalPages + 1) (s, alignUp s.metaEnd size)).map Prod.fst

def scan (add : Pmem → Nat → Nat → Option Pmem) : Option Pmem :=
  s.scanFrom add (pickOrder s.metaEnd s.memEnd BUDDY_MAX_ORDER)

end Pmem

/-- The state before the scan of `buddy_init`: empty lists, and only the metadata pages in
use. `mem` is the arbitrary content of memory at boot; the metadata in it is zeroed. -/
def buddyInitMeta (start end_ : Nat) (mem : Nat → UInt8) : Pmem :=
  let totalPages := sub64 end_ start / PGSIZE
  Pmem.markMeta
    { memStart := start
      memEnd := end_
      totalPages := totalPages
      bitmap := fun _ => 0#64
      nodes := fun _ => ⟨0, 0⟩
      elems := Pmem.initLists ⟨fun _ => .null, fun _ => .null⟩ (BUDDY_MAX_ORDER + 1)
      mem := mem }
    (metaPages totalPages)

def buddyInit (start end_ : Nat) (mem : Nat → UInt8) : Option Pmem :=
  (buddyInitMeta start end_ mem).scan Pmem.initBlock

/-- The two targets the kernel is built for. -/
inductive Arch where
  | riscv
  | loongarch
  deriving DecidableEq, Repr

def PAGE_NUM : Arch → Nat
  | .riscv => 250 * 1024
  | .loongarch => 120 * 1024

/-- `kernelData` is the address of the linker symbol `KERNEL_DATA`, the first one behind the
kernel. -/
def pmemInit (arch : Arch) (kernelData : Nat) (mem : Nat → UInt8) : Option Pmem :=
  let memStart := pgRoundUp kernelData
  buddyInit memStart (add64 memStart (PAGE_NUM arch * PGSIZE)) mem

namespace Pmem

/-! ## Allocation -/

/-- The first order from `k` on whose free list is not empty; `n` orders are left to try. -/
def findOrder (s : Pmem) (k : Nat) : Nat → Option Nat
  | 0 => none
  | n + 1 => if listEmpty s.elems (freeLists k) then findOrder s (k + 1) n else some k

/-- Split the block at `addr`, now of order `order + n`, down to `order`: each round gives
the upper half to the free list one order below. -/
def splitLoop (addr order : Nat) : Nat → Pmem → Option Pmem
  | 0, s => some s
  | n + 1, s => do
      let k := order + n
      let buddyAddr := add64 addr (blockSize k)
      let page := s.pageIdx buddyAddr
      let s := (s.setNode page ⟨buddyAddr, k⟩).clearElem page
      let s := s.setBlockMetadata buddyAddr k
      let s ← s.pushFront k page
      splitLoop addr order n (s.setBuddyFree buddyAddr k)

/-- `memset((void *)addr, 0, len)`. -/
def zero (s : Pmem) (addr len : Nat) : Pmem :=
  { s with mem := fun a => if addr ≤ a ∧ a < addr + len then 0 else s.mem a }

/-- Returns the address of the block, or `NULL`. -/
def buddyAlloc (s : Pmem) (order : Int) : Option (Nat × Pmem) :=
  if order < 0 ∨ order > BUDDY_MAX_ORDER then some (NULL, s)
  else
    match s.findOrder order.toNat (BUDDY_MAX_ORDER + 1 - order.toNat) with
    | none => some (NULL, s)
    | some k => do
        let (e, elems) ← listPopFront .null s.elems (freeLists k)
        match e with
        | .node page =>
          let addr := (s.nodes page).addr
          let s ← splitLoop addr order.toNat (k - order.toNat) { s with elems }
          let s := (s.setNode page ⟨addr, order⟩).clearElem page
          let s := s.zero addr (blockSize order)
          let s := s.setBlockMetadata addr order
          some (addr, s.setBuddyUsed addr order)
        | _ => none

/-! ## Release -/

/-- The merge loop: the free block at `addr`, of order `order`, takes in its buddy as long
as that is free as a whole. The last argument is `BUDDY_MAX_ORDER - order`. -/
def mergeLoop (s : Pmem) (addr order : Nat) : Nat → Option (Pmem × Nat × Nat)
  | 0 => some (s, addr, order)
  | n + 1 =>
    let buddyAddr := getBuddyAddr addr order
    let buddyPage := s.pageIdx buddyAddr
    if buddyPage ≥ s.totalPages then some (s, addr, order)
    else
      let buddyNode := s.nodes buddyPage
      if !s.isBuddyAvailable buddyAddr order || buddyNode.addr != buddyAddr ||
          buddyNode.order != order then
        some (s, addr, order)
      else do
        let elems ← listRemove .null s.elems (.node buddyPage)
        let s := { s with elems }.clearElem buddyPage
        let addr := min addr buddyAddr
        let order := order + 1
        let page := s.pageIdx addr
        if page ≥ s.totalPages then none
        else
          let s := (s.setNode page ⟨addr, order⟩).clearElem page
          mergeLoop (s.setBlockMetadata addr order) addr order n

def buddyFree (s : Pmem) (ptr : Nat) (order : Int) : Option Pmem :=
  if ptr = NULL ∨ order < 0 ∨ order > BUDDY_MAX_ORDER then some s
  else
    let page := s.pageIdx ptr
    if page ≥ s.totalPages then none
    else
      -- the block is the one the metadata records, whatever `order` says
      let node := s.nodes page
      let size := blockSize node.order
      if s.bitmap.allClear (s.pageIdx node.addr) (size / PGSIZE) then some s
      else if ptr < node.addr ∨ ptr ≥ add64 node.addr size then none
      else do
        let s := s.setBuddyFree node.addr node.order
        let order := node.order.toNat
        let (s, addr, order) ← s.mergeLoop node.addr order (BUDDY_MAX_ORDER - order)
        let page := s.pageIdx addr
        if page ≥ s.totalPages then none
        else
          let s := (s.setNode page ⟨addr, order⟩).clearElem page
          let s := s.setBlockMetadata addr order
          s.pushFront order page

/-! ## Emergency clean-up -/

/-- The pages below `n` that are marked used but carry impossible block information are
made free pages of order 0. -/
def cleanOrphans (s : Pmem) : Nat → Pmem
  | 0 => s
  | page + 1 =>
    let s := cleanOrphans s page
    let node := s.nodes page
    if s.bitmap.test page && node.order != -1 &&
        (node.order < 0 || node.order > BUDDY_MAX_ORDER || node.addr == 0 ||
          node.addr < s.memStart || node.addr ≥ s.memEnd) then
      ({ s with bitmap := s.bitmap.clear page }.setNode page ⟨s.pageAddr page, 0⟩).clearElem page
    else s

/-- One round of the inner loop of the rebuild: the block at `addr` becomes free if none of
its pages is in use. -/
def relistBlock (s : Pmem) (k addr : Nat) : Option Pmem :=
  let page := s.pageIdx addr
  if s.bitmap.allClear page (blockSize k / PGSIZE) then
    let s := (s.setNode page ⟨addr, k⟩).clearElem page
    (s.setBlockMetadata addr k).pushFront k page
  else some s

def buddyCleanupAndRebuild (s : Pmem) : Option Pmem :=
  let s := { s with elems := initLists s.elems (BUDDY_MAX_ORDER + 1) }
  (s.cleanOrphans s.totalPages).scan relistBlock

/-- The pages counted after the rebuild are only printed. -/
def emergencyMemoryCleanup (s : Pmem) : Option Pmem := s.buddyCleanupAndRebuild

/-- The used pages in `[metaPages, n)` with an impossible order are made free pages of
order 0; the second component counts them. -/
def reclaimOrphans (s : Pmem) : Nat → Pmem × Nat
  | 0 => (s, 0)
  | page + 1 =>
    let (s, reclaimed) := reclaimOrphans s page
    let node := s.nodes page
    if metaPages s.totalPages ≤ page && s.bitmap.test page && node.order != -1 &&
        (node.order < 0 || node.order > BUDDY_MAX_ORDER) then
      (({ s with bitmap := s.bitmap.clear page }.setNode page ⟨s.pageAddr page, 0⟩).clearElem page,
        reclaimed + 1)
    else (s, reclaimed)

def forceMemoryReclaim (s : Pmem) : Option Pmem :=
  let (s, reclaimed) := s.reclaimOrphans s.totalPages
  if reclaimed > 0 then s.buddyCleanupAndRebuild else some s

/-! ## The interface -/

/-- Returns the address of a block of at least `npages` pages, or `NULL`. -/
def pmemAllocPages (s : Pmem) (npages : Int) : Option (Nat × Pmem) :=
  if npages ≤ 0 then some (NULL, s)
  else
    let order := getOrder npages.toNat
    if order = -1 then some (NULL, s)
    else do
      let (ptr, s) ← s.buddyAlloc order
      if ptr ≠ NULL then some (ptr, s)
      else
        let s ← s.emergencyMemoryCleanup
        let (ptr, s) ← s.buddyAlloc order
        if ptr ≠ NULL then some (ptr, s)
        else
          let s ← s.forceMemoryReclaim
          s.buddyAlloc order

def pmemFreePages (s : Pmem) (ptr : Nat) (npages : Int) : Option Pmem :=
  if ptr = NULL ∨ npages ≤ 0 then some s
  else if ptr < s.memStart ∨ ptr ≥ s.memEnd then some s
  else
    let page := s.pageIdx ptr
    if page ≥ s.totalPages then some s
    else
      let node := s.nodes page
      let actualPages := 1 <<< node.order.toNat
      if node.addr < s.memStart ∨ node.addr ≥ s.memEnd then some s
      else if node.order < 0 ∨ node.order > BUDDY_MAX_ORDER then some s
      else if (actualPages : Int) < npages then some s
      else if node.addr % blockSize node.order ≠ 0 then some s
      else if s.bitmap.allClear (s.pageIdx node.addr) actualPages then some s
      else s.buddyFree node.addr node.order

/-- The addresses of the blocks on `free_lists[k]`, from front to back; `none` if following
`next` does not reach the tail. -/
def freeList (s : Pmem) (k : Nat) : Option (List Nat) :=
  (s.elems.walk (.tail k) s.totalPages (listBegin s.elems (freeLists k))).bind fun es =>
    es.mapM fun
      | .node page => some (s.nodes page).addr
      | _ => none

end Pmem

end SC7
