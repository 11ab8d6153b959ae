-- SUMMARY: The VMA lists of the processes (`vma.c`): the nodes in memory and the routines that splice them.
import SC7.Base.Circular
import SC7.Mem.Pmem

/-!
# Virtual memory areas

The user address space of a process is described by a circular doubly linked list of `struct vma`,
one page a node, with the anchor `p->vma`. The list routines of `vma.c` are modelled on pointers:
the state gives every page the node it holds and its two links, and each assignment of the source
is one update of them.

What the routines get from the rest of the kernel is left open. `pmem_alloc_pages` answers with the
pages of `supply`, in this order; every caller panics on `NULL`, so an empty supply is a panic. A
page that still holds a VMA is never handed out: that is the contract of the allocator, and `used`
is the record of the pages it speaks about. The page-table routines are `PageOps`.
A panic is `none`, and so is a loop that needs more rounds than its fuel.
-/

namespace SC7

open Function (update)

/-- `enum segtype`. -/
inductive SegType where
  | NONE
  | MMAP
  | STACK
  | SHARE
  deriving DecidableEq, Repr

/-- `struct vma` without its two links. -/
structure Vma where
  type : SegType
  perm : Nat
  origProt : Int
  addr : Nat
  size : Nat
  end_ : Nat
  flags : Int
  fd : Int
  fOff : Nat
  fsize : Nat
  refCount : Int
  shmKernel : Nat
  deriving DecidableEq, Repr

/-- The fields of `struct shmid_kernel` that the VMA lists depend on; `shmPages` is `none` once
the array of pages is freed. -/
structure ShmidKernel where
  shmid : Nat
  size : Nat
  attachCount : Int
  isDeleted : Bool
  shmPages : Option (List Nat)
  attaches : Nat
  deriving DecidableEq, Repr

/-- Whether the page-table routines come back without a panic (`vmunmap`) and with success (the
other two), for a process and the arguments of the call. -/
structure PageOps where
  uvmalloc1 : Nat → Nat → Nat → Nat → Bool
  mappages : Nat → Nat → Nat → Nat → Nat → Bool
  vmunmap : Nat → Nat → Nat → Bool → Bool

/-- The pages that hold VMAs, the shared segments, and of every process `vma` and `sz`. -/
structure VmaMem where
  links : Links Nat
  node : Nat → Vma
  used : Nat → Bool
  supply : List Nat
  shm : Nat → ShmidKernel
  head : Nat → Nat
  sz : Nat → Nat
  mapAddr : Nat

/-- The conversion of a signed value to `uint64`. -/
def toU64 (z : Int) : Nat := (z % 2 ^ 64).toNat

abbrev USER_MMAP_START : Nat := 0x80000000 - 0x20000000 - 2 * PGSIZE

namespace Vma

/-- A zeroed page, read as a `struct vma`. -/
def zero : Vma :=
  { type := .NONE, perm := 0, origProt := 0, addr := 0, size := 0, end_ := 0, flags := 0, fd := 0,
    fOff := 0, fsize := 0, refCount := 0, shmKernel := NULL }

/-- What is left of a VMA before `start`. -/
def front (v : Vma) (start : Nat) : Vma :=
  { v with end_ := start, size := sub64 start v.addr }

/-- What is left of a VMA from `end_` on; the file offset moves along. -/
def back (v : Vma) (end_ : Nat) : Vma :=
  { v with addr := end_, size := sub64 v.end_ end_, fOff := add64 v.fOff (sub64 end_ v.addr) }

end Vma

namespace VmaMem

/-! ## Pages and nodes -/

section Nodes

variable (s : VmaMem)

/-- `pmem_alloc_pages(1)` for a VMA. -/
def allocPage : Option (Nat × VmaMem) :=
  match s.supply with
  | [] => none
  | p :: ps =>
    if p = NULL ∨ s.used p then none
    else some (p, { s with supply := ps, used := update s.used p true })

/-- `pmem_free_pages(p, 1)` of a VMA. -/
def freePage (p : Nat) : VmaMem := { s with used := update s.used p false }

def setNode (p : Nat) (v : Vma) : VmaMem := { s with node := update s.node p v }

def setLinks (L : Links Nat) : VmaMem := { s with links := L }

def setShm (shp : Nat) (seg : ShmidKernel) : VmaMem := { s with shm := update s.shm shp seg }

/-- `*dst = *src`, links included. -/
def copyVma (dst src : Nat) : VmaMem := (s.setNode dst (s.node src)).setLinks
    ((s.links.setPrev dst (s.links.prev src)).setNext dst (s.links.next src))

/-- A new page with a copy of the VMA `vma`, changed by `f`. -/
def cloneVma (vma : Nat) (f : Vma → Vma) : Option (Nat × VmaMem) :=
  s.allocPage.map fun (e, s) =>
    let s := s.copyVma e vma
    (e, s.setNode e (f (s.node e)))

end Nodes

/-! ## `alloc_vma` -/

section Alloc

variable (ops : PageOps) (s : VmaMem)

/-- The search of `alloc_vma`: the node to insert before (`inl`), or the VMA that already covers
the range (`inr`). A partial overlap is a panic. -/
def findSlot (h start end_ : Nat) : Nat → Nat → Option (Nat ⊕ Nat)
  | 0, v => if v = h then some (.inl v) else none
  | fuel + 1, v =>
    if v = h then some (.inl v)
    else if end_ ≤ (s.node v).addr then some (.inl v)
    else if start ≥ (s.node v).end_ then findSlot h start end_ fuel (s.links.next v)
    else if start ≥ (s.node v).addr ∧ end_ ≤ (s.node v).end_ then some (.inr v)
    else none

/-- `uvmalloc1` or `mappages`, as the arguments of `alloc_vma` select. -/
def mapRange (pid start end_ : Nat) (sz : Int) (perm : Nat) (alloc : Bool) (pa : Nat) : Bool :=
  if sz ≠ 0 then
    if alloc then ops.uvmalloc1 pid start end_ perm
    else if pa ≠ 0 then ops.mappages pid start end_ pa perm
    else true
  else true

/-- The fields that `alloc_vma` sets; the others keep what the page held. -/
def initVma (old : Vma) (type : SegType) (start end_ : Nat) (sz : Int) (perm : Nat) : Vma :=
  { old with
    addr := start, size := toU64 sz, perm := perm, end_ := end_, fd := -1, fOff := 0, fsize := 0,
    type := type, refCount := 1, shmKernel := NULL }

def allocVma (fuel pid : Nat) (type : SegType) (addr : Nat) (sz : Int) (perm : Nat) (alloc : Bool)
    (pa : Nat) : Option (Nat × VmaMem) :=
  if s.head pid = NULL then none
  else
    let start := pgRoundUp addr
    let end_ := pgRoundUp (toU64 (addr + sz))
    match s.findSlot (s.head pid) start end_ fuel (s.links.next (s.head pid)) with
    | none => none
    | some (.inr v) => some (v, s)
    | some (.inl b) =>
      s.allocPage.bind fun (vma, s) =>
        if mapRange ops pid start end_ sz perm alloc pa then
          let s := s.setNode vma (initVma (s.node vma) type start end_ sz perm)
          some (vma, s.setLinks (s.links.insertBefore b vma))
        else none

/-- The first mapping below `USER_MMAP_START`, `NULL` if there is none. -/
def findMmapVma (h : Nat) : Nat → Nat → Option Nat
  | 0, v => if v = h then some NULL else none
  | fuel + 1, v =>
    if v = h then some NULL
    else if ((s.node v).type = .MMAP ∨ (s.node v).type = .SHARE) ∧
        (s.node v).addr < USER_MMAP_START then some v
    else findMmapVma h fuel (s.links.next v)

/-- The start address that `alloc_mmap_vma` chooses when the caller names none, with the new
`map_addr` and `p->sz`. -/
def chooseStart (pid findVma : Nat) (len : Int) : Nat × VmaMem :=
  let heapEnd := pgRoundUp (s.sz pid)
  let addr := (s.node findVma).addr
  if toU64 len < addr ∧ sub64 addr (toU64 len) > heapEnd then
    (pgRoundDown (sub64 addr (toU64 len)), s)
  else
    let start := s.mapAddr
    let s := { s with mapAddr := pgRoundUp (add64 s.mapAddr (toU64 len)) }
    if start < heapEnd then
      (heapEnd, { s with sz := update s.sz pid (pgRoundUp (add64 (s.sz pid) (toU64 len))) })
    else (start, s)

def MAP_ALLOC : Nat := 0xf00

def allocMmapVma (fuel pid flags start : Nat) (len : Int) (perm : Nat) (fd : Int) (offset : Nat) :
    Option (Nat × VmaMem) :=
  (s.findMmapVma (s.head pid) fuel (s.links.next (s.head pid))).bind fun v =>
    let findVma := if v = NULL then s.head pid else v
    let (start, s) := if start = 0 then s.chooseStart pid findVma len else (start, s)
    let isalloc := (flags &&& MAP_ALLOC != 0 || (fd != -1 && perm != 0)) && flags &&& 1 == 0
    (allocVma ops s fuel pid .MMAP start len perm isalloc 0).map fun (vma, s) =>
      (vma, s.setNode vma { s.node vma with fd := fd, fOff := offset, origProt := 0 })

def vmaInit (fuel pid : Nat) : Option VmaMem :=
  s.allocPage.bind fun (vma, s) =>
    let s := s.setNode vma Vma.zero
    let s := s.setLinks ((s.links.setNext vma vma).setPrev vma vma)
    let s := { s with head := update s.head pid vma }
    (allocMmapVma ops s fuel pid 0 USER_MMAP_START 0 0 0 0).map Prod.snd

end Alloc

/-! ## `munmap` -/

section Munmap

variable (ops : PageOps) (s : VmaMem)

/-- The search of `munmap` along `next` from `shp->attaches` for the node before `vma`. -/
def walkAttaches (attaches vma : Nat) : Nat → Nat → Option Nat
  | 0, current => if current ≠ NULL ∧ s.links.next current ≠ vma then none else some current
  | fuel + 1, current =>
    if current ≠ NULL ∧ s.links.next current ≠ vma then
      if s.links.next current = attaches then some (s.links.next current)
      else walkAttaches attaches vma fuel (s.links.next current)
    else some current

/-- The removal of `vma` from the attach list of its segment. -/
def detach (fuel vma : Nat) : Option VmaMem :=
  let shp := (s.node vma).shmKernel
  let seg := s.shm shp
  if seg.attaches = NULL then some s
  else if seg.attaches = vma then some (s.setShm shp { seg with attaches := NULL })
  else
    (s.walkAttaches seg.attaches vma fuel seg.attaches).map fun current =>
      if current ≠ NULL ∧ s.links.next current = vma then
        s.setLinks (s.links.setNext current (s.links.next vma))
      else s

/-- Case 1 of `munmap`: the VMA lies in the range. -/
def munmapWhole (fuel pid vma : Nat) : Option VmaMem :=
  let v := s.node vma
  let npages := sub64 v.end_ v.addr / PGSIZE
  if v.refCount > 1 then some (s.setNode vma { v with refCount := v.refCount - 1 })
  else
    let detached :=
      if v.type = .SHARE ∧ v.shmKernel ≠ NULL then
        if ops.vmunmap pid v.addr npages false then
          if (s.shm v.shmKernel).isDeleted ∨ (s.shm v.shmKernel).shmPages = none then some s
          else s.detach fuel vma
        else none
      else if ops.vmunmap pid v.addr npages true then some s
      else none
    detached.map fun s => (s.setLinks (s.links.unlink vma)).freePage vma

/-- The new VMA for what lies before `start`. -/
def insertFront (start vma : Nat) : Option VmaMem :=
  if (s.node vma).addr < start then
    (s.cloneVma vma (·.front start)).map fun (newFront, s) =>
      s.setLinks (s.links.takePlace vma newFront)
  else some s

/-- The new VMA for what lies after `end_`. -/
def insertBack (start end_ vma : Nat) : Option VmaMem :=
  if (s.node vma).end_ > end_ then
    (s.cloneVma vma (·.back end_)).map fun (newBack, s) =>
      if (s.node vma).addr < start then
        s.setLinks (s.links.insertAfter (s.links.next (s.links.prev vma)) newBack)
      else s.setLinks (s.links.takePlace vma newBack)
  else some s

/-- Case 2 of `munmap`: the VMA only overlaps the range and is replaced by what is left of it. -/
def munmapPart (pid start end_ vma : Nat) : Option VmaMem :=
  let v := s.node vma
  let shared := v.type = .SHARE ∧ v.shmKernel ≠ NULL ∧
    ¬(s.shm v.shmKernel).isDeleted ∧ (s.shm v.shmKernel).shmPages ≠ none
  let unmapStart := if v.addr > start then v.addr else start
  let unmapEnd := if v.end_ < end_ then v.end_ else end_
  ((s.setLinks (s.links.unlink vma)).insertFront start vma).bind fun s =>
    (s.insertBack start end_ vma).bind fun s =>
      if unmapEnd > unmapStart ∧
          ¬ops.vmunmap pid unmapStart ((unmapEnd - unmapStart) / PGSIZE) (¬shared) then none
      else some (s.freePage vma)

/-- One VMA that overlaps the range. -/
def munmapNode (fuel pid start end_ vma : Nat) : Option VmaMem :=
  if (s.node vma).addr ≥ start ∧ (s.node vma).end_ ≤ end_ then munmapWhole ops s fuel pid vma
  else munmapPart ops s pid start end_ vma

/-- The loop of `munmap` over the list with the anchor `h`. -/
def munmapLoop (fuel pid start end_ h : Nat) : Nat → Nat → Bool → VmaMem → Option (Bool × VmaMem)
  | 0, vma, found, s => if vma = h then some (found, s) else none
  | n + 1, vma, found, s =>
    if vma = h then some (found, s)
    else
      let nextVma := s.links.next vma
      if (s.node vma).end_ > start ∧ (s.node vma).addr ≤ end_ then
        (munmapNode ops s fuel pid start end_ vma).bind (munmapLoop fuel pid start end_ h n nextVma true)
      else munmapLoop fuel pid start end_ h n nextVma found s

def munmap (fuel pid start : Nat) (len : Int) : Option (Int × VmaMem) :=
  if s.head pid = NULL then none
  else
    let end_ := pgRoundDown (toU64 (start + len))
    let start := pgRoundDown start
    if start ≠ pgRoundDown start ∨ len ≤ 0 then some (-1, s)
    else
      (munmapLoop ops fuel pid start end_ (s.head pid) fuel (s.links.next (s.head pid)) false s).map
        fun (found, s) => (if found then 0 else -1, s)

end Munmap

/-! ## `free_vma` -/

section Free

variable (s : VmaMem)

/-- One VMA that overlaps the range. -/
def freeVmaNode (start end_ vma : Nat) : Option VmaMem :=
  let v := s.node vma
  if v.addr ≥ start ∧ v.end_ ≤ end_ then some ((s.setLinks (s.links.unlink vma)).freePage vma)
  else
    let left :=
      if v.addr < start then
        (s.cloneVma vma (·.front start)).map fun (left, s) =>
          s.setLinks (s.links.insertBefore vma left)
      else some s
    let right := left.bind fun s =>
      if v.end_ > end_ then
        (s.cloneVma vma (·.back end_)).map fun (right, s) =>
          s.setLinks (s.links.insertAfter vma right)
      else some s
    right.map fun s => (s.setLinks (s.links.unlink vma)).freePage vma

/-- The loop of `free_vma`. -/
def freeVmaLoop (start end_ h : Nat) : Nat → Nat → VmaMem → Option VmaMem
  | 0, vma, s => if vma = h then some s else none
  | n + 1, vma, s =>
    if vma = h then some s
    else
      let nextVma := s.links.next vma
      if (s.node vma).end_ > start ∧ (s.node vma).addr < end_ then
        (s.freeVmaNode start end_ vma).bind (freeVmaLoop start end_ h n nextVma)
      else freeVmaLoop start end_ h n nextVma s

def freeVma (fuel pid start end_ : Nat) : Option (Int × VmaMem) :=
  if s.head pid = NULL ∨ s.links.next (s.head pid) = NULL then some (-1, s)
  else
    (freeVmaLoop start end_ (s.head pid) fuel (s.links.next (s.head pid)) s).map fun s => (1, s)

end Free

/-! ## `vma_copy` -/

section Copy

variable (s : VmaMem)

/-- Puts `nvma` at the end of the list with the anchor `newVma`. -/
def appendVma (newVma nvma : Nat) : VmaMem :=
  let L := (s.links.setPrev nvma NULL).setNext nvma NULL
  s.setLinks (L.insertBefore newVma nvma)

/-- The loop of `vma_copy`. A VMA whose segment lost its pages is not copied: its copy, which still
has the links of the original, is unlinked, and the loop tries the same VMA again. -/
def vmaCopyLoop (head newVma : Nat) : Nat → Nat → VmaMem → Option VmaMem
  | 0, pre, s => if pre = head then some s else none
  | n + 1, pre, s =>
    if pre = head then some s
    else
      s.allocPage.bind fun (nvma, s) =>
        let s := s.copyVma nvma pre
        let v := s.node nvma
        let seg := s.shm v.shmKernel
        if v.type = .SHARE ∧ v.shmKernel ≠ NULL then
          if seg.shmPages ≠ none then
            let s := s.setShm v.shmKernel { seg with attachCount := seg.attachCount + 1 }
            let s := s.appendVma newVma nvma
            vmaCopyLoop head newVma n (s.links.next pre) s
          else
            vmaCopyLoop head newVma n pre ((s.setLinks (s.links.unlink nvma)).freePage nvma)
        else
          let s := s.appendVma newVma nvma
          vmaCopyLoop head newVma n (s.links.next pre) s

/-- `vma_copy(np, p->vma)`. The files of file mappings are duplicated as well; their reference
counts are not part of this state. -/
def vmaCopy (fuel pid np : Nat) : Option (Nat × VmaMem) :=
  if s.head pid = NULL then none
  else
    s.allocPage.bind fun (newVma, s) =>
      let h := s.head pid
      let s := s.setLinks ((s.links.setPrev newVma newVma).setNext newVma newVma)
      let s := s.setNode newVma { s.node newVma with type := .NONE }
      let s := { s with head := update s.head np newVma }
      (vmaCopyLoop h newVma fuel (s.links.next h) s).map fun s => (newVma, s)

end Copy

end VmaMem

end SC7
