-- SUMMARY: The slab allocator (`slab_common.c`) over the page allocator: size classes, slabs, their object lists, `slab_alloc` and `slab_free`.
import SC7.Base.Chain
import SC7.Mem.Vmem

/-!
# The slab allocator

A slab is a page with a header and objects of one size. The free objects of a slab are linked through
their first words; the slabs of a size class are linked through their headers, in one list for slabs
with free objects and one for full slabs. The memory of a page is seen in three ways: the word at its
start, the header after that word, and the first word of every object. Clients write to the memory that
they were given, so for a page block all three are theirs.
-/

namespace SC7.Slab

open Function (update)
open SC7

/-- `struct slab`, without its magic number. -/
structure Header where
  next : Nat
  object : Nat
  size : Nat
  free : Nat
  deriving DecidableEq

/-- `struct kmem_cache`. -/
structure KmemCache where
  freeSlab : Nat
  fullSlab : Nat
  size : Nat

/-- A size class. -/
abbrev Class := Fin 8

/-- `slab_allocator` and the memory that it works on. -/
structure Slabs where
  pmem : Pmem
  magic : Nat → Nat
  header : Nat → Header
  link : Nat → Nat
  cache : Class → KmemCache

/-- Why a call does not return: a panic, an access through a null pointer, an endless loop. -/
inductive Stop where
  | panic
  | fault
  | hang
  deriving DecidableEq

def SLAB_MAGIC : Nat := 0x534C414242414C53

/-- `sizeof(struct slab)`. -/
def headerSize : Nat := 32

/-- `slab_size_table`. -/
def slabSizeTable (c : Class) : Nat := 2 ^ (c.val + 3)

/-- The number of objects of a slab. -/
def objectNum (size : Nat) : Nat := (PGSIZE - headerSize) / size

/-- `__slab_size`. -/
def slabSize (size : Nat) : Nat :=
  match (List.finRange 8).find? fun c => size ≤ slabSizeTable c with
  | some c => slabSizeTable c
  | none => 0

/-- The loop of `__create_slab_with_size`. -/
def linkObjects (size : Nat) : Nat → Nat → (Nat → Nat) → Nat → Nat
  | 0, _, link => link
  | j + 1, object, link => linkObjects size j (object + size) (update link object (object + size))

/-- The search of `slab_free` for the object to insert after. -/
def search (link : Nat → Nat) (object : Nat) : Nat → Nat → Except Stop Nat
  | 0, _ => .error .hang
  | fuel + 1, iterator =>
    if iterator = NULL then .error .fault
    else if iterator < object ∧ object < link iterator ∧ link iterator ≠ NULL then .ok iterator
    else if link iterator ≠ NULL then search link object fuel (link iterator)
    else .ok iterator

namespace Slabs

variable (s : Slabs)

def setHeader (slab : Nat) (h : Header) : Slabs := { s with header := update s.header slab h }

def setLink (object next : Nat) : Slabs := { s with link := update s.link object next }

def setCache (c : Class) (k : KmemCache) : Slabs := { s with cache := update s.cache c k }

/-- The memory of a block that `buddy_alloc` hands out is zero. -/
def clear (ptr len : Nat) : Slabs :=
  { s with
    magic := fun a => if ptr ≤ a ∧ a < ptr + len then 0 else s.magic a
    header := fun a => if ptr ≤ a ∧ a < ptr + len then ⟨0, 0, 0, 0⟩ else s.header a
    link := fun a => if ptr ≤ a ∧ a < ptr + len then 0 else s.link a }

/-- `pmem_alloc_pages`: the address of the block, or `NULL`. -/
def allocPages (npages : Int) : Except Stop (Nat × Slabs) :=
  match s.pmem.pmemAllocPages npages with
  | none => .error .panic
  | some (ptr, pmem) =>
    if ptr = NULL then .ok (NULL, { s with pmem })
    else .ok (ptr, { s.clear ptr (2 ^ (getOrder npages.toNat).toNat * PGSIZE) with pmem })

/-- The writes of `__create_slab_with_size` to the new page. -/
def format (slab size : Nat) : Slabs :=
  { s with
    link := linkObjects size (objectNum size - 1) (slab + headerSize) s.link
    magic := update s.magic slab SLAB_MAGIC
    header := update s.header slab ⟨NULL, slab + headerSize, size, objectNum size⟩ }

/-- `__create_slab_with_size`. -/
def createSlab (size : Nat) : Except Stop (Nat × Slabs) := do
  let (slab, s) ← s.allocPages 1
  if slab = NULL then .error .fault else .ok (slab, s.format slab size)

/-- `__fine_kmem_cache`. -/
def findKmemCache (size : Nat) : Option Class := (List.finRange 8).find? fun c => (s.cache c).size = size

/-- Takes the first object of a slab that has another one. -/
def takeObject (slab : Nat) : Except Stop (Nat × Slabs) :=
  let h := s.header slab
  if h.object = NULL then .error .fault
  else .ok (h.object, s.setHeader slab { h with object := s.link h.object, free := h.free - 1 })

/-- Puts a slab that has become full on the full list of its class. -/
def moveToFull (c : Class) (slab : Nat) : Except Stop Slabs :=
  let k := s.cache c
  let s := s.setCache c { k with freeSlab := (s.header slab).next }
  if k.fullSlab = NULL then .ok (s.setCache c { s.cache c with fullSlab := slab })
  else
    match Chain.last NULL (fun a => (s.header a).next) s.pmem.totalPages k.fullSlab with
    | none => .error .hang
    | some last =>
      let s := s.setHeader last { s.header last with next := slab }
      .ok (s.setHeader slab { s.header slab with next := NULL })

/-- `__alloc_from_kmem_cache`. -/
def allocFromKmemCache (c : Class) : Except Stop (Nat × Slabs) := do
  let slab := (s.cache c).freeSlab
  if slab ≠ NULL then
    let h := s.header slab
    if h.free > 1 then s.takeObject slab
    else if h.free = 1 then
      let s ← (s.setHeader slab { h with object := NULL, free := 0 }).moveToFull c slab
      .ok (h.object, s)
    else .error .panic
  else
    let (slab, s) ← s.createSlab (s.cache c).size
    (s.setCache c { s.cache c with freeSlab := slab }).takeObject slab

/-- `slab_alloc`; the number of pages of a large request is an `int`. -/
def slabAlloc (size : Nat) : Except Stop (Nat × Slabs) :=
  let alignedSize := slabSize size
  if alignedSize = 0 then s.allocPages (toInt32 (add64 size (PGSIZE - 1) / PGSIZE))
  else
    match s.findKmemCache alignedSize with
    | some c => s.allocFromKmemCache c
    | none => .error .panic

/-- The first free object of a full slab: the slab goes back to the free list of its class. -/
def freeToFull (slab addr : Nat) : Slabs :=
  let h := s.header slab
  let s := s.setLink addr NULL
  let s := s.setHeader slab { h with object := addr, free := 1 }
  match s.findKmemCache h.size with
  | none => s
  | some c =>
    let k := s.cache c
    let s := s.setHeader slab { s.header slab with next := k.freeSlab }
    s.setCache c { k with fullSlab := h.next, freeSlab := slab }

/-- The insertion at the head that `slab_free` starts with, before it searches all the same. -/
def freeAtHead (slab addr : Nat) : Slabs :=
  let h := s.header slab
  if addr < h.object then
    (s.setLink addr h.object).setHeader slab { h with object := addr }
  else s

/-- An object goes back to a slab that has free objects. -/
def freeToList (slab addr : Nat) : Except Stop Slabs := do
  let first := (s.header slab).object
  let s := s.freeAtHead slab addr
  let iterator ← search s.link addr (PGSIZE / 8) first
  let s := s.setLink addr (s.link iterator)
  let s := s.setLink iterator addr
  .ok (s.setHeader slab { s.header slab with free := (s.header slab).free + 1 })

/-- `slab_free`. -/
def slabFree (addr : Nat) : Except Stop Slabs :=
  let pageStart := pgRoundDown addr
  if s.magic pageStart = SLAB_MAGIC then
    let h := s.header pageStart
    if sub64 addr headerSize % h.size ≠ 0 then .error .panic
    else if h.free = 0 then .ok (s.freeToFull pageStart addr)
    else s.freeToList pageStart addr
  else if addr % PGSIZE = 0 then
    match s.pmem.pmemFreePages addr 1 with
    | none => .error .panic
    | some pmem => .ok { s with pmem }
  else .error .panic

/-- One round of `slab_init`. -/
def initCache (c : Class) : Except Stop Slabs := do
  let (slab, s) ← s.createSlab (slabSizeTable c)
  .ok (s.setCache c ⟨slab, NULL, slabSizeTable c⟩)

/-- `slab_init`; the page for the `kmem_cache` structures themselves comes first. -/
def slabInit : Except Stop Slabs := do
  let (page, s) ← s.allocPages 1
  if page = NULL then .error .fault else (List.finRange 8).foldlM initCache s

end Slabs

/-! ## Runs -/

/-- The state before `slab_init`. The sizes of the classes are constants. -/
def boot (pmem : Pmem) (magic : Nat → Nat) (header : Nat → Header) (link : Nat → Nat) : Slabs :=
  ⟨pmem, magic, header, link, fun c => ⟨NULL, NULL, slabSizeTable c⟩⟩

/-- The allocator with what it has given out: the slabs it has created for each class, the live objects
and the live page blocks with their lengths. -/
structure Run where
  s : Slabs
  slabs : Class → List Nat
  live : List Nat
  blocks : List (Nat × Nat)

/-- What happens: a request, a release, a client that writes to an object or to a page block. -/
inductive Op where
  | alloc (size : Nat)
  | free (addr : Nat)
  | write (addr value : Nat)
  | writeBlock (addr len : Nat)

namespace Run

/-- The slabs of each class after a request of class `c` that led to state `s'`. -/
def created (r : Run) (c : Class) (s' : Slabs) : Class → List Nat :=
  if (r.s.cache c).freeSlab = NULL then update r.slabs c ((s'.cache c).freeSlab :: r.slabs c)
  else r.slabs

/-- One operation that returns. -/
inductive Step (r : Run) : Op → Run → Prop where
  | object (size addr : Nat) (c : Class) (s' : Slabs) (hc : slabSize size = slabSizeTable c)
      (hret : r.s.slabAlloc size = .ok (addr, s')) :
      Step r (.alloc size) { r with s := s', slabs := r.created c s', live := addr :: r.live }
  | block (size addr : Nat) (s' : Slabs) (hlarge : slabSize size = 0)
      (hret : r.s.slabAlloc size = .ok (addr, s')) (hne : addr ≠ NULL) (len : Nat)
      (hlen : len = 2 ^ (getOrder (toInt32 (add64 size (PGSIZE - 1) / PGSIZE)).toNat).toNat * PGSIZE) :
      Step r (.alloc size) { r with s := s', blocks := (addr, len) :: r.blocks }
  | noBlock (size : Nat) (s' : Slabs) (hlarge : slabSize size = 0)
      (hret : r.s.slabAlloc size = .ok (NULL, s')) : Step r (.alloc size) { r with s := s' }
  | freeObject (addr : Nat) (s' : Slabs) (hlive : addr ∈ r.live) (hret : r.s.slabFree addr = .ok s') :
      Step r (.free addr) { r with s := s', live := r.live.erase addr }
  | freeBlock (addr len : Nat) (s' : Slabs) (hlive : (addr, len) ∈ r.blocks)
      (hret : r.s.slabFree addr = .ok s') :
      Step r (.free addr) { r with s := s', blocks := r.blocks.erase (addr, len) }
  | write (addr value : Nat) (hlive : addr ∈ r.live) :
      Step r (.write addr value) { r with s := r.s.setLink addr value }
  | writeBlock (addr len : Nat) (hlive : (addr, len) ∈ r.blocks) (magic : Nat → Nat) (header : Nat → Header)
      (link : Nat → Nat)
      (hmagic : ∀ a, ¬ (addr ≤ a ∧ a < addr + len) → magic a = r.s.magic a)
      (hheader : ∀ a, ¬ (addr ≤ a ∧ a < addr + len) → header a = r.s.header a)
      (hlink : ∀ a, ¬ (addr ≤ a ∧ a < addr + len) → link a = r.s.link a) :
      Step r (.writeBlock addr len) { r with s := { r.s with magic, header, link } }

/-- An operation under a condition on it. -/
def Move (meets : Run → Op → Prop) (r r' : Run) : Prop := ∃ op, meets r op ∧ r.Step op r'

/-- The state after `slab_init`, which finds the nine pages it needs: one slab for each class, nothing
given out. -/
def Start (r : Run) : Prop :=
  ∃ pmem blocks magic header link, pmem.Wf blocks ∧
    (∃ pages : List Nat, pages.Nodup ∧ pages.length = 9 ∧ ∀ q ∈ pages, pmem.FreePage q) ∧
    (boot pmem magic header link).slabInit = .ok r.s ∧
    r.slabs = (fun c => [(r.s.cache c).freeSlab]) ∧ r.live = [] ∧ r.blocks = []

end Run

end SC7.Slab
