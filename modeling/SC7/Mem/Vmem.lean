-- SUMMARY: User page tables (`vmem.c`): walking, mapping and unmapping, and the routines that map fresh memory.
import SC7.Mem.PmemPages
import SC7.Mem.Vma

/-!
# Virtual memory

The user page tables of all processes, by process. A table of the last level holds the leaf entries;
`leaf pid vpn` is the entry for the virtual page `vpn`, all zero if it is not mapped. The tables above
it are pages of their own: `dir pid level i` is the page that entry `i` of level `level` points to,
where `i` is the virtual address shifted right by `PXSHIFT(level)`, and `NULL` if there is none.

A failed `assert` and a `panic` are `none`. So is a second `acquire` of `vmem_lock`: where a routine
calls `vmunmap` while it holds the lock, it panics. Every request to the allocator is recorded in
`asked`, together with the state it was made in; nothing reads this record.
-/

namespace SC7

open Function (update)

/-- A page table entry: the address of its page, as the kernel uses it, and its flags. -/
structure Pte where
  pa : Nat
  flags : Nat
  deriving DecidableEq, Repr

def PTE_V : Nat := 1

def PTE_W : Arch → Nat
  | .riscv => 1 <<< 2
  | .loongarch => 1 <<< 8

def PTE_U : Arch → Nat
  | .riscv => 1 <<< 4
  | .loongarch => 3 <<< 2

def PTE_D : Arch → Nat
  | .riscv => 1 <<< 7
  | .loongarch => 1 <<< 1

def PT_LEVEL : Arch → Nat
  | .riscv => 3
  | .loongarch => 4

def MAXVA : Arch → Nat
  | .riscv => 1 <<< (9 + 9 + 9 + 12 - 1)
  | .loongarch => 1 <<< (9 + 9 + 9 + 9 + 12 - 2)

abbrev EINVAL : Int := 22

namespace Pte

/-- The entry `0`. -/
def zero : Pte := ⟨0, 0⟩

def valid (pte : Pte) : Bool := pte.flags &&& PTE_V != 0

end Pte

/-- The mask of `PTE_FLAGS`. -/
def flagsMask : Arch → Nat
  | .riscv => 0x3FF
  | .loongarch => 0xE0000000000001FF

/-- `PTE_FLAGS(pte)`. -/
def PTE_FLAGS (arch : Arch) (pte : Pte) : Nat := pte.flags &&& flagsMask arch

/-- The conversion of an unsigned value to `int`. -/
def toInt32 (n : Nat) : Int := Int.bmod n (2 ^ 32)

theorem toInt32_of_lt {n : Nat} (hlt : n < 2 ^ 31) : toInt32 n = n := by
  unfold toInt32
  rw [Int.bmod_eq_of_le] <;> omega

theorem toU64_toInt32_of_lt {n : Nat} (hlt : n < 2 ^ 31) : toU64 (toInt32 n) = n := by
  rw [toInt32_of_lt hlt, toU64]
  omega

structure Vmem where
  pmem : Pmem
  leaf : Nat → Nat → Pte
  dir : Nat → Nat → Nat → Nat
  asked : List (Pmem × Int)

namespace Vmem

/-! ## Primitive operations -/

section Primitive

variable (s : Vmem)

/-- `pmem_alloc_pages(npages)`. -/
def alloc (npages : Int) : Option (Nat × Vmem) :=
  (s.pmem.pmemAllocPages npages).map fun (ptr, pmem) =>
    (ptr, { s with pmem, asked := (s.pmem, npages) :: s.asked })

/-- `pmem_free_pages(ptr, npages)`. -/
def free (ptr : Nat) (npages : Int) : Option Vmem :=
  (s.pmem.pmemFreePages ptr npages).map fun pmem => { s with pmem }

def setLeaf (pid vpn : Nat) (pte : Pte) : Vmem :=
  { s with leaf := update s.leaf pid (update (s.leaf pid) vpn pte) }

def setDir (pid level i page : Nat) : Vmem :=
  { s with dir := update s.dir pid (update (s.dir pid) level (update (s.dir pid level) i page)) }

/-- `memset((void *)addr, 0, len)`. -/
def memset (addr len : Nat) : Vmem := { s with pmem := s.pmem.zero addr len }

end Primitive

/-- The index of the entry that leads from level `level` to the next table. -/
def dirIndex (va level : Nat) : Nat := va >>> (12 + 9 * level)

/-! ## Walking -/

section Walk

variable (arch : Arch) (pid : Nat)

/-- The levels of `walk` from `level` down, with missing tables allocated; `false` if there was no
page for one. -/
def walkLevels (va : Nat) : Nat → Vmem → Option (Bool × Vmem)
  | 0, s => some (true, s)
  | level + 1, s =>
    if s.dir pid (level + 1) (dirIndex va (level + 1)) ≠ NULL then walkLevels va level s
    else
      (s.alloc 1).bind fun (pt, s) =>
        if pt = NULL then some (false, s)
        else walkLevels va level (s.setDir pid (level + 1) (dirIndex va (level + 1)) pt)

/-- `walk(pt, va, 1)`. -/
def walkAlloc (va : Nat) (s : Vmem) : Option (Bool × Vmem) :=
  if va ≥ MAXVA arch then none else walkLevels pid va (PT_LEVEL arch - 1) s

/-- All tables on the way to the entry of `va` exist. -/
def hasTables (va : Nat) (s : Vmem) : Bool :=
  (List.range (PT_LEVEL arch - 1)).all fun l => s.dir pid (l + 1) (dirIndex va (l + 1)) != NULL

/-- `walk(pt, va, 0)`, read: no caller tells a missing entry from one that is not valid. -/
def pteAt (va : Nat) (s : Vmem) : Pte :=
  if hasTables arch pid va s then s.leaf pid (va / PGSIZE) else Pte.zero

end Walk

/-! ## Mapping and unmapping -/

section Map

variable (arch : Arch) (pid : Nat)

/-- The loop of `mappages`. -/
def mappagesLoop (perm end_ : Nat) : Nat → Nat → Nat → Vmem → Option (Int × Vmem)
  | 0, _, _, _ => none
  | n + 1, current, pa, s =>
    (walkAlloc arch pid current s).bind fun (ok, s) =>
      if ok = false then none
      else if (s.leaf pid (current / PGSIZE)).valid then some (-EINVAL, s)
      else
        let s := s.setLeaf pid (current / PGSIZE) ⟨pa, perm ||| PTE_V⟩
        if current = end_ then some (1, s)
        else mappagesLoop perm end_ n (add64 current PGSIZE) (add64 pa PGSIZE) s

def mappages (va pa len perm : Nat) (s : Vmem) : Option (Int × Vmem) :=
  if va ≥ MAXVA arch ∨ pa % PGSIZE ≠ 0 then none
  else
    mappagesLoop arch pid perm (pgRoundDown (sub64 (add64 va len) 1)) (len / PGSIZE + 1) (pgRoundDown va) pa s

/-- One round of `vmunmap`. -/
def unmapPage (doFree : Bool) (a : Nat) (s : Vmem) : Option Vmem :=
  if a ≥ MAXVA arch then none
  else
    let pte := pteAt arch pid a s
    if pte.valid = false then some s
    else if PTE_FLAGS arch pte = PTE_V then none
    else
      let freed :=
        if doFree ∧ pte.pa ≠ 0 ∧ s.pmem.memStart ≤ pte.pa ∧ pte.pa < s.pmem.memEnd then s.free pte.pa 1
        else some s
      freed.map fun s => s.setLeaf pid (a / PGSIZE) Pte.zero

def vmunmapLoop (doFree : Bool) (end_ : Nat) : Nat → Nat → Vmem → Option Vmem
  | 0, a, s => if a < end_ then none else some s
  | n + 1, a, s =>
    if a < end_ then
      (unmapPage arch pid doFree a s).bind (vmunmapLoop doFree end_ n (add64 a PGSIZE))
    else some s

def vmunmap (va npages : Nat) (doFree : Bool) (s : Vmem) : Option Vmem :=
  if va % PGSIZE ≠ 0 then none
  else vmunmapLoop arch pid doFree (add64 va (npages * PGSIZE % 2 ^ 64)) npages va s

/-- The VMA list, which `free_vma` changes as well, is not part of this state. -/
def uvmdealloc (oldsz newsz : Nat) (s : Vmem) : Option (Nat × Vmem) :=
  if newsz ≥ oldsz then some (oldsz, s)
  else if pgRoundUp newsz < pgRoundUp oldsz then
    let npages := toInt32 ((pgRoundUp oldsz - pgRoundUp newsz) / PGSIZE)
    (vmunmap arch pid (pgRoundUp newsz) (toU64 npages) true s).map fun s => (newsz, s)
  else some (newsz, s)

end Map

/-! ## Fresh memory -/

section Fresh

variable (arch : Arch) (pid : Nat)

/-- How the attempt to map one block ended. -/
inductive Tried where
  | mapped
  | refused
  | noMemory
  deriving DecidableEq, Repr

/-- The number of the first page at or after an address. -/
def pageCeil (a : Nat) : Nat := (a + (PGSIZE - 1)) / PGSIZE

/-- The flags of fresh user memory. -/
def userPerm (perm : Nat) : Nat := perm ||| PTE_U arch ||| PTE_D arch

/-- The first attempt of `uvmalloc`, `uvmalloc1` and `uvm_grow`: one block for the whole range. -/
def tryBlock (va npages perm : Nat) (s : Vmem) : Option (Tried × Vmem) :=
  if npages > 0 then
    (s.alloc (toInt32 npages)).bind fun (mem, s) =>
      if mem ≠ NULL then
        let s := s.memset mem (npages * PGSIZE)
        (mappages arch pid va mem (npages * PGSIZE) (userPerm arch perm) s).bind fun (r, s) =>
          if r = 1 then some (.mapped, s)
          else (s.free mem (toInt32 npages)).map fun s => (.refused, s)
      else some (.noMemory, s)
  else some (.noMemory, s)

/-- One page of the second attempt: `none` inside if there was no memory, else whether the page was
mapped. -/
def tryPage (a perm : Nat) (s : Vmem) : Option (Option Bool × Vmem) :=
  (s.alloc 1).bind fun (mem, s) =>
    if mem = NULL then some (none, s)
    else
      let s := s.memset mem PGSIZE
      (mappages arch pid a mem PGSIZE (userPerm arch perm) s).bind fun (r, s) =>
        if r = 1 then some (some true, s) else (s.free mem 1).map fun s => (some false, s)

/-- The second attempt, page by page. `undo` is the clean-up after a page that could not be had
(`none`) or could not be mapped (`some false`). -/
def fillLoop (end_ perm : Nat) (done : Int)
    (undo : Nat → Option Bool → Vmem → Option (Int × Vmem)) : Nat → Nat → Vmem → Option (Int × Vmem)
  | 0, a, s => if a < end_ then none else some (done, s)
  | n + 1, a, s =>
    if a < end_ then
      (tryPage arch pid a perm s).bind fun (made, s) =>
        if made = some true then fillLoop end_ perm done undo n (add64 a PGSIZE) s
        else undo a made s
    else some (done, s)

/-- The clean-up of `uvm_grow`, which holds no lock. -/
def undoGrow (oldsz a : Nat) (_ : Option Bool) (s : Vmem) : Option (Int × Vmem) :=
  (uvmdealloc arch pid a oldsz s).map fun r => (0, r.2)

/-- The clean-up of `uvmalloc`. After a page that cannot be mapped it runs with the lock held. -/
def undoAlloc (oldsz a : Nat) (made : Option Bool) (s : Vmem) : Option (Int × Vmem) :=
  if made = some false ∧ oldsz < a ∧ pgRoundUp oldsz < pgRoundUp a then none
  else undoGrow arch pid oldsz a made s

/-- Both clean-ups of `uvmalloc1` end in a panic. -/
def undoAlloc1 (_ : Nat) (_ : Option Bool) (_ : Vmem) : Option (Int × Vmem) := none

def uvmalloc (oldsz newsz perm : Nat) (s : Vmem) : Option (Int × Vmem) :=
  if newsz < oldsz then some (oldsz, s)
  else
    let oldsz := pgRoundUp oldsz
    let npages := sub64 (pgRoundUp newsz) oldsz / PGSIZE
    (tryBlock arch pid oldsz npages perm s).bind fun
      | (.mapped, s) => some (newsz, s)
      | (.refused, s) => some (-EINVAL, s)
      | (.noMemory, s) =>
        fillLoop arch pid newsz perm newsz (undoAlloc arch pid oldsz) (pageCeil newsz) oldsz s

def uvmalloc1 (start end_ perm : Nat) (s : Vmem) : Option (Int × Vmem) :=
  if start ≥ end_ then none
  else
    let npages := sub64 (pgRoundUp end_) start / PGSIZE
    (tryBlock arch pid start npages perm s).bind fun
      | (.mapped, s) => some (1, s)
      | (_, s) => fillLoop arch pid end_ perm 1 undoAlloc1 (pageCeil end_) start s

def uvmGrow (oldsz newsz xperm : Nat) (s : Vmem) : Option (Int × Vmem) :=
  if newsz ≤ oldsz then some (oldsz, s)
  else
    let oldsz := pgRoundUp oldsz
    let npages := sub64 (pgRoundUp newsz) oldsz / PGSIZE
    (tryBlock arch pid oldsz npages xperm s).bind fun
      | (.mapped, s) => some (newsz, s)
      | (_, s) =>
        fillLoop arch pid newsz xperm newsz (undoGrow arch pid oldsz) (pageCeil newsz) oldsz s

end Fresh

end Vmem

end SC7
