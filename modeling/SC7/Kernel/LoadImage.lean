-- SUMMARY: The segments of a program in memory (`exec.c`): the loop that maps and reads them page by page, and the image that the program expects.
import SC7.Mem.GrowExact
import SC7.Kernel.ExecLoad

/-!
# The load image

For each header of type `LOAD` the loop of `exec` grows the new address space from the page of `vaddr` up to
`vaddr + memsz`, does not look at what `uvm_grow` returns, and lets `loadseg` read the file into the pages, from the
start of the first page on: what is in the file before the segment comes with it. `loadseg` takes its offset and
its size as `uint`.

A failed assertion in `loadseg`, and everything that goes to `bad`, ends in a panic: they are `none`. The table that
`proc_pagetable` made is `s`; the pages that it maps (the trampolines and the trap frame) are there already.
-/

namespace SC7.Load

open Exec (ElfFile ProgramHeader ELF_PROG_LOAD)
open Vmem (pageCeil Affords)

/-- A file by its bytes: a read returns bytes of the file, but maybe fewer than it was asked for. -/
structure ElfBytes extends ElfFile where
  byte : Nat → UInt8
  agrees : ∀ off n k b, (read off n)[k]? = some b → b = byte (off + k)

/-- `flags_to_perm`. -/
def flagsToPerm (arch : Arch) (flags : Nat) : Nat :=
  match arch with
  | .riscv =>
    (if flags &&& 1 ≠ 0 then PTE_X .riscv else 0) |||
      (if flags &&& 2 ≠ 0 then PTE_W .riscv ||| PTE_D .riscv else 0) |||
      (if flags &&& 4 ≠ 0 then PTE_R .riscv else 0)
  | .loongarch =>
    (if flags &&& 1 = 0 then PTE_NX else 0) |||
      (if flags &&& 2 ≠ 0 then PTE_W .loongarch ||| PTE_D .loongarch else 0) |||
      (if flags &&& 4 = 0 then PTE_NR else 0)

/-- The first page of a segment. -/
def firstPage (ph : ProgramHeader) : Nat := ph.vaddr / PGSIZE

/-- The page behind its last one. -/
def endPage (ph : ProgramHeader) : Nat := pageCeil (ph.vaddr + ph.memsz)

namespace ElfBytes

variable (f : ElfBytes)

/-- The field `flags` of a program header. -/
def flags (i : Nat) : Nat := ElfFile.field (f.read (f.phAt i) 56) 4 4

/-- The header describes a segment. -/
def Loads (i : Nat) : Prop := i < f.header.phnum ∧ (f.program i).type = ELF_PROG_LOAD

/-- The loop gets as far as to grow the address space for the segment. -/
structure Tries (i : Nat) : Prop where
  loads : f.Loads i
  complete : f.complete (f.phAt i) 56 = true
  sizes : (f.program i).filesz ≤ (f.program i).memsz
  fits : (f.program i).vaddr + (f.program i).memsz < 2 ^ 64

/-- The segments are as a linker lays them out. -/
structure WellFormed : Prop where
  sizes : ∀ i, f.Loads i → (f.program i).filesz ≤ (f.program i).memsz
  congruent : ∀ i, f.Loads i → (f.program i).off % PGSIZE = (f.program i).vaddr % PGSIZE
  ordered : ∀ i j, i < j → f.Loads i → f.Loads j →
    (f.program i).vaddr + (f.program i).memsz ≤ (f.program j).vaddr

end ElfBytes

/-! ## The loop -/

/-- A read to the address `a`, as the kernel uses it. -/
def store (a : Nat) (bytes : List UInt8) (s : Vmem) : Vmem :=
  s.withMem fun x => if a ≤ x ∧ x < a + bytes.length then bytes.getD (x - a) 0 else s.pmem.mem x

section Loop

variable (arch : Arch) (pid : Nat)

def walkaddr (va : Nat) (s : Vmem) : Option Nat :=
  if va ≥ MAXVA arch then none
  else
    let pte := Vmem.pteAt arch pid va s
    if pte.valid = false then some 0
    else if pte.flags &&& PTE_U arch = 0 then some 0
    else some pte.pa

variable (f : ElfBytes)

/-- `va + i` for the `k`th page; `i` is an `int`. -/
def loadAddr (ph : ProgramHeader) (k : Nat) : Nat :=
  add64 (pgRoundDown ph.vaddr) (if k * PGSIZE < 2 ^ 31 then k * PGSIZE else k * PGSIZE + (2 ^ 64 - 2 ^ 32))

/-- One round of `loadseg`. -/
def loadPage (ph : ProgramHeader) (k : Nat) (s : Vmem) : Option Vmem :=
  (walkaddr arch pid (loadAddr ph k) s).bind fun pa =>
    if pa = 0 then none
    else
      let (off, n) := ph.loadRead k
      if f.complete off n = false then none else some (store pa (f.read off n) s)

/-- The loop of `loadseg`, with `n` pages to go. -/
def loadPages (ph : ProgramHeader) : Nat → Nat → Vmem → Option Vmem
  | 0, _, s => some s
  | n + 1, k, s => (loadPage arch pid f ph k s).bind (loadPages ph n (k + 1))

/-- `loadseg`; with a size in the last page below 2^32, `i` comes round to zero and the loop does not end. -/
def loadseg (ph : ProgramHeader) (s : Vmem) : Option Vmem :=
  if 2 ^ 32 - PGSIZE < ph.loadSize then none else loadPages arch pid f ph ph.loadPages 0 s

/-- The growth for the `i`th header. -/
def grow (i : Nat) (s : Vmem) : Option (Int × Vmem) :=
  Vmem.uvmGrow arch pid (pgRoundDown (f.program i).vaddr) ((f.program i).vaddr + (f.program i).memsz)
    (flagsToPerm arch (f.flags i)) s

/-- The body of the loop over the program headers. -/
def loadHeader (i : Nat) (s : Vmem) : Option Vmem :=
  let ph := f.program i
  if f.complete (f.phAt i) 56 = false then none
  else if ph.type ≠ ELF_PROG_LOAD then some s
  else if ph.memsz < ph.filesz then none
  else if ph.vaddr + ph.memsz ≥ 2 ^ 64 then none
  -- the size that comes back is not looked at
  else (grow arch pid f i s).bind fun (_, s) => loadseg arch pid f ph s

/-- The loop over the first `n` headers. -/
def loadTo : Nat → Vmem → Option Vmem
  | 0, s => some s
  | n + 1, s => (loadTo n s).bind (loadHeader arch pid f n)

/-- How the loop ends for the caller of `exec`. -/
inductive LoadEnd where
  | loaded (s : Vmem)
  /-- `exec` returns -1 -/
  | fails
  | stops

/-- The loop; the label `bad` ends in a panic, so no failure is reported. -/
def load (s : Vmem) : LoadEnd :=
  match loadTo arch pid f f.header.phnum s with
  | some s => .loaded s
  | none => .stops

end Loop

/-! ## What the loop is for -/

/-- A byte of user memory, `none` where the user has none. -/
def userByte (arch : Arch) (pid a : Nat) (s : Vmem) : Option UInt8 :=
  (walkaddr arch pid a s).bind fun pa => if pa = 0 then none else some (s.pmem.mem (pa + a % PGSIZE))

/-- The `j`th byte of a segment: a byte of the file, or zero. -/
def wanted (f : ElfBytes) (ph : ProgramHeader) (j : Nat) : UInt8 :=
  if j < ph.filesz then f.byte (ph.off + j) else 0

/-- Each segment is in user memory, with its bytes of the file and its zeros. -/
def ImageRight (arch : Arch) (pid : Nat) (f : ElfBytes) (s : Vmem) : Prop :=
  ∀ i, f.Loads i → ∀ j < (f.program i).memsz,
    userByte arch pid ((f.program i).vaddr + j) s = some (wanted f (f.program i) j)

/-- The pages `[lo, hi)` have memory: each was mapped since the table was made, to a page of memory that no other of
them has. -/
structure HasMemory (pid lo hi : Nat) (s₀ s : Vmem) : Prop where
  mapped : ∀ v, lo ≤ v → v < hi → (s.leaf pid v).valid = true
  new : ∀ v, lo ≤ v → v < hi → (s₀.leaf pid v).valid = false
  backed : ∀ v, lo ≤ v → v < hi → ∃ q < s₀.pmem.totalPages, (s.leaf pid v).pa = s₀.pmem.pageAddr q
  own : ∀ v w, lo ≤ v → v < hi → lo ≤ w → w < hi → (s.leaf pid v).pa = (s.leaf pid w).pa → v = w

/-- Loading a program: if it comes to its end the image is right, and where the memory for a segment cannot be had a
failure is reported. -/
structure LoadRight (arch : Arch) (pid : Nat) (f : ElfBytes) (s : Vmem) : Prop where
  image : ∀ s', load arch pid f s = .loaded s' → ImageRight arch pid f s'
  memory : ∀ i t, loadTo arch pid f i s = some t → f.Tries i →
    (¬∃ r u, grow arch pid f i t = some (r, u) ∧
      HasMemory pid (firstPage (f.program i)) (endPage (f.program i)) s u) →
    load arch pid f s = .fails

/-! ## When it does -/

/-- The `i` with which `loadseg` reaches the address `a`, as a `uint`. -/
def loadIndex (ph : ProgramHeader) (a : Nat) : Option Nat :=
  let d : Int := (a : Int) - pgRoundDown ph.vaddr
  if -2 ^ 31 ≤ d ∧ d < 2 ^ 31 ∧ (d % 2 ^ 32).toNat < ph.loadSize then some (d % 2 ^ 32).toNat else none

/-- The byte that `loadseg` puts at an address: that of the file at the same distance from the start of the first
page, at a 32-bit offset. -/
def brings (f : ElfBytes) (ph : ProgramHeader) (a : Nat) : Option UInt8 :=
  (loadIndex ph a).map fun i => f.byte ((ph.loadRead (i / PGSIZE)).1 + i % PGSIZE)

/-- What the last of the first `n` headers that loads an address brings there, zero if none does. -/
def lastByte (f : ElfBytes) (a : Nat) : Nat → UInt8
  | 0 => 0
  | n + 1 =>
    if (f.program n).type = ELF_PROG_LOAD then (brings f (f.program n) a).getD (lastByte f a n) else lastByte f a n

/-- When loading a program goes right. -/
structure LoadMeets (arch : Arch) (pid : Nat) (f : ElfBytes) (s : Vmem) : Prop where
  /-- no page of a segment was mapped from the start; there is memory for its pages and none of them belongs to an
  earlier segment, or it ends in the first page, which belongs to one -/
  memory : ∀ i t, loadTo arch pid f i s = some t → f.Tries i → firstPage (f.program i) < endPage (f.program i) →
    s.Vacant pid (firstPage (f.program i)) (endPage (f.program i)) ∧
      (t.Vacant pid (firstPage (f.program i)) (endPage (f.program i)) ∧
          Affords arch pid (firstPage (f.program i)) (endPage (f.program i)) t ∨
        (t.leaf pid (firstPage (f.program i))).valid = true ∧ endPage (f.program i) = firstPage (f.program i) + 1)
  /-- the last segment that is loaded over an address brings the right byte -/
  bytes : (∃ s', load arch pid f s = .loaded s') → ∀ i, f.Loads i → ∀ j < (f.program i).memsz,
    lastByte f ((f.program i).vaddr + j) f.header.phnum = wanted f (f.program i) j

end SC7.Load
