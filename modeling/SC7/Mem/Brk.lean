-- SUMMARY: `sys_brk` (`syscall.c`) over the address space of a process: growth, shrinking and what a caller may expect of them.
import SC7.Mem.SpaceFault
import SC7.Mem.Munmap

/-!
# The program break

`sys_brk` turns the requested break into an increment for `growproc`, which is an `int`. A growth maps at
most sixteen pages at once (`uvmalloc`) and leaves the rest to the fault handler, a shrink unmaps the pages
above the new break (`uvmdealloc`). The sign of the new size, again as an `int`, is looked at last.

As for address spaces in general, `pmem_alloc_pages` answers with `supply`, and a page for a table that
cannot be had is a panic. `vmem_lock` is held while `uvmalloc` runs, so that its clean-up after a page that
cannot be mapped panics once it comes to unmap something.
-/

namespace SC7

open Function (update)

def PTE_RW : Arch → Nat
  | .riscv => PTE_W .riscv ||| PTE_R .riscv
  | .loongarch => PTE_W .loongarch ||| PTE_R .loongarch ||| PTE_P

namespace Space

/-! ## The routines -/

section Routines

/-- One VMA in the loop of `free_vma`, with what is left of it. -/
def freeVmaPart (start end_ : Nat) (v : Vma) (s : Space) : Option (List Vma × Space) :=
  if v.addr ≥ start ∧ v.end_ ≤ end_ then some ([], s)
  else
    (if v.addr < start then s.allocNode else some s).bind fun s =>
      (if v.end_ > end_ then s.allocNode else some s).map fun s =>
        ((if v.addr < start then [v.front start] else []) ++ (if v.end_ > end_ then [v.back end_] else []), s)

/-- The loop of `free_vma`. -/
def freeVmaLoop (start end_ : Nat) : List Vma → Space → Option (List Vma × Space)
  | [], s => some ([], s)
  | v :: vs, s =>
    if v.end_ > start ∧ v.addr < end_ then
      (freeVmaPart start end_ v s).bind fun (l, s) =>
        (freeVmaLoop start end_ vs s).map fun (l', s) => (l ++ l', s)
    else (freeVmaLoop start end_ vs s).map fun (l, s) => (v :: l, s)

/-- `free_vma(myproc(), start, end)`. -/
def freeVma (start end_ : Nat) (s : Space) : Option Space :=
  (freeVmaLoop start end_ s.vmas s).map fun (vmas, s) => s.setVmas vmas

variable (arch : Arch)

def uvmdealloc (oldsz newsz : Nat) (s : Space) : Option (Nat × Space) :=
  if newsz ≥ oldsz then some (oldsz, s)
  else if pgRoundUp newsz < pgRoundUp oldsz then
    let npages := toInt32 ((pgRoundUp oldsz - pgRoundUp newsz) / PGSIZE)
    (freeVma newsz oldsz s).bind fun s =>
      (vmunmap arch (pgRoundUp newsz) (toU64 npages) true s).map fun s => (newsz, s)
  else some (newsz, s)

/-- The second attempt of `uvmalloc`, page by page. -/
def uvmallocLoop (oldsz newsz perm : Nat) : Nat → Nat → Space → Option (Nat × Space)
  | 0, a, s => if a < newsz then none else some (newsz, s)
  | n + 1, a, s =>
    if a < newsz then
      let (mem, s) := s.alloc
      if mem = NULL then (uvmdealloc arch a oldsz s).map fun (_, s) => (0, s)
      else
        (s.mappages arch a mem PGSIZE (Vmem.userPerm arch perm)).bind fun (r, s) =>
          if r = 1 then uvmallocLoop oldsz newsz perm n (add64 a PGSIZE) s
          else if oldsz < a ∧ pgRoundUp oldsz < pgRoundUp a then none
          else (uvmdealloc arch a oldsz (s.free mem)).map fun (_, s) => (0, s)
    else some (newsz, s)

/-- `uvmalloc`; the result is an unsigned value also where it stands for `-EINVAL`. -/
def uvmalloc (oldsz newsz perm : Nat) (s : Space) : Option (Nat × Space) :=
  if newsz < oldsz then some (oldsz, s)
  else
    let oldsz := pgRoundUp oldsz
    let npages := sub64 (pgRoundUp newsz) oldsz / PGSIZE
    if npages > 0 then
      let (mem, s) := s.alloc
      if mem ≠ NULL then
        (s.mappages arch oldsz mem (npages * PGSIZE) (Vmem.userPerm arch perm)).map fun (r, s) =>
          if r = 1 then (newsz, s) else (toU64 (-EINVAL), s.free mem)
      else uvmallocLoop arch oldsz newsz perm (Vmem.pageCeil newsz) oldsz s
    else uvmallocLoop arch oldsz newsz perm (Vmem.pageCeil newsz) oldsz s

/-- `growproc` up to the test of the sign: the new size, or an error. -/
def growSize (n : Int) (s : Space) : Option (Except Int Nat × Space) :=
  if n > 0 then
    if add64 s.sz (toU64 n) ≥ MAXVA arch - PGSIZE then some (.error (-1), s)
    else if n ≥ 0x10000 then
      (uvmalloc arch s.sz (add64 s.sz 0x10000) (PTE_RW arch) s).map fun (sz, s) =>
        (if sz = 0 then .error (-1) else .ok sz, s)
    else
      (uvmalloc arch s.sz (add64 s.sz (toU64 n)) (PTE_RW arch) s).map fun (sz, s) =>
        (if sz = 0 then .error (-ENOMEM) else .ok sz, s)
  else if n < 0 then
    (uvmdealloc arch s.sz (add64 s.sz (toU64 n)) s).map fun (sz, s) => (.ok sz, s)
  else some (.ok s.sz, s)

/-- `growproc(n)`. -/
def growproc (n : Int) (s : Space) : Option (Int × Space) := (growSize arch n s).map fun
    | (.error e, s) => (e, s)
    | (.ok sz, s) => if toInt32 sz < 0 then (-EINVAL, s) else (0, { s with sz := add64 s.sz (toU64 n) })

/-- The result `-1` of a system call. -/
def FAILED : Nat := 2 ^ 64 - 1

def sysBrk (n : Nat) (s : Space) : Option (Nat × Space) :=
  if n = 0 then some (s.sz, s)
  else (growproc arch (toInt32 (sub64 n s.sz)) s).map fun (r, s) => (if r < 0 then FAILED else n, s)

end Routines

/-! ## Access by user code -/

/-- What the processor lets user code do with a page. A RISC-V page that can be written must be readable
as well; LoongArch takes the dirty bit for the right to write, and privilege level 3 has two bits. -/
def permits (arch : Arch) (access : Access) (pte : Pte) : Bool :=
  pte.valid && match arch, access with
    | .riscv, .load => Bits.has pte.flags (PTE_U .riscv) && Bits.has pte.flags (PTE_R .riscv)
    | .riscv, .store =>
      Bits.has pte.flags (PTE_U .riscv) && Bits.has pte.flags (PTE_R .riscv) &&
        Bits.has pte.flags (PTE_W .riscv)
    | .riscv, .fetch => Bits.has pte.flags (PTE_U .riscv) && Bits.has pte.flags (PTE_X .riscv)
    | .loongarch, .load =>
      pte.flags &&& PTE_U .loongarch == PTE_U .loongarch && !Bits.has pte.flags PTE_NR
    | .loongarch, .store =>
      pte.flags &&& PTE_U .loongarch == PTE_U .loongarch && Bits.has pte.flags (PTE_D .loongarch)
    | .loongarch, .fetch =>
      pte.flags &&& PTE_U .loongarch == PTE_U .loongarch && !Bits.has pte.flags PTE_NX

/-- The access succeeds at once, or after a fault that the kernel answers by letting it be repeated. -/
def CanAccess (arch : Arch) (env : FileEnv) (access : Access) (x : Nat) (s : Space) : Prop :=
  permits arch access (s.pte x) = true ∨
    ∃ t, usertrapFault arch env access x s = some (.resumed, t) ∧ permits arch access (t.pte x) = true

/-- The fault is answered with `SIGSEGV`, and nothing is mapped. -/
def Segfaults (arch : Arch) (env : FileEnv) (x : Nat) (s : Space) : Prop :=
  ∃ t, pagefaultHandler arch env x s = some (some .SIGSEGV, t) ∧ t.leaf = s.leaf

/-- The same pages are mapped in the same way. -/
def SameTable (leaf leaf' : Nat → Pte) : Prop :=
  ∀ v, (leaf v).valid = true ∨ (leaf' v).valid = true → leaf' v = leaf v

/-! ## What a call is to do -/

/-- The break that a call asks for: 0 asks for the one there is. -/
def brkTarget (n : Nat) (s : Space) : Nat := if n = 0 then s.sz else n

/-- A call that returned `ret` in the state `s'` did what it was to do. -/
structure BrkDone (arch : Arch) (n : Nat) (s : Space) (ret : Nat) (s' : Space) : Prop where
  /-- the increment is the true difference -/
  exact : n ≠ 0 → toInt32 (sub64 n s.sz) = (n : Int) - s.sz
  /-- the size whose sign is looked at is an `int` -/
  sign : n ≠ 0 → ∀ sz t, growSize arch (toInt32 (sub64 n s.sz)) s = some (.ok sz, t) → toInt32 sz = sz
  size : ret ≠ FAILED → s'.sz = brkTarget n s
  /-- what was added can be read and written -/
  added : ret ≠ FAILED → ∀ x, s.sz ≤ x → x < brkTarget n s → ∀ env,
    CanAccess arch env .load x s' ∧ CanAccess arch env .store x s'
  /-- what was taken away is unmapped -/
  removed : ret ≠ FAILED → ∀ x, brkTarget n s ≤ x → x < s.sz → (s'.pte x).valid = false
  /-- a failed call changes nothing -/
  failed : ret = FAILED → s'.sz = s.sz ∧ SameTable s.leaf s'.leaf
  /-- above the break only the VMAs can be reached -/
  above : ∀ x, s'.sz ≤ x → ¬Vma.Covers s'.vmas x → ∀ env, Segfaults arch env x s'

/-- The call returns and did what it was to do. -/
def BrkCorrect (arch : Arch) (n : Nat) (s : Space) : Prop :=
  ∃ ret s', sysBrk arch n s = some (ret, s') ∧ BrkDone arch n s ret s'

/-! ## When it does -/

/-- No page of `[lo, hi)` is mapped. -/
def Vacant (s : Space) (lo hi : Nat) : Prop := ∀ v, lo ≤ v → v < hi → (s.leaf v).valid = false

/-- The end of the part that is mapped at once. -/
def growEnd (s : Space) (n : Nat) : Nat := if n - s.sz ≥ 0x10000 then s.sz + 0x10000 else n

/-- The first page of that part, and the first one behind it. -/
def growFirst (s : Space) : Nat := Vmem.pageCeil s.sz

def growLast (s : Space) (n : Nat) : Nat := Vmem.pageCeil (s.growEnd n)

/-- The pages `[lo, hi)` are vacant, and there is memory for them: one block, or the pages one by one. -/
structure Fillable (s : Space) (lo hi : Nat) : Prop where
  vacant : s.Vacant lo hi
  supplied : hi ≤ lo ∨ s.supply 0 ≠ NULL ∨ ∀ j < hi - lo, s.supply (j + 1) ≠ NULL

/-- The number of answers of the allocator that it takes to map `[lo, hi)`. -/
def answers (s : Space) (lo hi : Nat) : Nat :=
  if hi ≤ lo then 0 else if s.supply 0 ≠ NULL then 1 else hi - lo + 1

/-- There are pages to map and no block for them, and the first one is mapped already or cannot be had. -/
def Refuses (s : Space) (lo hi : Nat) : Prop :=
  lo < hi ∧ s.supply 0 = NULL ∧ ((s.leaf lo).valid = true ∨ s.supply 1 = NULL)

/-- A page that the call leaves to the fault handler serves a load and a store, when `k` answers of the
allocator are used up. The handler of LoongArch does not return from a load of a page that is mapped. -/
def Serves (s : Space) (arch : Arch) (k : Nat) (pte : Pte) : Prop :=
  (permits arch .load pte = true ∧ permits arch .store pte = true) ∨
    s.supply k ≠ NULL ∧ (arch = .loongarch → pte.valid = true → permits arch .load pte = true)

/-- The range between the old break and the new one meets a VMA. -/
def AreaBetween (s : Space) (n : Nat) : Prop := ∃ v ∈ s.vmas, v.end_ > min s.sz n ∧ v.addr < max s.sz n

/-- The increment fits in an `int`. -/
def BrkFits (n : Nat) (s : Space) : Prop := -2 ^ 31 ≤ (n : Int) - s.sz ∧ (n : Int) - s.sz < 2 ^ 31

/-- The calls that do what they are to do. In each the break at the end lies in a VMA. -/
inductive BrkMeets (arch : Arch) (n : Nat) (s : Space) : Prop
  /-- the break is asked for or set to what it is -/
  | stays (hn : n = 0 ∨ n = s.sz ∧ s.sz < 2 ^ 31) (harea : Vma.Covers s.vmas s.sz)
  /-- the new break is too high -/
  | tooHigh (hfits : BrkFits n s) (hn : s.sz < n) (hmax : MAXVA arch - PGSIZE ≤ n)
      (harea : Vma.Covers s.vmas s.sz)
  /-- the growth fails before a page is mapped -/
  | refused (hfits : BrkFits n s) (hn : s.sz < n) (hmax : n < MAXVA arch - PGSIZE)
      (hrefuses : s.Refuses s.growFirst (s.growLast n)) (harea : Vma.Covers s.vmas s.sz)
  /-- the growth succeeds -/
  | grows (hfits : BrkFits n s) (hn : s.sz < n) (hmax : n < MAXVA arch - PGSIZE) (hclear : ¬s.AreaBetween n)
      (hfills : s.Fillable s.growFirst (s.growLast n)) (hsize : s.growEnd n < 2 ^ 31)
      (hserves : ∀ x, s.sz ≤ x → x < n → ¬(s.growFirst ≤ x / PGSIZE ∧ x / PGSIZE < s.growLast n) →
        s.Serves arch (s.answers s.growFirst (s.growLast n)) (s.pte x))
      (harea : Vma.Covers s.vmas n)
  /-- the shrink does not leave the page of the old break, which is not mapped -/
  | shrinks (hfits : BrkFits n s) (hn : n < s.sz) (hpos : n ≠ 0) (hpage : pgRoundUp s.sz ≤ pgRoundUp n)
      (hsize : n < 2 ^ 31) (hvacant : ∀ x, n ≤ x → x < s.sz → (s.pte x).valid = false)
      (harea : Vma.Covers s.vmas n)

end Space

end SC7
