-- SUMMARY: The address space of a process: `mmap`, `mprotect`, `fork` and page faults, down to the leaf entries.
import SC7.Base.Bits
import SC7.Mem.Vmem

/-!
# Address spaces

What user code can make the kernel do to an address space: `mmap` (`vma.c`), `sys_mprotect`
(`syscall.c`), `fork` (`process.c`) and page faults (`hsai_trap.c`). The VMA list of a process is a
list of `struct vma` in the order of the links (`Vma` treats the links themselves), and its page
table is the table of its leaf entries. The tables above them are left out: a page for one that
cannot be had is a panic.

What the rest of the kernel answers is left open. `pmem_alloc_pages` answers with `supply`, in this
order, where `NULL` says that there is no memory; the pages it hands out are zeroed. The file system
answers with a `FileEnv`. A page given back is recorded in `freed`. A panic and a failed `assert`
are `none`.
-/

namespace SC7

open Function (update)

abbrev PROT_NONE : Int := 0
abbrev PROT_READ : Nat := 1
abbrev PROT_WRITE : Nat := 2
abbrev PROT_EXEC : Nat := 4

abbrev MAP_SHARED : Nat := 0x01
abbrev MAP_PRIVATE : Nat := 0x02
abbrev MAP_SHARED_VALIDATE : Nat := 0x03
abbrev MAP_FIXED : Nat := 0x10
abbrev MAP_ANONYMOUS : Nat := 0x20

abbrev O_WRONLY : Nat := 1
abbrev O_RDWR : Nat := 2

abbrev ENOMEM : Int := 12
abbrev EACCES : Int := 13
abbrev EBADF : Int := 9

def PTE_R : Arch → Nat
  | .riscv => 1 <<< 1
  | .loongarch => 0

def PTE_X : Arch → Nat
  | .riscv => 1 <<< 3
  | .loongarch => 0

/-! The bits that only LoongArch has. -/

def PTE_MAT : Nat := 1 <<< 4
def PTE_P : Nat := 1 <<< 7
def PTE_NR : Nat := 1 <<< 61
def PTE_NX : Nat := 1 <<< 62

def PTE_TRAMPOLINE : Arch → Nat
  | .riscv => PTE_R .riscv ||| PTE_X .riscv
  | .loongarch => PTE_MAT ||| PTE_D .loongarch ||| PTE_P

def PTE_TRAPFRAME : Arch → Nat
  | .riscv => PTE_R .riscv ||| PTE_W .riscv
  | .loongarch => PTE_NX ||| PTE_P ||| PTE_W .loongarch ||| PTE_MAT ||| PTE_D .loongarch

def TRAMPOLINE (arch : Arch) : Nat := MAXVA arch - PGSIZE
def TRAPFRAME (arch : Arch) : Nat := TRAMPOLINE arch - PGSIZE
def SIGTRAMPOLINE (arch : Arch) : Nat := MAXVA arch - 0x10000000

/-- `(z & m) != 0` for an `int`. -/
def hasBits (z : Int) (m : Nat) : Bool := Bits.has (toU64 z) m

/-- The conversion of a word to an `int` that holds flags. Bit 31 is in no flag. -/
def flagsInt (perm : Nat) : Nat := perm % 2 ^ 32

def getMmapperms (arch : Arch) (prot : Int) : Nat :=
  match arch with
  | .riscv =>
    if prot = PROT_NONE then 0
    else
      let perm := PTE_U .riscv
      let perm := if hasBits prot PROT_READ then perm ||| PTE_R .riscv else perm
      let perm := if hasBits prot PROT_WRITE then perm ||| PTE_W .riscv else perm
      if hasBits prot PROT_EXEC then perm ||| PTE_X .riscv else perm
  | .loongarch =>
    let perm := PTE_U .loongarch ||| PTE_MAT ||| PTE_NR ||| PTE_NX
    if prot = PROT_NONE then perm
    else
      let perm := if hasBits prot PROT_READ then Bits.clear perm PTE_NR else perm
      let perm :=
        if hasBits prot PROT_WRITE then perm ||| (PTE_W .loongarch ||| PTE_D .loongarch) else perm
      if hasBits prot PROT_EXEC then Bits.clear (perm ||| (PTE_MAT ||| PTE_P)) PTE_NX else perm

/-- The fields of `struct file` that decide about a mapping. -/
structure File where
  fFlags : Nat
  readable : Bool
  deriving DecidableEq, Repr

/-- What the file system answers during one call: the result of `vfs_ext4_fstat` and the size it
reports, the result of `vfs_ext4_lseek`, and the result of a read to a user address. -/
structure FileEnv where
  fstat : Int
  stSize : Nat
  lseek : Int
  read : Nat → Int

/-- The fields of `struct proc` that make up its address space, and its open files. -/
structure Mm where
  vmas : List Vma
  leaf : Nat → Pte
  sz : Nat
  virtAddr : Nat
  ofile : Int → Option File

/-- What all address spaces share. -/
structure Kern where
  shm : Nat → ShmidKernel
  mapAddr : Nat
  supply : Nat → Nat
  freed : List Nat
  memStart : Nat
  memEnd : Nat

/-- The address space of the running process. -/
structure Space extends Mm, Kern

/-! ## Leaf entries -/

namespace Leaf

variable (arch : Arch)

/-- The loop of `mappages`. -/
def mappagesLoop (perm end_ : Nat) : Nat → Nat → Nat → (Nat → Pte) → Option (Int × (Nat → Pte))
  | 0, _, _, _ => none
  | n + 1, current, pa, leaf =>
    if current ≥ MAXVA arch then none
    else if (leaf (current / PGSIZE)).valid then some (-EINVAL, leaf)
    else
      let leaf := update leaf (current / PGSIZE) ⟨pa, perm ||| PTE_V⟩
      if current = end_ then some (1, leaf)
      else mappagesLoop perm end_ n (add64 current PGSIZE) (add64 pa PGSIZE) leaf

def mappages (va pa len perm : Nat) (leaf : Nat → Pte) : Option (Int × (Nat → Pte)) :=
  if va ≥ MAXVA arch ∨ pa % PGSIZE ≠ 0 then none
  else
    mappagesLoop arch perm (pgRoundDown (sub64 (add64 va len) 1)) (len / PGSIZE + 1) (pgRoundDown va) pa leaf

end Leaf

namespace Space

/-! ## Primitive operations -/

section Primitive

variable (arch : Arch) (s : Space)

/-- `pmem_alloc_pages`. -/
def alloc : Nat × Space := (s.supply 0, { s with supply := fun n => s.supply (n + 1) })

/-- `pmem_free_pages` of a page of user memory. -/
def free (pa : Nat) : Space := { s with freed := pa :: s.freed }

/-- A page for a VMA; every caller panics if there is none. -/
def allocNode : Option Space :=
  if s.alloc.1 = NULL then none else some s.alloc.2

def setLeaf (vpn : Nat) (pte : Pte) : Space := { s with leaf := update s.leaf vpn pte }

def setVmas (vmas : List Vma) : Space := { s with vmas }

def setShm (shp : Nat) (seg : ShmidKernel) : Space := { s with shm := update s.shm shp seg }

/-- `*walk(p->pagetable, va, 0)`. -/
def pte (va : Nat) : Pte := s.leaf (va / PGSIZE)

def mappages (va pa len perm : Nat) : Option (Int × Space) :=
  (Leaf.mappages arch va pa len perm s.leaf).map fun (r, leaf) => (r, { s with leaf })

/-- `experm`: the physical address, `0` if the page is not a mapped user page. -/
def experm (va perm : Nat) : Nat × Space :=
  let pte := s.pte va
  if va ≥ MAXVA arch then (0, s)
  else if pte.valid = false then (0, s)
  else if Bits.has pte.flags (PTE_U arch) = false then (0, s)
  else (pte.pa, s.setLeaf (va / PGSIZE) ⟨pte.pa, pte.flags ||| perm⟩)

/-- `walkaddr`. -/
def walkaddr (va : Nat) : Option Nat :=
  if va > MAXVA arch then none
  else if (s.pte va).valid ∧ Bits.has (s.pte va).flags (PTE_U arch) then some (s.pte va).pa
  else some 0

end Primitive

/-! ## Unmapping -/

section Unmap

variable (arch : Arch)

/-- One round of `vmunmap`. -/
def unmapPage (doFree : Bool) (a : Nat) (s : Space) : Option Space :=
  if a ≥ MAXVA arch then none
  else
    let pte := s.pte a
    if pte.valid = false then some s
    else if PTE_FLAGS arch pte = PTE_V then none
    else
      let s :=
        if doFree ∧ pte.pa ≠ 0 ∧ s.memStart ≤ pte.pa ∧ pte.pa < s.memEnd then s.free pte.pa else s
      some (s.setLeaf (a / PGSIZE) Pte.zero)

def vmunmapLoop (doFree : Bool) (end_ : Nat) : Nat → Nat → Space → Option Space
  | 0, a, s => if a < end_ then none else some s
  | n + 1, a, s =>
    if a < end_ then
      (unmapPage arch doFree a s).bind (vmunmapLoop doFree end_ n (add64 a PGSIZE))
    else some s

def vmunmap (va npages : Nat) (doFree : Bool) (s : Space) : Option Space :=
  if va % PGSIZE ≠ 0 then none
  else vmunmapLoop arch doFree (add64 va (npages * PGSIZE % 2 ^ 64)) npages va s

/-- One VMA in the loop of `munmap`, with what is left of it. The attach list of a shared segment
is not part of this state. -/
def munmapVma (start end_ : Nat) (v : Vma) (s : Space) : Option (List Vma × Space) :=
  if v.end_ > start ∧ v.addr ≤ end_ then
    if v.addr ≥ start ∧ v.end_ ≤ end_ then
      if v.refCount > 1 then some ([{ v with refCount := v.refCount - 1 }], s)
      else
        let doFree := ¬(v.type = .SHARE ∧ v.shmKernel ≠ NULL)
        (vmunmap arch v.addr (sub64 v.end_ v.addr / PGSIZE) doFree s).map fun s => ([], s)
    else
      let shared := v.type = .SHARE ∧ v.shmKernel ≠ NULL ∧
        ¬(s.shm v.shmKernel).isDeleted ∧ (s.shm v.shmKernel).shmPages ≠ none
      let unmapStart := if v.addr > start then v.addr else start
      let unmapEnd := if v.end_ < end_ then v.end_ else end_
      (if v.addr < start then s.allocNode else some s).bind fun s =>
        (if v.end_ > end_ then s.allocNode else some s).bind fun s =>
          (if unmapEnd > unmapStart then
            vmunmap arch unmapStart ((unmapEnd - unmapStart) / PGSIZE) (¬shared) s
          else some s).map fun s =>
            ((if v.addr < start then [v.front start] else []) ++
              (if v.end_ > end_ then [v.back end_] else []), s)
  else some ([v], s)

/-- The loop of `munmap`: whether a VMA was found, and the new list. -/
def munmapLoop (start end_ : Nat) : List Vma → Space → Option (Bool × List Vma × Space)
  | [], s => some (false, [], s)
  | v :: vs, s =>
    (munmapVma arch start end_ v s).bind fun (l, s) =>
      (munmapLoop start end_ vs s).map fun (found, l', s) =>
        (decide (v.end_ > start ∧ v.addr ≤ end_) || found, l ++ l', s)

def munmap (start : Nat) (len : Int) (s : Space) : Option (Int × Space) :=
  let end_ := pgRoundDown (toU64 (start + len))
  let start := pgRoundDown start
  if len ≤ 0 then some (-1, s)
  else
    (munmapLoop arch start end_ s.vmas s).map fun (found, vmas, s) =>
      (if found then 0 else -1, s.setVmas vmas)

end Unmap

/-! ## New areas -/

section Alloc

variable (arch : Arch)

/-- A VMA in its list. -/
structure Focus where
  before : List Vma
  vma : Vma
  after : List Vma

/-- The list with `v` in the place of the VMA. -/
def Focus.put (z : Focus) (v : Vma) : List Vma := z.before ++ v :: z.after

/-- The second attempt of `uvmalloc1`, page by page. A page that cannot be had or mapped is a
panic. -/
def uvmalloc1Loop (end_ perm : Nat) : Nat → Nat → Space → Option Space
  | 0, a, s => if a < end_ then none else some s
  | n + 1, a, s =>
    if a < end_ then
      s.allocNode.bind fun s' =>
        (s'.mappages arch a s.alloc.1 PGSIZE (Vmem.userPerm arch perm)).bind fun (r, s) =>
          if r = 1 then uvmalloc1Loop end_ perm n (add64 a PGSIZE) s else none
    else some s

def uvmalloc1 (start end_ perm : Nat) (s : Space) : Option Space :=
  if start ≥ end_ then none
  else
    let npages := sub64 (pgRoundUp end_) start / PGSIZE
    let (mem, s) := s.alloc
    if mem ≠ NULL then
      (s.mappages arch start mem (npages * PGSIZE) (Vmem.userPerm arch perm)).bind fun (r, s) =>
        if r = 1 then some s
        else uvmalloc1Loop arch end_ perm (Vmem.pageCeil end_) start (s.free mem)
    else uvmalloc1Loop arch end_ perm (Vmem.pageCeil end_) start s

/-- The search of `alloc_vma`: the place for a new VMA (`inl`), or the VMA that already covers the
range (`inr`). A partial overlap is a panic. -/
def findSlot (start end_ : Nat) : List Vma → List Vma → Option ((List Vma × List Vma) ⊕ Focus)
  | before, [] => some (.inl (before, []))
  | before, v :: after =>
    if end_ ≤ v.addr then some (.inl (before, v :: after))
    else if start ≥ v.end_ then findSlot start end_ (before ++ [v]) after
    else if start ≥ v.addr ∧ end_ ≤ v.end_ then some (.inr ⟨before, v, after⟩)
    else none

/-- `alloc_vma(p, MMAP, addr, sz, perm, alloc, 0)`. -/
def allocVma (addr : Nat) (sz : Int) (perm : Nat) (alloc : Bool) (s : Space) :
    Option (Focus × Space) :=
  let start := pgRoundUp addr
  let end_ := pgRoundUp (toU64 (addr + sz))
  match findSlot start end_ [] s.vmas with
  | none => none
  | some (.inr z) => some (z, s)
  | some (.inl (before, after)) =>
    s.allocNode.bind fun s =>
      (if sz ≠ 0 ∧ alloc then uvmalloc1 arch start end_ perm s else some s).map fun s =>
        (⟨before, VmaMem.initVma Vma.zero .MMAP start end_ sz perm, after⟩, s)

/-- `find_mmap_vma(p->vma)->addr`, or the address in the anchor of the list, which is zeroed. -/
def mmapVmaAddr (vmas : List Vma) : Nat :=
  match vmas.find? fun v => (v.type == .MMAP || v.type == .SHARE) && v.addr < USER_MMAP_START with
  | some v => v.addr
  | none => 0

/-- The start address that `alloc_mmap_vma` chooses when the caller names none. -/
def chooseStart (len : Int) (s : Space) : Nat × Space :=
  let heapEnd := pgRoundUp s.sz
  let addr := mmapVmaAddr s.vmas
  if toU64 len < addr ∧ sub64 addr (toU64 len) > heapEnd then
    (pgRoundDown (sub64 addr (toU64 len)), s)
  else
    let start := s.mapAddr
    let s := { s with mapAddr := pgRoundUp (add64 s.mapAddr (toU64 len)) }
    if start < heapEnd then (heapEnd, { s with sz := pgRoundUp (add64 s.sz (toU64 len)) })
    else (start, s)

/-- Whether `alloc_mmap_vma` lets `alloc_vma` map the range. -/
def isalloc (flags perm : Nat) (fd : Int) : Bool :=
  (Bits.has flags VmaMem.MAP_ALLOC || (fd != -1 && perm != 0)) && !Bits.has flags 0x01

def allocMmapVma (flags start : Nat) (len : Int) (perm : Nat) (fd : Int) (offset : Nat) (s : Space) :
    Option (Focus × Space) :=
  let (start, s) := if start = 0 then s.chooseStart len else (start, s)
  (allocVma arch start len perm (isalloc flags perm fd) s).map fun (z, s) =>
    ({ z with vma := { z.vma with fd := fd, fOff := offset, origProt := 0 } }, s)

end Alloc

/-! ## `mmap` -/

section Mmap

variable (arch : Arch)

/-- The number of rounds of `for (i = 0; i < len; i += PGSIZE)`. -/
def rounds (len : Int) : Nat := Vmem.pageCeil (toU64 len)

/-- The flags of a private page that waits for its first write. -/
def cowFlags (flags : Nat) : Nat :=
  match arch with
  | .riscv => Bits.clear flags (PTE_W .riscv)
  | .loongarch => Bits.clear (Bits.clear flags (PTE_W .loongarch)) (PTE_D .loongarch)

/-- `vma->flags |= MAP_PRIVATE`. -/
def setPrivate (v : Vma) : Vma := { v with flags := toInt32 (toU64 v.flags ||| MAP_PRIVATE) }

/-- The end of a round of `mmap` for a private mapping: with `cow`, the page loses its write
permission until it is written to. -/
def markCow (cow : Bool) (va : Nat) (v : Vma) (s : Space) : Vma × Space :=
  if cow ∧ (s.pte va).valid then
    (setPrivate v, s.setLeaf (va / PGSIZE) ⟨(s.pte va).pa, cowFlags arch (s.pte va).flags⟩)
  else (v, s)

/-- The overlapping VMAs of a `MAP_FIXED` mapping. The loop of `mmap` saves the next VMA before it
calls `munmap`, so it goes over the VMAs that were there at its start. -/
def unmapFixed (start end_ : Nat) : List Vma → Space → Option Space
  | [], s => some s
  | v :: vs, s =>
    if v.end_ > start ∧ v.addr < end_ then
      let overlapStart := if v.addr > start then v.addr else start
      let overlapEnd := if v.end_ < end_ then v.end_ else end_
      if overlapEnd > overlapStart then
        (munmap arch overlapStart (toInt32 (overlapEnd - overlapStart)) s).bind fun (_, s) =>
          unmapFixed start end_ vs s
      else unmapFixed start end_ vs s
    else unmapFixed start end_ vs s

/-- `newseg(0, IPC_CREAT | 0666, size)`. It reports a failure as `-ENOMEM` or `-ENOSPC`, `mmap` only
looks for `-1`, and takes the error as an index; there is no state after that. -/
def newseg (size : Int) (s : Space) : Option (Nat × Space) :=
  let numPages := (size + PGSIZE - 1) / PGSIZE
  s.allocNode.bind fun s' => s'.allocNode.map fun s'' =>
    (s.alloc.1, s''.setShm s.alloc.1
      { shmid := s.alloc.1, size := toU64 size, attachCount := 0, isDeleted := false,
        shmPages := some (List.replicate numPages.toNat 0), attaches := NULL })

/-- `shp->shm_pages[idx] = pa`. -/
def setShmPage (shp idx pa : Nat) (s : Space) : Space :=
  let seg := s.shm shp
  s.setShm shp { seg with shmPages := seg.shmPages.map (·.set idx pa) }

/-- The pages of a `MAP_SHARED` mapping; `false` if the loop was left early. -/
def sharedLoop (perm shp : Nat) : Nat → Nat → Nat → Space → Option (Bool × Space)
  | 0, _, _, s => some (true, s)
  | n + 1, idx, va, s =>
    let (pa, s) := s.alloc
    if pa = NULL then some (false, s)
    else
      (s.mappages arch va pa PGSIZE (perm ||| PTE_U arch ||| PTE_R arch)).bind fun (r, s) =>
        if r < 0 then some (false, s.free pa)
        else sharedLoop perm shp n (idx + 1) (add64 va PGSIZE) (setShmPage shp idx pa s)

/-- The file contents of a `MAP_SHARED` mapping. -/
def sharedRead (env : FileEnv) (perm : Nat) : Nat → Nat → Space → Bool × Space
  | 0, _, s => (true, s)
  | n + 1, va, s =>
    let s := (s.experm arch va perm).2
    if env.read va < 0 then (false, s) else sharedRead env perm n (add64 va PGSIZE) s

/-- `mmap` with `MAP_SHARED`, after the VMA `v` and its segment `shp` are there. `f` is the file, if
there is one, and `fsize` its size as an `int`. -/
def sharedMap (env : FileEnv) (start : Nat) (len : Int) (perm : Nat) (f : Option File) (fsize : Int)
    (shp : Nat) (z : Focus) (v : Vma) (s : Space) : Option (Int × Space) :=
  if f.isSome ∧ env.fstat < 0 then some (env.fstat, s.setVmas (z.put v))
  else
    let len := if f.isSome then min fsize len else len
    let v := if f.isSome then { v with fsize := toU64 fsize } else v
    (sharedLoop arch perm shp (rounds len) 0 start (s.setVmas (z.put v))).bind fun (ok, s) =>
      if ok = false then some (-1, s)
      else if f = none then some (start, s)
      else if env.lseek < 0 then some (env.lseek, s)
      else
        let (ok, s) := sharedRead arch env perm (rounds (min len fsize)) start s
        some (if ok then start else -1, s)

/-- `mmap` with `MAP_SHARED`, after the VMA is there. -/
def mmapShared (env : FileEnv) (start : Nat) (len : Int) (perm : Nat) (fd : Int) (z : Focus) (v : Vma)
    (s : Space) : Option (Int × Space) :=
  (newseg (toInt32 (toU64 len)) s).bind fun (shp, s) =>
    sharedMap arch env start len perm (if fd = -1 then none else s.ofile fd) (toInt32 env.stSize) shp z
      { v with type := .SHARE, shmKernel := shp } s

/-- The pages of an anonymous mapping; `false` if the loop was left early. -/
def anonLoop (perm : Nat) (cow : Bool) : Nat → Nat → Vma → Space → Option (Bool × Vma × Space)
  | 0, _, v, s => some (true, v, s)
  | n + 1, va, v, s =>
    let (pa, s) := s.experm arch va perm
    let next := fun s =>
      let (v, s) := markCow arch cow va v s
      anonLoop perm cow n (add64 va PGSIZE) v s
    if pa = 0 then
      let (newPa, s) := s.alloc
      if newPa = NULL then some (false, v, s)
      else
        (s.mappages arch va newPa PGSIZE perm).bind fun (r, s) =>
          if r < 0 then some (false, v, s.free newPa) else next s
    else next s

/-- The pages of a private file mapping. A failed read is a panic. -/
def fileLoop (env : FileEnv) (perm : Nat) (cow : Bool) : Nat → Nat → Vma → Space → Option (Vma × Space)
  | 0, _, v, s => some (v, s)
  | n + 1, va, v, s =>
    let s := (s.experm arch va perm).2
    if env.read va < 0 then none
    else
      let (v, s) := markCow arch cow va v s
      fileLoop env perm cow n (add64 va PGSIZE) v s

/-- `mmap` after the VMA `v` is there, with the address `start` of its first page. -/
def mmapPages (env : FileEnv) (start : Nat) (len prot : Int) (perm flags : Nat) (fd : Int) (z : Focus)
    (v : Vma) (s : Space) : Option (Int × Space) :=
  let cow := Bits.has flags MAP_PRIVATE && hasBits prot PROT_WRITE
  if prot = PROT_NONE then some (start, s.setVmas (z.put v))
  else if Bits.has flags MAP_SHARED then mmapShared arch env start len perm fd z v s
  else if Bits.has flags MAP_ANONYMOUS ∨ fd = -1 then
    (anonLoop arch perm cow (rounds len) start v s).map fun (ok, v, s) =>
      (if ok then start else -1, s.setVmas (z.put v))
  else if env.lseek < 0 then some (env.lseek, s.setVmas (z.put v))
  else
    (fileLoop arch env perm cow (rounds len) start v s).map fun (v, s) =>
      (start, s.setVmas (z.put v))

/-- `mmap` after its arguments are checked. -/
def mmapRange (env : FileEnv) (start : Nat) (len prot : Int) (flags : Nat) (fd : Int) (offset : Nat)
    (s : Space) : Option (Int × Space) :=
  let perm := flagsInt (getMmapperms arch prot)
  (if Bits.has flags MAP_FIXED then unmapFixed arch start (add64 start (toU64 len)) s.vmas s
  else some s).bind fun s =>
    (allocMmapVma arch flags start len perm fd offset s).bind fun (z, s) =>
      mmapPages arch env (if Bits.has flags MAP_FIXED then start else z.vma.addr) len prot perm flags fd z
        { z.vma with origProt := prot } s

/-- The error of a file that may not be mapped. -/
def mmapFileError (fd : Int) (s : Space) : Option Int :=
  match s.ofile fd with
  | none => some (-EBADF)
  | some f =>
    if Bits.has f.fFlags O_WRONLY ∧ ¬Bits.has f.fFlags O_RDWR then some (-EACCES)
    else if f.readable = false then some (-EACCES)
    else none

/-- The errors that `mmap` finds in its arguments. -/
def mmapError (len : Int) (flags : Nat) (fd : Int) (s : Space) : Option Int :=
  if ¬Bits.has flags (MAP_PRIVATE ||| MAP_SHARED ||| MAP_SHARED_VALIDATE) then some (-EINVAL)
  else if ¬Bits.has flags MAP_ANONYMOUS ∧ fd < 0 then some (-EBADF)
  else if len = 0 then some (-EINVAL)
  else if ¬Bits.has flags MAP_ANONYMOUS ∧ fd ≠ -1 then mmapFileError fd s
  else none

/-- The descriptor that `mmap` works with. -/
def mmapFd (flags : Nat) (fd : Int) : Int := if Bits.has flags MAP_ANONYMOUS then -1 else fd

def mmap (env : FileEnv) (start : Nat) (len : Int) (prot : Int) (flags : Nat) (fd : Int) (offset : Nat)
    (s : Space) : Option (Int × Space) :=
  match mmapError len flags (mmapFd flags fd) s with
  | some e => some (e, s)
  | none => mmapRange arch env start len prot flags (mmapFd flags fd) offset s

end Mmap

/-! ## `sys_mprotect` -/

section Mprotect

variable (arch : Arch)

/-- The new flags of a page. -/
def protectFlags (perm flags : Nat) : Nat :=
  match arch with
  | .riscv => Bits.clear flags (PTE_R .riscv ||| PTE_W .riscv ||| PTE_X .riscv) ||| perm
  | .loongarch =>
    let flags := Bits.clear (Bits.clear (flags ||| PTE_NX ||| PTE_NR) (PTE_W .loongarch))
      (PTE_D .loongarch)
    let flags := if Bits.has perm PTE_NR then flags else Bits.clear flags PTE_NR
    let flags := if Bits.has perm PTE_NX then flags else Bits.clear flags PTE_NX
    if Bits.has perm (PTE_W .loongarch) then flags ||| PTE_W .loongarch ||| PTE_D .loongarch
    else flags

/-- The loop of `sys_mprotect` over the pages of the range. -/
def protectLoop (perm : Nat) : Nat → Nat → Space → Option Space
  | 0, _, s => some s
  | n + 1, va, s =>
    if va ≥ MAXVA arch then none
    else
      let s :=
        if (s.pte va).valid then
          s.setLeaf (va / PGSIZE) ⟨(s.pte va).pa, protectFlags arch perm (s.pte va).flags⟩
        else s
      protectLoop perm n (add64 va PGSIZE) s

/-- What `sys_mprotect` makes of a VMA that the range cuts: the part in the range. `base` is
`vma->addr`, where `vma` is the first VMA that the range meets. -/
def protectMiddle (start end_ perm : Nat) (prot : Int) (base : Nat) (v : Vma) : Vma :=
  let overlapStart := if start > v.addr then start else v.addr
  let overlapEnd := if end_ < v.end_ then end_ else v.end_
  { v with
    addr := overlapStart, size := sub64 overlapEnd overlapStart, end_ := overlapEnd, perm := perm,
    origProt := prot, fOff := add64 v.fOff (sub64 overlapStart base) }

/-- The loop of `sys_mprotect` over the VMAs; `false` if there was no page for a VMA. `base` is
`none` before the first VMA that the range meets, which is its own base once it is cut. -/
def protectVmas (start end_ perm : Nat) (prot : Int) : Option Nat → List Vma → Space → Bool × List Vma × Space
  | _, [], s => (true, [], s)
  | base, v :: vs, s =>
    if start < v.end_ ∧ end_ > v.addr then
      if v.addr ≥ start ∧ v.end_ ≤ end_ then
        let (ok, l, s) := protectVmas start end_ perm prot (some (base.getD v.addr)) vs s
        (ok, { v with perm := perm, origProt := prot } :: l, s)
      else
        let (left, s₁) := if v.addr < start then s.alloc else (1, s)
        if left = NULL then (false, v :: vs, s₁)
        else
          let front := if v.addr < start then [v.front start] else []
          let (right, s₂) := if v.end_ > end_ then s₁.alloc else (1, s₁)
          if right = NULL then (false, front ++ v :: vs, s₂)
          else
            let back := if v.end_ > end_ then [v.back end_] else []
            let base := base.getD (if start > v.addr then start else v.addr)
            let (ok, l, s₃) := protectVmas start end_ perm prot (some base) vs s₂
            (ok, front ++ protectMiddle start end_ perm prot base v :: back ++ l, s₃)
    else
      let (ok, l, s) := protectVmas start end_ perm prot base vs s
      (ok, v :: l, s)

/-- The error of a write permission for a file that is open read-only. -/
def protectFileError (prot : Nat) (v : Vma) (s : Space) : Bool :=
  match s.ofile v.fd with
  | none => false
  | some f =>
    Bits.has prot PROT_WRITE && v.fd != -1 && !Bits.has f.fFlags O_WRONLY && !Bits.has f.fFlags O_RDWR

def sysMprotect (start len prot : Nat) (s : Space) : Option (Int × Space) :=
  let perm := getMmapperms arch (toInt32 prot)
  let end_ := add64 start len
  let pages := fun s : Space =>
    (protectLoop arch perm (Vmem.pageCeil (end_ - start)) start s).map fun s => ((0 : Int), s)
  if start % PGSIZE ≠ 0 then some (-EINVAL, s)
  else if len = 0 then some (-EINVAL, s)
  else if start ≥ s.sz then
    match s.vmas.find? fun v => start < v.end_ ∧ end_ > v.addr with
    | none => some (-ENOMEM, s)
    | some v =>
      if protectFileError prot v s then some (-EACCES, s)
      else
        let (ok, vmas, s) :=
          protectVmas start end_ (flagsInt perm) (toInt32 prot) none s.vmas s
        if ok then pages (s.setVmas vmas) else some (-ENOMEM, s.setVmas vmas)
  else pages s

end Mprotect

/-! ## `fork` -/

section Fork

variable (arch : Arch)

/-- One page of `uvmcopy`. The flags go through an `unsigned int`; a page that the child has
already is not an error, since `mappages` then answers with `-EINVAL` and not with `-1`. -/
def copyPage (va : Nat) (child : Nat → Pte) (s : Space) : Option ((Nat → Pte) × Space) :=
  if va ≥ MAXVA arch then none
  else if (s.pte va).valid = false then some (child, s)
  else
    s.allocNode.bind fun s' =>
      (Leaf.mappages arch va s.alloc.1 PGSIZE (PTE_FLAGS arch (s.pte va) % 2 ^ 32) child).map
        fun (_, child) => (child, s')

/-- The loop of `uvmcopy` over the pages up to `p->sz`. -/
def copyLoop : Nat → Nat → (Nat → Pte) → Space → Option ((Nat → Pte) × Space)
  | 0, _, child, s => some (child, s)
  | n + 1, va, child, s =>
    (copyPage arch va child s).bind fun (child, s) => copyLoop n (add64 va PGSIZE) child s

/-- The address inside the one page above the program that `uvmcopy` copies on RISC-V. -/
def extraAddr : Nat := 0x10000036e

/-- `uvmcopy(p->pagetable, np->pagetable, p->sz)`. There is no way back from a failed allocation:
its clean-up takes the lock again. -/
def uvmcopy (child : Nat → Pte) (s : Space) : Option ((Nat → Pte) × Space) :=
  let i := pgRoundDown s.virtAddr
  (if i ≥ 0x100 then copyPage arch 0 child s else some (child, s)).bind fun (child, s) =>
    (match arch with
      | .riscv => copyPage arch extraAddr child s
      | .loongarch => some (child, s)).bind fun (child, s) =>
        copyLoop arch (Vmem.pageCeil (s.sz - i)) i child s

/-- `vma_copy(np, p->vma)`. The loop never ends at a VMA whose segment has lost its pages. -/
def vmaCopy : List Vma → Space → Option Space
  | [], s => some s
  | v :: vs, s =>
    s.allocNode.bind fun s =>
      if v.type = .SHARE ∧ v.shmKernel ≠ NULL then
        let seg := s.shm v.shmKernel
        if seg.shmPages = none then none
        else vmaCopy vs (s.setShm v.shmKernel { seg with attachCount := seg.attachCount + 1 })
      else vmaCopy vs s

/-- One page of `vma_map` for a shared segment. -/
def mapSharedPage (v : Vma) (i va : Nat) (child : Nat → Pte) (s : Space) :
    Option ((Nat → Pte) × Space) :=
  let seg := s.shm v.shmKernel
  let pages := seg.shmPages.getD []
  let shmNumPages := toInt32 ((seg.size + PGSIZE - 1) % 2 ^ 64 / PGSIZE)
  if va ≥ MAXVA arch then none
  else if (child (va / PGSIZE)).valid then some (child, s)
  else if i < shmNumPages ∧ pages.getD i 0 ≠ 0 then
    (Leaf.mappages arch va (pages.getD i 0) PGSIZE (v.perm ||| PTE_U arch) child).bind
      fun (r, child) => if r ≠ 1 then none else some (child, s)
  else if (s.pte va).valid then
    (Leaf.mappages arch va (s.pte va).pa PGSIZE (PTE_FLAGS arch (s.pte va)) child).bind
      fun (r, child) =>
        if r ≠ 1 then none
        else some (child, if i < shmNumPages then setShmPage v.shmKernel i (s.pte va).pa s else s)
  else some (child, s)

def mapSharedLoop (v : Vma) : Nat → Nat → Nat → (Nat → Pte) → Space → Option ((Nat → Pte) × Space)
  | 0, _, _, child, s => some (child, s)
  | n + 1, i, va, child, s =>
    (mapSharedPage arch v i va child s).bind fun (child, s) =>
      mapSharedLoop v n (i + 1) (add64 va PGSIZE) child s

/-- The page for a copy; `vma_map` asks twice. -/
def allocTwice (s : Space) : Option (Nat × Space) :=
  let (mem, s) := s.alloc
  if mem ≠ NULL then some (mem, s)
  else
    let (mem, s) := s.alloc
    if mem ≠ NULL then some (mem, s) else none

/-- One page of `vma_map` for any other VMA: copied if `copyNow` holds or the page is writable, else
mapped at the same physical page. -/
def mapPage (copyNow : Bool) (va : Nat) (child : Nat → Pte) (s : Space) :
    Option ((Nat → Pte) × Space) :=
  let pte := s.pte va
  if va ≥ MAXVA arch then none
  else if pte.valid = false then some (child, s)
  else if (child (va / PGSIZE)).valid then some (child, s)
  else
    let flags := PTE_FLAGS arch pte
    (if copyNow ∨ Bits.has flags (PTE_W arch) then allocTwice s else some (pte.pa, s)).bind
      fun (pa, s) =>
        (Leaf.mappages arch va pa PGSIZE flags child).bind fun (r, child) =>
          if r ≠ 1 then none else some (child, s)

def mapLoop (copyNow : Bool) (end_ : Nat) : Nat → Nat → (Nat → Pte) → Space → Option ((Nat → Pte) × Space)
  | 0, va, child, s => if va < end_ then none else some (child, s)
  | n + 1, va, child, s =>
    if va < end_ then
      (mapPage arch copyNow va child s).bind fun (child, s) =>
        mapLoop copyNow end_ n (add64 va PGSIZE) child s
    else some (child, s)

/-- `vma_map(p->pagetable, np->pagetable, vma)`. -/
def vmaMap (v : Vma) (child : Nat → Pte) (s : Space) : Option ((Nat → Pte) × Space) :=
  if v.type = .SHARE ∧ v.shmKernel ≠ NULL then
    if (s.shm v.shmKernel).shmPages = none then some (child, s)
    else
      let numPages := toInt32 ((v.size + PGSIZE - 1) % 2 ^ 64 / PGSIZE)
      mapSharedLoop arch v numPages.toNat 0 v.addr child s
  else
    let copyNow := v.type = .STACK ∨ (hasBits v.flags MAP_PRIVATE ∧ Bits.has v.perm (PTE_W arch))
    mapLoop arch copyNow v.end_ (Vmem.pageCeil (v.end_ - v.addr)) v.addr child s

/-- The VMAs of the child, one after the other. -/
def vmaMapAll : List Vma → (Nat → Pte) → Space → Option ((Nat → Pte) × Space)
  | [], child, s => some (child, s)
  | v :: vs, child, s =>
    (if v.addr ≠ v.end_ then vmaMap arch v child s else some (child, s)).bind fun (child, s) =>
      vmaMapAll vs child s

/-- The page table that `proc_pagetable` makes, with the physical addresses of its three pages. -/
def procPagetable (trampoline trapframe sigtrampoline : Nat) : Nat → Pte :=
  let leaf := update (fun _ => Pte.zero) (TRAMPOLINE arch / PGSIZE)
    ⟨trampoline, PTE_TRAMPOLINE arch ||| PTE_V⟩
  let leaf := update leaf (TRAPFRAME arch / PGSIZE) ⟨trapframe, PTE_TRAPFRAME arch ||| PTE_V⟩
  update leaf (SIGTRAMPOLINE arch / PGSIZE) ⟨sigtrampoline, PTE_TRAMPOLINE arch ||| PTE_U arch ||| PTE_V⟩

/-- `fork`: the address space of the child, and the parent's afterwards. -/
def fork (trampoline trapframe sigtrampoline : Nat) (s : Space) : Option (Mm × Space) :=
  (uvmcopy arch (procPagetable arch trampoline trapframe sigtrampoline) s).bind fun (child, s) =>
    s.allocNode.bind fun s =>
      (vmaCopy s.vmas s).bind fun s =>
        (vmaMapAll arch s.vmas child s).map fun (leaf, s) => ({ s.toMm with leaf }, s)

end Fork

/-! ## Page faults -/

section Fault

variable (arch : Arch)

/-- The signals that a page fault can raise. -/
inductive Sig where
  | SIGSEGV
  | SIGBUS
  deriving DecidableEq, Repr

/-- The search of `pagefault_handler`. -/
def findVma (addr : Nat) : List Vma → Option Vma
  | [] => none
  | v :: vs =>
    if addr ≥ v.end_ then findVma addr vs
    else if addr ≥ v.addr then some v
    else none

/-- `handle_cow_write`; `false` is the result `-1`. -/
def handleCowWrite (va : Nat) (s : Space) : Bool × Space :=
  match s.vmas.find? fun v => va ≥ v.addr ∧ va < v.end_ with
  | none => (false, s)
  | some v =>
    if hasBits v.flags MAP_PRIVATE ∧ (s.pte va).valid then
      let (newPa, s) := s.alloc
      if newPa = NULL then (false, s)
      else
        let flags := PTE_FLAGS arch (s.pte va) ||| PTE_W arch
        let flags := match arch with
          | .riscv => flags
          | .loongarch => flags ||| PTE_D .loongarch
        (true, s.setLeaf (va / PGSIZE) ⟨newPa, flags ||| PTE_V⟩)
    else (false, s)

/-- The flags of a page that the handler maps on its own account. -/
def faultPerm : Nat := PTE_R arch ||| PTE_W arch ||| PTE_X arch ||| PTE_D arch ||| PTE_U arch ||| PTE_V

/-- The last part of `pagefault_handler`: a fresh page, or more rights for the page that is
there. -/
def faultGeneric (va : Nat) (s : Space) : Option (Option Sig × Space) :=
  let (pa, s) := s.alloc
  if pa = NULL then none
  else if pa % PGSIZE ≠ 0 then some (none, s.free pa)
  else if (s.pte va).valid then
    some (none, s.setLeaf (va / PGSIZE) ⟨(s.pte va).pa, (s.pte va).flags ||| faultPerm arch⟩)
  else
    (s.mappages arch va pa PGSIZE (faultPerm arch)).bind fun (r, s) =>
      if r < 0 then none else some (none, s)

/-- The fault at a private file mapping: the file is read once more. -/
def faultFile (env : FileEnv) (va : Nat) (s : Space) : Option (Option Sig × Space) :=
  if env.lseek < 0 then some (none, s)
  else
    (s.walkaddr arch va).map fun pa =>
      if env.read va < 0 then (none, s.free pa) else (none, s)

/-- The fault at a shared segment. -/
def faultShared (addr va : Nat) (v : Vma) (s : Space) : Option (Option Sig × Space) :=
  let seg := s.shm v.shmKernel
  let idx := sub64 va v.addr / PGSIZE
  if sub64 addr v.addr > v.fsize then some (some .SIGBUS, s)
  else if idx ≥ (seg.size + PGSIZE - 1) % 2 ^ 64 / PGSIZE then some (none, s)
  else
    let page := (seg.shmPages.getD []).getD idx 0
    (if page = 0 then s.allocNode.map fun s' => (s.alloc.1, setShmPage v.shmKernel idx s.alloc.1 s')
    else some (page, s)).bind fun (pa, s) =>
      if (s.pte va).valid then some (some .SIGSEGV, s)
      else
        (s.mappages arch va pa PGSIZE (v.perm ||| PTE_U arch)).bind fun (r, s) =>
          if r < 0 then none else some (none, s)

/-- `pagefault_handler(addr)` up to the result, which no caller looks at: the signal that it sends. -/
def pagefaultHandler (env : FileEnv) (addr : Nat) (s : Space) : Option (Option Sig × Space) :=
  let va := pgRoundDown addr
  match findVma addr s.vmas with
  | none => if addr ≤ s.sz then faultGeneric arch va s else some (some .SIGSEGV, s)
  | some v =>
    if v.origProt = PROT_NONE then some (some .SIGSEGV, s)
    else
      let isPrivate := hasBits v.flags MAP_PRIVATE
      let (copied, s) :=
        if isPrivate ∧ (s.pte va).valid ∧ ¬Bits.has (s.pte va).flags (PTE_W arch) then
          handleCowWrite arch va s
        else (false, s)
      if copied ∧ v.fd = -1 then some (none, s)
      else if isPrivate ∧ v.fd ≠ -1 ∧ (s.ofile v.fd).isSome then faultFile arch env va s
      else if v.type = .SHARE ∧ v.shmKernel ≠ NULL then faultShared arch addr va v s
      else faultGeneric arch va s

/-- What the user did when the fault happened. -/
inductive Access where
  | load
  | store
  | fetch
  deriving DecidableEq, Repr

/-- How a page fault ends for the process. -/
inductive Outcome where
  | resumed
  | signalled (sig : Sig)
  | killed
  deriving DecidableEq, Repr

/-- The page faults in `usertrap`. On RISC-V a fault of an instruction fetch marks the process as
killed. On LoongArch the handler gets the faults of loads and stores at pages that are not valid and
of stores at pages that are not dirty; the other page faults (fetches, and loads from a page that is
mapped without the right to read) end in a panic. -/
def usertrapFault (env : FileEnv) (access : Access) (addr : Nat) (s : Space) :
    Option (Outcome × Space) :=
  let handled := (pagefaultHandler arch env addr s).map fun (sig, s) =>
    (match sig with
      | none => Outcome.resumed
      | some sig => Outcome.signalled sig, s)
  match arch, access with
  | .riscv, .fetch => some (.killed, s)
  | .riscv, _ => handled
  | .loongarch, .fetch => none
  | .loongarch, .load => if (s.pte addr).valid then none else handled
  | .loongarch, .store => handled

end Fault

end Space

/-! ## The processes of the system -/

/-- The address spaces of all processes. -/
structure Spaces where
  mm : Nat → Mm
  kern : Kern

/-- A system call or a page fault, by the process that makes it, with what the kernel and the file
system answer meanwhile. -/
inductive SpaceOp where
  | mmap (env : FileEnv) (start : Nat) (len prot : Int) (flags : Nat) (fd : Int) (offset : Nat)
  | mprotect (start len prot : Nat)
  | fork (np trampoline trapframe sigtrampoline : Nat)
  | fault (env : FileEnv) (access : Space.Access) (addr : Nat)

namespace Spaces

variable (arch : Arch)

/-- The space of the process `pid`, while the allocator answers with `supply`. -/
def space (pid : Nat) (supply : Nat → Nat) (s : Spaces) : Space :=
  { s.mm pid, s.kern with supply }

/-- Writes the space of `pid` back. -/
def put (pid : Nat) (t : Space) (s : Spaces) : Spaces :=
  { s with mm := update s.mm pid t.toMm, kern := t.toKern }

/-- One operation of the process `pid`. -/
def step (pid : Nat) (supply : Nat → Nat) (op : SpaceOp) (s : Spaces) : Option Spaces :=
  let t := s.space pid supply
  match op with
  | .mmap env start len prot flags fd offset =>
    (Space.mmap arch env start len prot flags fd offset t).map fun (_, t) => s.put pid t
  | .mprotect start len prot => (Space.sysMprotect arch start len prot t).map fun (_, t) => s.put pid t
  | .fork np trampoline trapframe sigtrampoline =>
    (Space.fork arch trampoline trapframe sigtrampoline t).map fun (child, t) =>
      { s.put pid t with mm := update (update s.mm pid t.toMm) np child }
  | .fault env access addr =>
    (Space.usertrapFault arch env access addr t).map fun (_, t) => s.put pid t

end Spaces

end SC7
