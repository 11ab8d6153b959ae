-- SUMMARY: Shared segments in the address spaces of several processes, and when their pages agree.
import SC7.Mem.MmapPlace
import SC7.Mem.SpaceFork

/-!
# Shared segments

A shared mapping has a segment (`struct shmid_kernel`), whose array `shm_pages` holds the physical
pages. `mmap` with `MAP_SHARED` makes a segment of its own and maps all its pages; `shmget` makes one
and `shmat` maps it. `fork` and the page fault handler take the page of an address from the array,
and their index is the distance from `vma->addr`.

The state keeps one thing that the kernel does not: `origin`, the address at which the mapping that a
page belongs to was attached. `Shares` says of a process that the mapped pages of its shared mappings
are the pages of their segments at the distance from that address.
-/

namespace SC7

open Function (update update_of_ne update_self)

abbrev SHM_RDONLY : Nat := 0o10000
abbrev SHM_RND : Nat := 0o20000

namespace Space

/-! ## `shmat` -/

section Shmat

variable (arch : Arch)

/-- `alloc_vma(p, SHARE, addr, size, perm, 0, 0)`. -/
def allocShareVma (addr : Nat) (size : Int) (perm : Nat) (s : Space) : Option (Focus × Space) :=
  let start := pgRoundUp addr
  let end_ := pgRoundUp (toU64 (addr + size))
  match findSlot start end_ [] s.vmas with
  | none => none
  | some (.inr z) => some (z, s)
  | some (.inl (before, after)) =>
    s.allocNode.map fun s =>
      (⟨before, VmaMem.initVma Vma.zero .SHARE start end_ size perm, after⟩, s)

def shmPerm (shmflg : Nat) : Nat :=
  let perm := PTE_U arch ||| PTE_R arch
  if Bits.has shmflg SHM_RDONLY then perm
  else
    match arch with
    | .riscv => perm ||| PTE_W .riscv
    | .loongarch => perm ||| PTE_W .loongarch ||| PTE_D .loongarch

/-- The loop of a first attachment: the new pages are entered into the segment. -/
def recordLoop (shp : Nat) : Nat → Nat → Nat → Space → Option Space
  | 0, _, _, s => some s
  | n + 1, i, va, s =>
    if va ≥ MAXVA arch then none
    else
      let s := if (s.pte va).valid then setShmPage shp i (s.pte va).pa s else s
      recordLoop shp n (i + 1) (add64 va PGSIZE) s

/-- The loop of a later attachment: the pages of the segment are mapped. -/
def attachLoop (shp perm : Nat) : Nat → Nat → Nat → Space → Option Space
  | 0, _, _, s => some s
  | n + 1, i, va, s =>
    let seg := s.shm shp
    let pa :=
      if i < (seg.size + PGSIZE - 1) % 2 ^ 64 / PGSIZE then (seg.shmPages.getD []).getD i 0 else 0
    if pa ≠ 0 then
      (s.mappages arch va pa PGSIZE perm).bind fun (r, s) =>
        if r ≠ 1 then none else attachLoop shp perm n (i + 1) (add64 va PGSIZE) s
    else attachLoop shp perm n (i + 1) (add64 va PGSIZE) s

/-- `shmat` after the address is chosen. Of `attaches` only whether it is `NULL` matters, so `1`
stands for any node. The records for `shmdt` are left out. -/
def shmatAt (shp addr perm : Nat) (s : Space) : Option (Int × Space) :=
  let size := toInt32 (s.shm shp).size
  (allocShareVma addr size perm s).bind fun (z, s) =>
    let v := { z.vma with shmKernel := shp }
    let numPages := ((size + PGSIZE - 1) / PGSIZE).toNat
    if (s.shm shp).attachCount ≥ 0x7FFFFFFF then some (-ENOMEM, s.setVmas (z.before ++ z.after))
    else
      (if (s.shm shp).attaches = NULL then
        (uvmalloc1 arch v.addr v.end_ perm s).bind (recordLoop arch shp numPages 0 v.addr)
      else attachLoop arch shp perm numPages 0 v.addr s).map fun s =>
        let seg := { s.shm shp with attachCount := (s.shm shp).attachCount + 1, attaches := 1 }
        (v.addr, (s.setShm shp seg).setVmas (z.put v))

/-- The address of the caller is in use. -/
def shmConflict (addr : Nat) (size : Int) (v : Vma) : Bool :=
  v.addr = addr ∨ (addr ≥ v.addr ∧ addr < v.end_) ∨ (v.addr ≥ addr ∧ v.addr < toU64 (addr + size))

/-- The error of an address that the caller names. -/
def shmatError (shp shmaddr shmflg : Nat) (s : Space) : Bool :=
  let size := toInt32 (s.shm shp).size
  let addr := if Bits.has shmflg SHM_RND then pgRoundDown shmaddr else shmaddr
  (!Bits.has shmflg SHM_RND && shmaddr % PGSIZE != 0) ||
    (addr ≥ MAXVA arch || toU64 (addr + size) > MAXVA arch) || addr < s.sz ||
      s.vmas.any (shmConflict addr size)

/-- The address at which `shmat` attaches. -/
def shmatAddr (shmaddr shmflg : Nat) (sharememStart : Int) : Nat :=
  if shmaddr = 0 then toU64 sharememStart
  else if Bits.has shmflg SHM_RND then pgRoundDown shmaddr
  else shmaddr

/-- Whether `shmat` refuses to attach. A segment without pages is one that there is not. `perm` is the
answer of `check_shm_permissions`. -/
def ShmatRefuses (shp : Nat) (perm : Int) (shmaddr shmflg : Nat) (s : Space) : Prop :=
  (s.shm shp).shmPages = none ∨ perm ≠ 0 ∨ (shmaddr ≠ 0 ∧ shmatError arch shp shmaddr shmflg s = true)

instance (shp : Nat) (perm : Int) (shmaddr shmflg : Nat) (s : Space) :
    Decidable (ShmatRefuses arch shp perm shmaddr shmflg s) :=
  inferInstanceAs (Decidable (_ ∨ _))

/-- `sys_shmat` for the segment that `shmid` names: the result, `sharemem_start`, and the space. -/
def sysShmat (shp : Nat) (perm : Int) (shmaddr shmflg : Nat) (sharememStart : Int) (s : Space) :
    Option (Int × Int × Space) :=
  if ShmatRefuses arch shp perm shmaddr shmflg s then
    some (if (s.shm shp).shmPages ≠ none ∧ perm ≠ 0 then perm else -EINVAL, sharememStart, s)
  else
    (shmatAt arch shp (shmatAddr shmaddr shmflg sharememStart) (shmPerm arch shmflg) s).map fun (r, t) =>
      let next := pgRoundUp (toU64 (sharememStart + toInt32 (s.shm shp).size))
      (r, if shmaddr = 0 ∧ 0 ≤ r then toInt32 next else sharememStart, t)

end Shmat

/-- `shp->attaches = vma` in `mmap`, for the segments that the process maps. -/
def noteAttaches (s : Space) : Space :=
  { s with
    shm := fun shp =>
      if ∃ v ∈ s.vmas, v.type = .SHARE ∧ v.shmKernel = shp then { s.shm shp with attaches := 1 }
      else s.shm shp }

end Space

/-! ## The system -/

/-- A call or a fault of a process that has to do with shared mappings. -/
inductive ShmOp where
  | mmap (env : FileEnv) (start : Nat) (len prot : Int) (flags : Nat) (fd : Int) (offset : Nat)
  | shmget (size : Nat)
  | shmat (shp : Nat) (perm : Int) (shmaddr shmflg : Nat)
  | munmap (start : Nat) (len : Int)
  | fork (np trampoline trapframe sigtrampoline : Nat)
  | fault (env : FileEnv) (access : Space.Access) (addr : Nat)

/-- The address spaces, and where their mappings were attached. -/
structure ShmSpaces extends Spaces where
  sharememStart : Int
  origin : Nat → Nat → Nat

/-- The page starts in the range. -/
def InRange (lo hi vpn : Nat) : Prop := lo ≤ vpn * PGSIZE ∧ vpn * PGSIZE < hi

instance (lo hi vpn : Nat) : Decidable (InRange lo hi vpn) := inferInstanceAs (Decidable (_ ∧ _))

/-- An area from `lo` to `hi` is attached. -/
def attachedAt (lo hi : Nat) (origin : Nat → Nat) : Nat → Nat := fun vpn =>
  if InRange lo hi vpn then lo else origin vpn

namespace ShmSpaces

variable (arch : Arch)

/-- The range at which `shmat` attaches. -/
def shmatStart (shmaddr shmflg : Nat) (s : ShmSpaces) : Nat :=
  pgRoundUp (Space.shmatAddr shmaddr shmflg s.sharememStart)

def shmatEnd (shp shmaddr shmflg : Nat) (s : ShmSpaces) : Nat :=
  pgRoundUp (toU64 (Space.shmatAddr shmaddr shmflg s.sharememStart + toInt32 (s.kern.shm shp).size))

/-- One operation of the process `pid`. -/
def step (pid : Nat) (supply : Nat → Nat) (op : ShmOp) (s : ShmSpaces) : Option ShmSpaces :=
  let t := s.space pid supply
  match op with
  | .mmap env start len prot flags fd offset =>
    (Space.mmap arch env start len prot flags fd offset t).map fun (_, t') =>
      let lo := Space.placeStart start len t
      let hi := Space.placeEnd start len t
      let origin :=
        if (Space.mmapError len flags (Space.mmapFd flags fd) t).isSome then s.origin pid
        else attachedAt lo hi (s.origin pid)
      { s with toSpaces := s.put pid t'.noteAttaches, origin := update s.origin pid origin }
  | .shmget size =>
    -- without memory it is an error that changes nothing
    some ((Space.newseg (toInt32 size) t).elim s fun (_, t) => { s with toSpaces := s.put pid t })
  | .shmat shp perm shmaddr shmflg =>
    (Space.sysShmat arch shp perm shmaddr shmflg s.sharememStart t).map fun (_, next, t') =>
      let origin :=
        if Space.ShmatRefuses arch shp perm shmaddr shmflg t then s.origin pid
        else attachedAt (s.shmatStart shmaddr shmflg) (s.shmatEnd shp shmaddr shmflg) (s.origin pid)
      { toSpaces := s.put pid t', sharememStart := next, origin := update s.origin pid origin }
  | .munmap start len =>
    (Space.munmap arch start len t).map fun (_, t) => { s with toSpaces := s.put pid t }
  | .fork np trampoline trapframe sigtrampoline =>
    (Space.fork arch trampoline trapframe sigtrampoline t).map fun (child, t) =>
      { s with
        mm := update (update s.mm pid t.toMm) np child, kern := t.toKern,
        origin := update s.origin np (s.origin pid) }
  | .fault env access addr =>
    (Space.usertrapFault arch env access addr t).map fun (_, t) => { s with toSpaces := s.put pid t }

end ShmSpaces

/-! ## Segments -/

/-- `shp->shm_pages[i]`, where `0` is a page that there is not yet. -/
def segPage (shm : Nat → ShmidKernel) (shp i : Nat) : Nat := ((shm shp).shmPages.getD []).getD i 0

/-- What happens to a segment in use: pages are added, none is replaced. -/
structure SegKept (seg seg' : ShmidKernel) : Prop where
  size : seg'.size = seg.size
  some : seg'.shmPages.isSome = true
  length : (seg'.shmPages.getD []).length = (seg.shmPages.getD []).length
  attaches : seg'.attaches ≠ NULL
  pages : ∀ i, (seg.shmPages.getD []).getD i 0 ≠ 0 →
    (seg'.shmPages.getD []).getD i 0 = (seg.shmPages.getD []).getD i 0

/-- `newseg` gives the array as many entries as the size, an `int`, has pages. -/
def SegMade (seg : ShmidKernel) : Prop :=
  ∃ size : Int, -2 ^ 31 ≤ size ∧ size < 2 ^ 31 ∧ seg.size = toU64 size ∧
    (seg.shmPages.getD []).length = ((size + PGSIZE - 1) / PGSIZE).toNat

/-- What a step does to the segments: those in use keep their pages, and a new one is well formed. -/
structure ShmKept (shm shm' : Nat → ShmidKernel) : Prop where
  kept : ∀ shp, (shm shp).shmPages.isSome = true → (shm shp).attaches ≠ NULL → SegKept (shm shp) (shm' shp)
  made : (∀ shp, (shm shp).shmPages.isSome = true → SegMade (shm shp)) →
    ∀ shp, (shm' shp).shmPages.isSome = true → SegMade (shm' shp)

namespace ShmKept

variable {shm shm' shm'' : Nat → ShmidKernel} {shp : Nat} {seg : ShmidKernel}

theorem refl : ShmKept shm shm where
  kept _ hsome hne := ⟨rfl, hsome, rfl, hne, fun _ _ => rfl⟩
  made h := h

theorem of_eq (h : shm' = shm) : ShmKept shm shm' := h ▸ refl

theorem trans (h₁ : ShmKept shm shm') (h₂ : ShmKept shm' shm'') : ShmKept shm shm'' where
  kept shp hsome hne := by
    obtain ⟨hsize, hsome', hlen, hne', hpages⟩ := h₁.kept shp hsome hne
    obtain ⟨hsize', hsome'', hlen', hne'', hpages'⟩ := h₂.kept shp hsome' hne'
    refine ⟨hsize'.trans hsize, hsome'', hlen'.trans hlen, hne'', fun i hi => ?_⟩
    have hi' := hpages i hi
    rw [hpages' i (by rwa [hi']), hi']
  made h := h₂.made (h₁.made h)

/-- One segment changes. -/
theorem update (hseg : (shm shp).shmPages.isSome = true → (shm shp).attaches ≠ NULL → SegKept (shm shp) seg)
    (hmade : (∀ q, (shm q).shmPages.isSome = true → SegMade (shm q)) → SegMade seg) :
    ShmKept shm (update shm shp seg) where
  kept q hsome hne := by
    by_cases heq : q = shp
    · subst heq
      rw [update_self]
      exact hseg hsome hne
    · rw [update_of_ne heq]
      exact refl.kept q hsome hne
  made h q hq := by
    by_cases heq : q = shp
    · subst heq
      rw [update_self]
      exact hmade h
    · rw [update_of_ne heq] at hq ⊢
      exact h q hq

/-- A page is entered where there was none. -/
theorem setPage {i pa : Nat} {pages : List Nat} (hpages : (shm shp).shmPages = some pages)
    (hfree : pages.getD i 0 = 0) :
    ShmKept shm (Function.update shm shp { shm shp with shmPages := some (pages.set i pa) }) := by
  apply update
  · intro hsome hne
    refine ⟨rfl, rfl, ?_, hne, fun j hj => ?_⟩
    · rw [hpages]
      exact List.length_set
    · rw [hpages, Option.getD_some] at hj ⊢
      have hij : i ≠ j := by
        rintro rfl
        exact hj hfree
      simp only [Option.getD_some, List.getD_eq_getElem?_getD, List.getElem?_set_ne hij]
  · intro h
    obtain ⟨size, hlo, hhi, hsize, hlen⟩ := h shp (by rw [hpages]; rfl)
    refine ⟨size, hlo, hhi, hsize, ?_⟩
    rw [hpages] at hlen
    rw [← hlen]
    exact List.length_set

end ShmKept

/-! ## Agreement -/

/-- The pages that `fork` fills before it comes to the areas: those that every process has, the page
`0`, and two pages above the program on RISC-V. -/
def Reserved (arch : Arch) (vpn : Nat) : Prop :=
  vpn = 0 ∨ vpn = TRAMPOLINE arch / PGSIZE ∨ vpn = TRAPFRAME arch / PGSIZE ∨
    vpn = SIGTRAMPOLINE arch / PGSIZE ∨
    (arch = .riscv ∧ (vpn = Space.extraAddr / PGSIZE ∨ vpn = Space.extraAddr / PGSIZE + 1))

instance (arch : Arch) (vpn : Nat) : Decidable (Reserved arch vpn) := inferInstanceAs (Decidable (_ ∨ _))

/-- The mapped pages of an area are the pages of its segment, counted from the start of the area. -/
def Backed (shm : Nat → ShmidKernel) (leaf : Nat → Pte) (v : Vma) : Prop :=
  ∀ vpn, v.HasPage vpn → (leaf vpn).valid = true →
    segPage shm v.shmKernel (vpn - v.addr / PGSIZE) = (leaf vpn).pa ∧ (leaf vpn).pa ≠ 0

/-- What holds of a shared mapping. -/
structure SharedOk (arch : Arch) (shm : Nat → ShmidKernel) (origin : Nat → Nat) (mm : Mm) (v : Vma) :
    Prop where
  count : Vmem.pageCeil v.size = (v.end_ - v.addr) / PGSIZE
  fits : Vmem.pageCeil v.size ≤ ((shm v.shmKernel).shmPages.getD []).length
  some : (shm v.shmKernel).shmPages.isSome = true
  length : ((shm v.shmKernel).shmPages.getD []).length = Vmem.pageCeil (shm v.shmKernel).size
  bound : (shm v.shmKernel).size < 2 ^ 31
  attached : (shm v.shmKernel).attaches ≠ NULL
  shared : hasBits v.flags MAP_PRIVATE = false
  heap : mm.sz ≤ v.addr
  free : ∀ vpn, v.HasPage vpn → ¬Reserved arch vpn
  origin : ∀ vpn, v.HasPage vpn → origin vpn = v.addr
  backed : Backed shm mm.leaf v

/-- What holds of a process. -/
structure Shares (arch : Arch) (shm : Nat → ShmidKernel) (origin : Nat → Nat) (mm : Mm) : Prop where
  sorted : Vma.Sorted mm.vmas
  aligned : ∀ v ∈ mm.vmas, v.addr % PGSIZE = 0 ∧ v.end_ % PGSIZE = 0
  shared : ∀ v ∈ mm.vmas, Space.TakesShared v → SharedOk arch shm origin mm v

section Frame

variable {arch : Arch} {shm shm' : Nat → ShmidKernel} {origin : Nat → Nat} {mm mm' : Mm} {v w : Vma}
  {leaf leaf' : Nat → Pte} {vpn : Nat}

theorem Backed.kept (h : Backed shm leaf v) (hk : SegKept (shm v.shmKernel) (shm' v.shmKernel)) :
    Backed shm' leaf v := by
  intro vpn hp hv
  obtain ⟨hpage, hne⟩ := h vpn hp hv
  refine ⟨?_, hne⟩
  rw [← hpage] at hne
  rw [← hpage]
  exact hk.pages _ hne

/-- Entries are only cleared. -/
theorem Backed.cleared (h : Backed shm leaf v)
    (hleaf : ∀ vpn, (leaf' vpn).valid = true → leaf' vpn = leaf vpn) : Backed shm leaf' v := by
  intro vpn hp hv
  have hsame := hleaf vpn hv
  rw [hsame] at hv ⊢
  exact h vpn hp hv

/-- Entries outside the area do not matter. -/
theorem Backed.outside (h : Backed shm leaf v) (hleaf : ∀ vpn, v.HasPage vpn → leaf' vpn = leaf vpn) :
    Backed shm leaf' v := by
  intro vpn hp hv
  rw [hleaf vpn hp] at hv ⊢
  exact h vpn hp hv

/-- A page of the segment is mapped in its place. -/
theorem Backed.map {pa flags : Nat} (h : Backed shm leaf v)
    (hpage : segPage shm v.shmKernel (vpn - v.addr / PGSIZE) = pa) (hne : pa ≠ 0) :
    Backed shm (update leaf vpn ⟨pa, flags⟩) v := by
  intro k hp hv
  by_cases heq : k = vpn
  · subst heq
    rw [update_self]
    exact ⟨hpage, hne⟩
  · rw [update_of_ne heq] at hv ⊢
    exact h k hp hv

theorem SharedOk.kept (h : SharedOk arch shm origin mm v) (hk : ShmKept shm shm') :
    SharedOk arch shm' origin mm v := by
  have hseg := hk.kept _ h.some h.attached
  exact
    { h with
      fits := by rw [hseg.length]; exact h.fits
      some := hseg.some
      length := by rw [hseg.length, hseg.size]; exact h.length
      bound := by rw [hseg.size]; exact h.bound
      attached := hseg.attaches
      backed := h.backed.kept hseg }

/-- A shared mapping that lost pages at its back. -/
theorem SharedOk.part (h : SharedOk arch shm origin mm v)
    (haddr : w.addr = v.addr) (hend : w.end_ ≤ v.end_) (hshm : w.shmKernel = v.shmKernel)
    (hflags : w.flags = v.flags) (hcount : Vmem.pageCeil w.size = (w.end_ - w.addr) / PGSIZE)
    (hfits : Vmem.pageCeil w.size ≤ Vmem.pageCeil v.size) (hsz : mm'.sz = mm.sz)
    (hleaf : ∀ vpn, (mm'.leaf vpn).valid = true → mm'.leaf vpn = mm.leaf vpn) :
    SharedOk arch shm origin mm' w := by
  have hpage : ∀ vpn, w.HasPage vpn → v.HasPage vpn := fun vpn hp =>
    ⟨haddr ▸ hp.1, hp.2.trans_le hend⟩
  constructor
  · exact hcount
  · rw [hshm]
    exact hfits.trans h.fits
  · rw [hshm]
    exact h.some
  · rw [hshm]
    exact h.length
  · rw [hshm]
    exact h.bound
  · rw [hshm]
    exact h.attached
  · rw [hflags]
    exact h.shared
  · rw [hsz, haddr]
    exact h.heap
  · exact fun vpn hp => h.free vpn (hpage vpn hp)
  · intro vpn hp
    rw [haddr]
    exact h.origin vpn (hpage vpn hp)
  · intro vpn hp hv
    rw [hshm, haddr]
    exact h.backed.cleared hleaf vpn (hpage vpn hp) hv

/-- Steps of other processes do no harm. -/
theorem Shares.kept (h : Shares arch shm origin mm) (hk : ShmKept shm shm') : Shares arch shm' origin mm :=
  { h with shared := fun v hv hs => (h.shared v hv hs).kept hk }

/-- The page table changes under the same areas. -/
theorem Shares.remap (h : Shares arch shm origin mm) (hvmas : mm'.vmas = mm.vmas) (hsz : mm'.sz = mm.sz)
    (hleaf : ∀ v ∈ mm.vmas, Space.TakesShared v → Backed shm mm'.leaf v) :
    Shares arch shm origin mm' where
  sorted := by
    rw [hvmas]
    exact h.sorted
  aligned := by
    rw [hvmas]
    exact h.aligned
  shared v hv hs := by
    rw [hvmas] at hv
    exact { h.shared v hv hs with heap := by rw [hsz]; exact (h.shared v hv hs).heap,
                                  backed := hleaf v hv hs }

/-- No two areas have a page in common. -/
theorem Shares.unique (h : Shares arch shm origin mm) (hv : v ∈ mm.vmas) (hw : w ∈ mm.vmas)
    (hvp : v.HasPage vpn) (hwp : w.HasPage vpn) : v = w :=
  h.sorted.unique hv hw hvp hwp

/-- The pages of an area, by their numbers. -/
theorem hasPage_iff (hal : v.addr % PGSIZE = 0 ∧ v.end_ % PGSIZE = 0) :
    v.HasPage vpn ↔ Space.PagesFrom (v.addr / PGSIZE) ((v.end_ - v.addr) / PGSIZE) vpn := by
  obtain ⟨ha, he⟩ := hal
  unfold Vma.HasPage Space.PagesFrom
  simp only [PGSIZE] at *
  omega

/-- The number of pages in the array is the one that the handler and `fork` compute. -/
theorem SharedOk.numPages (h : SharedOk arch shm origin mm v) :
    ((shm v.shmKernel).size + PGSIZE - 1) % 2 ^ 64 / PGSIZE =
      ((shm v.shmKernel).shmPages.getD []).length := by
  rw [h.length]
  have := h.bound
  simp only [Vmem.pageCeil, PGSIZE] at *
  omega

/-- A page of the area has an entry in the array. -/
theorem SharedOk.index_lt (h : SharedOk arch shm origin mm v)
    (hal : v.addr % PGSIZE = 0 ∧ v.end_ % PGSIZE = 0) (hp : v.HasPage vpn) :
    vpn - v.addr / PGSIZE < ((shm v.shmKernel).shmPages.getD []).length := by
  refine lt_of_lt_of_le ?_ h.fits
  obtain ⟨hlo, hhi⟩ := (hasPage_iff hal).mp hp
  rw [h.count]
  omega

end Frame

end SC7
