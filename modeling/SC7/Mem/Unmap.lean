-- SUMMARY: Which physical pages a partial `vmunmap` frees, over runs of the mapping routines.
import SC7.Mem.VmemOps

/-!
# Ownership under partial unmapping

The mapping routines take one block for a whole range when they can; `vmunmap` releases page by page,
and `pmem_free_pages` gives back the whole block of the page it is called with. A run is orderly if
no step maps over a mapping, and no step frees a block that has a page mapped elsewhere. In an
orderly run no mapped page is ever free. A `vmunmap` frees exactly the pages of its range if and only
if each block with a page mapped there is mapped there as a whole.
-/

namespace SC7

open Pmem (SameRegion)

/-- The block that the records of the allocator give for a page. -/
def Pmem.blockOf (s : Pmem) (q : Nat) : Block := ⟨s.pageIdx (s.nodes q).addr, (s.nodes q).order.toNat⟩

theorem Pmem.Wf.blockOf {s : Pmem} {live : List Block} {b : Block} {q : Nat} (h : s.Wf live)
    (hb : b ∈ live) (hq : q ∈ b) : s.blockOf q = b := by
  have hplaced := h.placed hb
  rw [Pmem.blockOf, h.recorded hb q hq, Int.toNat_natCast, Pmem.pageIdx_pageAddr h.region hplaced.page_lt.le]

namespace Vmem

variable {arch : Arch} {s s' s₀ : Vmem} {live live' : List Block} {pid lo hi q va l : Nat} {doFree : Bool}
  {pmem : Pmem} {Q : List Nat}

/-! ## Mapped pages -/

/-- The physical page is mapped at one of the virtual pages `[lo, hi)`. -/
def MappedIn (s : Vmem) (pid lo hi q : Nat) : Prop :=
  ∃ v, lo ≤ v ∧ v < hi ∧ (s.leaf pid v).valid = true ∧ (s.leaf pid v).pa = s.pmem.pageAddr q

/-- The physical page is mapped somewhere. -/
def Mapped (s : Vmem) (q : Nat) : Prop :=
  ∃ pid v, (s.leaf pid v).valid = true ∧ (s.leaf pid v).pa = s.pmem.pageAddr q

/-- Exactly the pages that were mapped in the range have become free, and no mapped page is free. -/
structure FreesExactly (s s' : Vmem) (pid lo hi : Nat) : Prop where
  freed : ∀ q, s'.pmem.FreePage q ∧ ¬s.pmem.FreePage q ↔ s.MappedIn pid lo hi q
  mapped : ∀ q, s'.Mapped q → ¬s'.pmem.FreePage q

/-- A block with a page mapped in the range is mapped in the range as a whole. -/
def WholeBlocks (s : Vmem) (pid lo hi : Nat) : Prop :=
  ∀ q, s.MappedIn pid lo hi q → ∀ q' ∈ s.pmem.blockOf q, s.MappedIn pid lo hi q'

/-- A block with a page mapped in the range has no page mapped elsewhere. -/
def Spares (s : Vmem) (pid lo hi : Nat) : Prop :=
  ∀ q, s.MappedIn pid lo hi q → ∀ q' ∈ s.pmem.blockOf q, ∀ pid' v,
    (s.leaf pid' v).valid = true → (s.leaf pid' v).pa = s.pmem.pageAddr q' → pid' = pid ∧ lo ≤ v ∧ v < hi

theorem Ok.mapped_live (h : s.Ok arch live) (hq : s.Mapped q) : LivePage live q := by
  obtain ⟨pid, v, hv, hpa⟩ := hq
  obtain ⟨q', heq, hlive⟩ := h.held (.leaf pid v) _ ⟨hv, rfl⟩
  rwa [Pmem.pageAddr_inj (hpa.symm.trans heq)]

theorem MappedIn.mapped (h : s.MappedIn pid lo hi q) : s.Mapped q := by
  obtain ⟨v, -, -, hv, hpa⟩ := h
  exact ⟨pid, v, hv, hpa⟩

theorem Ok.mapped_not_free (h : s.Ok arch live) (hq : s.Mapped q) : ¬s.pmem.FreePage q := by
  rw [h.wf.freePage_iff]
  exact fun hf => hf.2 (h.mapped_live hq)

/-- A block is touched by a range if the range maps one of its pages. -/
theorem touched_iff {b : Block} : s.Touched pid lo hi b ↔ ∃ q ∈ b, s.MappedIn pid lo hi q := by
  constructor
  · rintro ⟨v, h1, h2, hv, q, hq, hpa⟩
    exact ⟨q, hq, v, h1, h2, hv, hpa⟩
  · rintro ⟨q, hq, v, h1, h2, hv, hpa⟩
    exact ⟨v, h1, h2, hv, q, hq, hpa⟩

/-- What the range spares, nobody outside it loses: a table is alone in its block. -/
theorem Ok.apart (h : s.Ok arch live) (hx : s.Exclusive) (hspare : s.Spares pid lo hi) :
    s.Apart live pid lo hi := by
  rintro b hb ht q hq x hheld
  obtain ⟨q₀, hq₀, hmap⟩ := touched_iff.mp ht
  have hblock := h.wf.blockOf hb hq₀
  cases x with
  | leaf pid' v =>
    obtain ⟨rfl, h1, h2⟩ := hspare q₀ hmap q (by rw [hblock]; exact hq) pid' v hheld.1 hheld.2
    exact ⟨v, h1, h2, rfl⟩
  | dir pid' l i =>
    obtain ⟨hne, hpage⟩ := hheld
    obtain ⟨q', heq, hlive⟩ := h.alone pid' l i hne
    obtain rfl : q = q' := Pmem.pageAddr_inj (hpage.symm.trans heq)
    obtain rfl := h.wf.eq_of_mem hb hlive hq (Block.page_mem _)
    obtain rfl : q₀ = q := by
      simp only [Block.mem_def, pow_zero] at hq₀
      omega
    -- the page of a table would be mapped
    obtain ⟨v, -, -, hv, hpa⟩ := hmap
    have hsame := hx (.leaf pid v) (.dir pid' l i) _ ⟨hv, hpa⟩ ⟨hne, hpage⟩
    cases hsame

/-- A page is mapped by one entry at most. -/
theorem Exclusive.mappedIn (hx : s.Exclusive) (hm : s.MappedIn pid lo hi q) {pid' v : Nat}
    (hv : (s.leaf pid' v).valid = true) (hpa : (s.leaf pid' v).pa = s.pmem.pageAddr q) :
    pid' = pid ∧ lo ≤ v ∧ v < hi := by
  obtain ⟨v', h1, h2, hv', hpa'⟩ := hm
  have heq := hx (.leaf pid' v) (.leaf pid v') _ ⟨hv, hpa⟩ ⟨hv', hpa'⟩
  cases heq
  exact ⟨rfl, h1, h2⟩

theorem WholeBlocks.spares (hw : s.WholeBlocks pid lo hi) (hx : s.Exclusive) : s.Spares pid lo hi :=
  fun q hq q' hq' _ _ hv hpa => hx.mappedIn (hw q hq q' hq') hv hpa

/-- The pages that `vmunmap` frees: those of the blocks that have a page mapped in the range. -/
theorem Ok.freed_iff (h : s.Ok arch live) (hu : Unmapped true s s' pid lo hi live live') :
    s'.pmem.FreePage q ∧ ¬s.pmem.FreePage q ↔ ∃ q₀, s.MappedIn pid lo hi q₀ ∧ q ∈ s.pmem.blockOf q₀ := by
  have hmanaged : s'.pmem.Managed = s.pmem.Managed := Pmem.managed_congr hu.same
  rw [hu.wf.freePage_iff, h.wf.freePage_iff, hmanaged]
  constructor
  · rintro ⟨⟨hm, hnew⟩, hold⟩
    obtain ⟨b, hb, hq⟩ : LivePage live q := by
      by_contra hlive
      exact hold ⟨hm, hlive⟩
    have ht : s.Touched pid lo hi b := by
      by_contra ht
      exact hnew ⟨b, (hu.live b).mpr ⟨hb, fun hf => ht hf.2⟩, hq⟩
    obtain ⟨q₀, hq₀, hmap⟩ := touched_iff.mp ht
    exact ⟨q₀, hmap, by rw [h.wf.blockOf hb hq₀]; exact hq⟩
  · rintro ⟨q₀, hmap, hq⟩
    obtain ⟨b, hb, hq₀⟩ := h.mapped_live hmap.mapped
    rw [h.wf.blockOf hb hq₀] at hq
    refine ⟨⟨h.wf.managed hb hq, ?_⟩, fun hf => hf.2 ⟨b, hb, hq⟩⟩
    rintro ⟨b', hb', hq'⟩
    obtain ⟨hb'', hnot⟩ := (hu.live b').mp hb'
    obtain rfl := h.wf.eq_of_mem hb hb'' hq hq'
    exact hnot ⟨rfl, touched_iff.mpr ⟨q₀, hq₀, hmap⟩⟩

/-- `vmunmap` frees exactly the pages of its range if and only if it takes whole blocks. -/
theorem Ok.freesExactly_iff (h : s.Ok arch live) (hx : s.Exclusive)
    (hu : Unmapped true s s' pid lo hi live live') :
    FreesExactly s s' pid lo hi ↔ s.WholeBlocks pid lo hi := by
  constructor
  · intro hf q hq q' hq'
    exact (hf.freed q').mp ((h.freed_iff hu).mpr ⟨q, hq, hq'⟩)
  · intro hw
    refine ⟨fun q => ?_, ?_⟩
    · rw [h.freed_iff hu]
      constructor
      · rintro ⟨q₀, hmap, hq⟩
        exact hw q₀ hmap q hq
      · intro hmap
        obtain ⟨b, hb, hq⟩ := h.mapped_live hmap.mapped
        exact ⟨q, hmap, by rw [h.wf.blockOf hb hq]; exact hq⟩
    · have hok := h.unmapped hu fun _ => h.apart hx (hw.spares hx)
      exact fun q hq => hok.mapped_not_free hq

/-! ## Runs -/

/-- The calls that map and unmap user memory, and what the rest of the kernel does with pages. -/
inductive VmCall where
  | uvmalloc (pid oldsz newsz perm : Nat)
  | uvmalloc1 (pid start end_ perm : Nat)
  | uvmGrow (pid oldsz newsz xperm : Nat)
  | vmunmap (pid va npages : Nat) (doFree : Bool)
  | kalloc (npages : Int)
  | kfree (page : Nat) (npages : Int)
  deriving DecidableEq

namespace VmCall

/-- The state after the call, `none` for a panic. -/
def run (arch : Arch) (s : Vmem) : VmCall → Option Vmem
  | uvmalloc pid oldsz newsz perm => (Vmem.uvmalloc arch pid oldsz newsz perm s).map Prod.snd
  | uvmalloc1 pid start end_ perm => (Vmem.uvmalloc1 arch pid start end_ perm s).map Prod.snd
  | uvmGrow pid oldsz newsz xperm => (Vmem.uvmGrow arch pid oldsz newsz xperm s).map Prod.snd
  | vmunmap pid va npages doFree => Vmem.vmunmap arch pid va npages doFree s
  | kalloc npages => (s.alloc npages).map Prod.snd
  | kfree page npages => s.free (s.pmem.pageAddr page) npages

/-- The call maps over no mapping and frees no block with a page mapped elsewhere. -/
def Orderly (s : Vmem) : VmCall → Prop
  | uvmalloc pid oldsz newsz _ => newsz < 2 ^ 64 ∧ s.CanMap pid (pgRoundUp oldsz) newsz
  | uvmalloc1 pid start end_ _ => end_ < 2 ^ 64 ∧ s.CanMap pid start end_
  | uvmGrow pid oldsz newsz _ => newsz < 2 ^ 64 ∧ s.CanMap pid (pgRoundUp oldsz) newsz
  | vmunmap pid va npages doFree => doFree = true → s.Spares pid (va / PGSIZE) (endPage va npages)
  | kalloc _ => True
  | kfree page npages => page < s.pmem.totalPages ∧ 0 < npages ∧
      npages ≤ 2 ^ (s.pmem.blockOf page).order ∧ ∀ q ∈ s.pmem.blockOf page, s.Unheld q

end VmCall

/-- An orderly call, with no unsafe rebuild of the allocator on the way. -/
def OrderlyStep (arch : Arch) (s s' : Vmem) : Prop :=
  ∃ c : VmCall, c.Orderly s ∧ c.run arch s = some s' ∧ s'.Safe

/-- The kernel after `pmem_init`, with no page table. -/
def boot (pmem : Pmem) : Vmem := { pmem, leaf := fun _ _ => Pte.zero, dir := fun _ _ _ => NULL, asked := [] }

theorem boot_ok (h : pmem.Wf []) : (boot pmem).Ok arch [] ∧ (boot pmem).Exclusive := by
  have hinvalid : ∀ pid v, ¬((boot pmem).leaf pid v).valid = true :=
    fun _ _ hv => Bool.noConfusion (hv.symm.trans valid_zero)
  have hnone : ∀ x a, ¬(boot pmem).Holds x a := by
    intro x a hx
    cases x with
    | leaf pid v => exact hinvalid pid v hx.1
    | dir pid l i => exact hx.1 rfl
  exact ⟨⟨h, fun x a hx => absurd hx (hnone x a), fun _ _ _ hne => absurd rfl hne,
    fun pid v hv => absurd hv (hinvalid pid v), fun pid v hv => absurd hv (hinvalid pid v)⟩,
    fun x y a hx => absurd hx (hnone x a)⟩

/-- The kernel gives a block back that nobody holds. -/
theorem Ok.kfree {n : Int} (h : s.Ok arch live) (hq : q < s.pmem.totalPages) (hn : 0 < n)
    (hle : n ≤ 2 ^ (s.pmem.blockOf q).order) (hun : ∀ q' ∈ s.pmem.blockOf q, s.Unheld q')
    (hf : s.free (s.pmem.pageAddr q) n = some s') :
    ∃ live', s'.Ok arch live' ∧ ∀ x a, s'.Holds x a → s.Holds x a := by
  obtain ⟨p, hcall, rfl⟩ := Option.map_eq_some_iff.mp hf
  by_cases hlive : LivePage live q
  · obtain ⟨b, hb, hqb⟩ := hlive
    have hblock := h.wf.blockOf hb hqb
    rw [hblock] at hle hun
    obtain ⟨p', hcall', hwf, hsame, -⟩ := h.wf.pmemFreePages hb hqb hn hle
    obtain rfl : p = p' := Option.some_inj.mp (hcall.symm.trans hcall')
    -- a page that is held is in another block
    have hkeep : ∀ b' ∈ live, ∀ q' ∈ b', ∀ x, s.Holds x (s.pmem.pageAddr q') → b' ∈ live.erase b := by
      intro b' hb' q' hq' x hx
      refine (h.wf.nodup.mem_erase_iff).mpr ⟨?_, hb'⟩
      rintro rfl
      exact hun q' hq' x hx
    refine ⟨live.erase b, ⟨hwf, ?_, ?_, h.tables, h.flags⟩, fun x a hx => (holds_congr rfl rfl).mp hx⟩
    · intro x a hx
      have hx' : s.Holds x a := (holds_congr rfl rfl).mp hx
      obtain ⟨q', rfl, b', hb', hq'⟩ := h.held x a hx'
      exact ⟨q', (hsame.pageAddr q').symm, b', hkeep b' hb' q' hq' x hx', hq'⟩
    · intro pid l i hne
      obtain ⟨q', heq, hb'⟩ := h.alone pid l i hne
      exact ⟨q', heq.trans (hsame.pageAddr q').symm,
        hkeep _ hb' q' (Block.page_mem _) (.dir pid l i) ⟨hne, heq⟩⟩
  · have hsame := h.wf.pmemFreePages_of_not_live hq hlive n
    obtain rfl : s.pmem = p := Option.some_inj.mp (hsame.symm.trans hcall)
    exact ⟨live, h, fun _ _ hx => hx⟩

/-- An orderly step keeps every held page live and held once. -/
theorem OrderlyStep.ok (hstep : OrderlyStep arch s s') (h : s.Ok arch live) (hx : s.Exclusive) :
    ∃ live', s'.Ok arch live' ∧ s'.Exclusive := by
  obtain ⟨c, hord, hrun, hsafe⟩ := hstep
  -- the three that only add memory
  have hgrown : ∀ P, (∃ live', Grown arch P s s' live live') → ∃ live', s'.Ok arch live' ∧ s'.Exclusive :=
    fun P ⟨live', hg⟩ => ⟨live', hg.ok, hg.excl hx⟩
  cases c with
  | uvmalloc pid oldsz newsz perm =>
    obtain ⟨hlt, hcan⟩ := hord
    obtain ⟨⟨r, s₁⟩, hcall, rfl⟩ := Option.map_eq_some_iff.mp hrun
    exact hgrown _ (uvmalloc_spec h hsafe hcan hlt hcall)
  | uvmalloc1 pid start end_ perm =>
    obtain ⟨hlt, hcan⟩ := hord
    obtain ⟨⟨r, s₁⟩, hcall, rfl⟩ := Option.map_eq_some_iff.mp hrun
    exact hgrown _ (uvmalloc1_spec h hsafe hcan hlt hcall)
  | uvmGrow pid oldsz newsz xperm =>
    obtain ⟨hlt, hcan⟩ := hord
    obtain ⟨⟨r, s₁⟩, hcall, rfl⟩ := Option.map_eq_some_iff.mp hrun
    exact hgrown _ (uvmGrow_spec h hsafe hcan hlt hcall)
  | vmunmap pid va npages doFree =>
    have hva : va % PGSIZE = 0 := by
      by_contra hne
      have hnone : vmunmap arch pid va npages doFree s = none := by rw [vmunmap, if_pos hne]
      rw [VmCall.run, hnone] at hrun
      cases hrun
    rcases vmunmap_spec doFree h.wf hva (h.readable pid _ _) with ⟨-, hnone⟩ | ⟨s₁, live', hsome, hu⟩
    · rw [VmCall.run, hnone] at hrun
      cases hrun
    · obtain rfl : s₁ = s' := Option.some_inj.mp (hsome.symm.trans hrun)
      exact ⟨live', h.unmapped hu fun hf => h.apart hx (hord hf), hu.excl hx⟩
  | kalloc npages =>
    obtain ⟨⟨ptr, s₁⟩, ha, rfl⟩ := Option.map_eq_some_iff.mp hrun
    rcases h.alloc hsafe ha with ⟨-, hg⟩ | ⟨b, -, -, -, -, hg, -⟩
    · exact hgrown _ ⟨_, hg⟩
    · exact hgrown _ ⟨_, hg⟩
  | kfree page npages =>
    obtain ⟨hq, hn, hle, hun⟩ := hord
    obtain ⟨live', hok, hold⟩ := h.kfree hq hn hle hun hrun
    exact ⟨live', hok, fun x y a hxa hya => hx x y a (hold x a hxa) (hold y a hya)⟩

theorem orderly_ok {start end_ : Nat} (hregion : ValidRegion start end_) {mem : Nat → UInt8}
    (hinit : buddyInit start end_ mem = some pmem) (hrun : Reaches (OrderlyStep arch) (boot pmem) s) :
    ∃ live, s.Ok arch live ∧ s.Exclusive := by
  obtain ⟨p, L, hinit', -, -, -, hinv, -⟩ := buddyInit_inv hregion mem
  obtain rfl : p = pmem := Option.some_inj.mp (hinit'.symm.trans hinit)
  refine hrun.invariant (I := fun t => ∃ live, t.Ok arch live ∧ t.Exclusive) ⟨[], boot_ok ⟨L, hinv⟩⟩ ?_
  rintro t t' ⟨live, hok, hx⟩ hstep
  exact hstep.ok hok hx

/-- In every orderly run no mapped page is free, no request is answered with a mapped page, and a
`vmunmap` that releases its pages frees exactly the pages mapped in its range if and only if each
block with a page mapped there is mapped there as a whole. -/
theorem vmunmap_ownership {start end_ : Nat} (hregion : ValidRegion start end_) {mem : Nat → UInt8}
    {pmem : Pmem} (hinit : buddyInit start end_ mem = some pmem)
    (hrun : Reaches (OrderlyStep arch) (boot pmem) s) :
    (∀ q, s.Mapped q → ¬s.pmem.FreePage q) ∧
    (∀ n ptr s', s.alloc n = some (ptr, s') → s'.Safe → ptr ≠ NULL →
      ∀ q, s.Mapped q → ¬(ptr ≤ s.pmem.pageAddr q ∧ s.pmem.pageAddr q < ptr + n.toNat * PGSIZE)) ∧
    ∀ pid va n, va % PGSIZE = 0 → va + n * PGSIZE ≤ MAXVA arch →
      ∃ s', vmunmap arch pid va n true s = some s' ∧
        (FreesExactly s s' pid (va / PGSIZE) (va / PGSIZE + n) ↔
          s.WholeBlocks pid (va / PGSIZE) (va / PGSIZE + n)) := by
  obtain ⟨live, h, hx⟩ := orderly_ok hregion hinit hrun
  refine ⟨fun q hq => h.mapped_not_free hq, ?_, ?_⟩
  · rintro n ptr s' ha hsafe hne q hq ⟨h1, h2⟩
    rcases h.alloc hsafe ha with ⟨hnull, -⟩ | ⟨b, rfl, -, hroom, -, hg, hb⟩
    · exact hne hnull
    · -- the page would lie in the new block
      have hin : q ∈ b := by
        rw [hg.same.pageAddr] at h1 h2
        have hroom' : n.toNat ≤ 2 ^ b.order := Int.toNat_le.mpr (by exact_mod_cast hroom)
        simp only [Pmem.pageAddr, PGSIZE, Block.mem_def] at h1 h2 ⊢
        omega
      exact (hb q hin).1 (h.mapped_live hq)
  · intro pid va n hva hmax
    have hend : endPage va n = va / PGSIZE + n := by
      have := MAXVA_le arch
      simp only [endPage, add64, PGSIZE] at *
      omega
    rcases vmunmap_spec true h.wf hva (h.readable pid _ (endPage va n)) with ⟨hover, -⟩ | ⟨s', live', hcall, hu⟩
    · simp only [hend, PGSIZE] at *
      omega
    · rw [hend] at hu
      exact ⟨s', hcall, h.freesExactly_iff hx hu⟩

/-! ## Two pages of one block -/

/-- One page can be had as long as there is a free page. -/
theorem Ok.alloc_one (h : s.Ok arch live) (hsafe : s.Safe) (hq : s.pmem.Managed q) (hnot : ¬LivePage live q) :
    ∃ p s', s.alloc 1 = some (s'.pmem.pageAddr p, s') ∧ s'.pmem.pageAddr p ≠ NULL ∧ s'.Safe ∧
      s'.Ok arch (⟨p, 0⟩ :: live) ∧ SameRegion s.pmem s'.pmem := by
  obtain ⟨hask, p, pm, hcall, hne, -⟩ := h.wf.pmemAllocPages_one hq hnot
  have ha : s.alloc 1 = some (s.pmem.pageAddr p, { s with pmem := pm, asked := (s.pmem, 1) :: s.asked }) := by
    rw [Vmem.alloc, hcall]
    rfl
  have hsafe' : Safe { s with pmem := pm, asked := (s.pmem, 1) :: s.asked } := by
    intro r hr
    rcases List.mem_cons.mp hr with rfl | hr
    · exact hask
    · exact hsafe r hr
  rcases h.alloc hsafe' ha with ⟨hnull, -⟩ | ⟨b, hptr, hne', -, hord, hg, -⟩
  · exact absurd hnull hne
  · refine ⟨b.page, _, ?_, ?_, hsafe', ?_, hg.same⟩
    · rw [← hptr]
      exact ha
    · rw [← hptr]
      exact hne'
    · rw [← block_of_getOrder_one hord]
      exact hg.ok

/-- With as many free pages as there are levels the walk finds its entry. -/
theorem walkLevels_succeeds (h : s.Ok arch live) (hsafe : s.Safe)
    (hnd : Q.Nodup) (hlen : l ≤ Q.length) (hfree : ∀ q ∈ Q, s.pmem.Managed q ∧ ¬LivePage live q) :
    ∃ s', walkLevels pid va l s = some (true, s') ∧ s'.Safe := by
  induction l generalizing s live Q with
  | zero => exact ⟨s, rfl, hsafe⟩
  | succ l ih =>
    rw [walkLevels]
    split
    · exact ih h hsafe hnd (by omega) hfree
    · obtain ⟨q, hq⟩ : ∃ q, q ∈ Q := List.exists_mem_of_length_pos (by omega)
      obtain ⟨p, s₁, ha, hne, hsafe₁, hok, hsame⟩ := h.alloc_one hsafe (hfree q hq).1 (hfree q hq).2
      rw [ha, Option.bind_some]
      simp only [if_neg hne]
      have hset : (s₁.setDir pid (l + 1) (dirIndex va (l + 1)) (s₁.pmem.pageAddr p)).Ok arch
          (⟨p, 0⟩ :: live) := hok.setDir (List.mem_cons_self ..) hne
      refine ih hset hsafe₁ (hnd.erase p) ?_ ?_
      · rw [List.length_erase]
        split <;> omega
      · intro q' hq'
        obtain ⟨hqp, hqQ⟩ := (hnd.mem_erase_iff).mp hq'
        obtain ⟨hm, hl⟩ := hfree q' hqQ
        refine ⟨?_, ?_⟩
        · show s₁.pmem.Managed q'
          rw [Pmem.managed_congr hsame]
          exact hm
        · rintro ⟨b, hb, hqb⟩
          rcases List.mem_cons.mp hb with rfl | hb
          · simp only [Block.mem_def, pow_zero] at hqb
            omega
          · exact hl ⟨b, hb, hqb⟩

theorem walkLevels_of_dir (h : ∀ j < l, s.dir pid (j + 1) (dirIndex va (j + 1)) ≠ NULL) :
    walkLevels pid va l s = some (true, s) := by
  induction l with
  | zero => rfl
  | succ l ih =>
    rw [walkLevels, if_pos (h l (by omega))]
    exact ih fun j hj => h j (by omega)

/-- Two vacant pages can be mapped if there are two free pages for tables. -/
theorem mappages_two {pa perm : Nat} (h : s.Ok .riscv live) (hsafe : s.Safe)
    (hnd : Q.Nodup) (hlen : 2 ≤ Q.length) (hfree : ∀ q ∈ Q, s.pmem.Managed q ∧ ¬LivePage live q)
    (hvac : s.Vacant pid 1 3) (hpa : pa % PGSIZE = 0) :
    ∃ s', mappages .riscv pid 0x1000 pa 0x2000 perm s = some (1, s') ∧ s'.Safe := by
  obtain ⟨s₁, hwalk, hsafe₁⟩ : ∃ s₁, walkLevels pid 0x1000 2 s = some (true, s₁) ∧ s₁.Safe :=
    walkLevels_succeeds h hsafe hnd hlen hfree
  obtain ⟨live₁, hg, hdir⟩ := walkLevels_spec h hsafe₁ hwalk
  have hleaf := hg.leaf_eq
  -- the second page needs the same tables
  have hwalk' : ∀ pte, walkLevels pid 0x2000 2 (s₁.setLeaf pid 1 pte) = some (true, s₁.setLeaf pid 1 pte) := by
    intro pte
    refine walkLevels_of_dir fun j hj => ?_
    have hidx : dirIndex 0x2000 (j + 1) = dirIndex 0x1000 (j + 1) := by
      obtain rfl | rfl : j = 0 ∨ j = 1 := by omega
      · rfl
      · rfl
    rw [hidx]
    exact hdir rfl j hj
  have h1 : (s₁.leaf pid 1).valid = false := by
    rw [hleaf]
    exact hvac 1 (le_refl _) (by decide)
  have h2 : ∀ pte, ((s₁.setLeaf pid 1 pte).leaf pid 2).valid = false := by
    intro pte
    rw [setLeaf_leaf, if_neg (by simp), hleaf]
    exact hvac 2 (by decide) (by decide)
  have hround1 : walkAlloc .riscv pid 0x1000 s = some (true, s₁) := hwalk
  have hround2 : ∀ pte, walkAlloc .riscv pid 0x2000 (s₁.setLeaf pid 1 pte) =
      some (true, s₁.setLeaf pid 1 pte) := hwalk'
  refine ⟨(s₁.setLeaf pid 1 ⟨pa, perm ||| PTE_V⟩).setLeaf pid 2 ⟨add64 pa PGSIZE, perm ||| PTE_V⟩, ?_, hsafe₁⟩
  have hbounds : ¬(0x1000 ≥ MAXVA .riscv ∨ pa % PGSIZE ≠ 0) := by
    rw [hpa]
    decide
  rw [mappages, if_neg hbounds]
  show mappagesLoop .riscv pid perm 0x2000 3 0x1000 pa s = _
  rw [mappagesLoop, hround1]
  show (if (s₁.leaf pid 1).valid = true then _ else _) = _
  rw [h1]
  show mappagesLoop .riscv pid perm 0x2000 2 0x2000 (add64 pa PGSIZE)
    (s₁.setLeaf pid 1 ⟨pa, perm ||| PTE_V⟩) = _
  rw [mappagesLoop, hround2]
  show (if ((s₁.setLeaf pid 1 _).leaf pid 2).valid = true then _ else _) = _
  rw [h2]
  rfl

/-- In a region of sixteen pages, two pages mapped at page 1 of process 1 are pages 8 and 9. -/
theorem uvmalloc1_twoPages :
    ∃ pmem s live, buddyInit 0x80000000 0x80010000 (fun _ => 0) = some pmem ∧
      uvmalloc1 .riscv 1 0x1000 0x3000 (PTE_W .riscv) (boot pmem) = some (1, s) ∧ s.Safe ∧
      s.Ok .riscv live ∧ s.Exclusive ∧ ⟨8, 1⟩ ∈ live ∧ SameRegion pmem s.pmem ∧
      MapsRange s (boot pmem) 1 1 3 8 (userPerm .riscv (PTE_W .riscv) ||| PTE_V) := by
  obtain ⟨pmem, L, hinit, hstart, hend, -, hinv, hlisted⟩ := buddyInit_inv validRegion_sixteenPages fun _ => 0
  have htotal : pmem.totalPages = 16 := by
    have := hinv.region.end_eq
    rw [hstart, hend] at this
    simp only [PGSIZE] at this
    omega
  have htop : pmem.topOrder = some 3 := by
    rw [Pmem.topOrder, Pmem.metaEnd, hstart, hend, htotal]
    decide
  have hplaced : pmem.Placed ⟨8, 3⟩ := by
    rw [Pmem.Placed, hstart, htotal]
    exact ⟨by decide, by decide, by decide, by decide⟩
  have hmanaged : ∀ q, 8 ≤ q → q < 16 → pmem.Managed q := fun q h1 h2 => ⟨⟨8, 3⟩, htop, hplaced, h1, h2⟩
  -- the block that answers the request starts at page 8
  obtain ⟨hask, p, k, pm, hp, hcall, hne, -, -⟩ := hinv.pmemAllocPages_listed (n := 2) (o := 1) (b := ⟨8, 3⟩)
    (by decide) rfl ((hlisted ⟨8, 3⟩).mpr ⟨htop, hplaced⟩) (by decide)
  obtain rfl : p = 8 := by
    obtain ⟨hk, hpk⟩ := (hlisted ⟨p, k⟩).mp hp
    obtain rfl : 3 = k := Option.some_inj.mp (htop.symm.trans hk)
    rw [Pmem.Placed, hstart, htotal] at hpk
    have hfits : p + 8 ≤ 16 := hpk.fits
    have haligned : (0x80000 + p) % 8 = 0 := hpk.aligned
    have hmeta : 1 ≤ p := hpk.meta_le
    omega
  have ha : (boot pmem).alloc 2 =
      some (pmem.pageAddr 8, { boot pmem with pmem := pm, asked := [(pmem, 2)] }) := by
    have hcall' : (boot pmem).pmem.pmemAllocPages 2 = some (pmem.pageAddr 8, pm) := hcall
    rw [Vmem.alloc, hcall']
    rfl
  generalize hs₁ : ({ boot pmem with pmem := pm, asked := [(pmem, 2)] } : Vmem) = s₁ at ha
  have hsafe₁ : s₁.Safe := by
    rw [← hs₁]
    intro r hr
    obtain rfl := List.mem_singleton.mp hr
    exact hask
  have hboot : (boot pmem).Ok .riscv [] ∧ (boot pmem).Exclusive := boot_ok ⟨L, hinv⟩
  obtain ⟨hok₀, hx₀⟩ := hboot
  have hg₀ : Grown .riscv (inRange 1 1 3) (boot pmem) (boot pmem) [] [] := Grown.refl hok₀
  obtain ⟨b, hptr, hord, hg, hpages⟩ := hg₀.fresh (n := 2) hsafe₁ (le_refl _) hne ha
  have hb : b = ⟨8, 1⟩ := by
    have hpage : 8 = b.page := by
      rw [hg.same.pageAddr] at hptr
      exact Pmem.pageAddr_inj hptr
    have horder : b.order = 1 := by
      have hone : getOrder ((2 : Nat) : Int).toNat = 1 := rfl
      rw [hone] at hord
      exact_mod_cast hord.symm
    rw [hpage, ← horder]
  subst hb
  have hleaf₁ : s₁.leaf = (boot pmem).leaf := by rw [← hs₁]
  have hvac : (s₁.memset (pmem.pageAddr 8) (2 * PGSIZE)).Vacant 1 1 3 := by
    intro v _ _
    rw [memset_leaf, hleaf₁]
    exact valid_zero
  have hfree : ∀ q ∈ [10, 11], (s₁.memset (pmem.pageAddr 8) (2 * PGSIZE)).pmem.Managed q ∧
      ¬LivePage [⟨8, 1⟩] q := by
    intro q hq
    have hrange : 10 ≤ q ∧ q < 12 := by
      simp only [List.mem_cons, List.not_mem_nil, or_false] at hq
      omega
    refine ⟨?_, ?_⟩
    · rw [Pmem.managed_congr hg.same]
      exact hmanaged q (by omega) (by omega)
    · rintro ⟨b, hb, hqb⟩
      obtain rfl := List.mem_singleton.mp hb
      have : q < 8 + 2 := hqb.2
      omega
  have hpa : pmem.pageAddr 8 % PGSIZE = 0 := by
    rw [Pmem.pageAddr, hstart]
    rfl
  obtain ⟨s', hmap, hsafe'⟩ : ∃ s', mappages .riscv 1 0x1000 (pmem.pageAddr 8) 0x2000
      (userPerm .riscv (PTE_W .riscv)) (s₁.memset (pmem.pageAddr 8) (2 * PGSIZE)) = some (1, s') ∧
      s'.Safe := mappages_two hg.ok hsafe₁ (by decide) (by decide) hfree hvac hpa
  obtain ⟨-, live', hg', hsub, hmaps⟩ := mappages_spec (n := 2) hg hsafe' hptr (by decide) (by decide)
    (fun v h1 h2 => ⟨rfl, h1, h2⟩) hvac hpages (flags_userPerm .riscv · _) hmap
  refine ⟨pmem, s', live', hinit, ?_, hsafe', hg'.ok, hg'.excl hx₀, hsub _ (List.mem_cons_self ..),
    hg'.same, ?_⟩
  · have htry : tryBlock .riscv 1 0x1000 2 (PTE_W .riscv) (boot pmem) = some (.mapped, s') := by
      rw [tryBlock, if_pos (by decide), toInt32_of_lt (by decide)]
      show ((boot pmem).alloc 2).bind _ = _
      rw [ha, Option.bind_some]
      simp only [if_pos hne]
      show (mappages .riscv 1 0x1000 (pmem.pageAddr 8) 0x2000 _ _).bind _ = _
      rw [hmap]
      rfl
    rw [uvmalloc1, if_neg (by decide)]
    show (tryBlock .riscv 1 0x1000 2 (PTE_W .riscv) (boot pmem)).bind _ = _
    rw [htry]
    rfl
  · intro pid v
    rw [hmaps pid v, memset_leaf, hleaf₁, hg.same.pageAddr]

section TwoPages

variable {pmem : Pmem} (h : s.Ok .riscv live) (hb : ⟨8, 1⟩ ∈ live) (hsame : SameRegion pmem s.pmem)
  (hmaps : MapsRange s (boot pmem) 1 1 3 8 (userPerm .riscv (PTE_W .riscv) ||| PTE_V))

include hsame hmaps in
/-- Virtual pages 1 and 2 map the physical pages 8 and 9. -/
theorem mappedIn_twoPages {v : Nat} (h1 : 1 ≤ v) (h2 : v < 3) (hlo : lo ≤ v) (hhi : v < hi) :
    s.MappedIn 1 lo hi (v + 7) := by
  have hleaf := hmaps 1 v
  rw [if_pos ⟨rfl, h1, h2⟩] at hleaf
  refine ⟨v, hlo, hhi, ?_, ?_⟩
  · rw [hleaf]
    exact valid_mk _ _
  · rw [hleaf, hsame.pageAddr]
    show pmem.pageAddr (8 + (v - 1)) = _
    rw [show 8 + (v - 1) = v + 7 by omega]

include h hb in
theorem blockOf_twoPages (hq : q = 8 ∨ q = 9) : s.pmem.blockOf q = ⟨8, 1⟩ := by
  refine h.wf.blockOf hb ?_
  rcases hq with rfl | rfl <;> decide

include hsame hmaps in
theorem eq_of_mappedIn_twoPages (hm : s.MappedIn 1 lo hi q) (hlo : 1 ≤ lo) (hhi : hi ≤ 3) :
    ∃ v, lo ≤ v ∧ v < hi ∧ q = v + 7 := by
  obtain ⟨v, h1, h2, -, hpa⟩ := hm
  have hleaf := hmaps 1 v
  rw [if_pos ⟨rfl, by omega, by omega⟩] at hleaf
  refine ⟨v, h1, h2, ?_⟩
  rw [hleaf, hsame.pageAddr] at hpa
  have heq : 8 + (v - 1) = q := Pmem.pageAddr_inj hpa
  omega

end TwoPages

/-- Mapping two pages and unmapping both of them again is fine. -/
theorem vmunmap_ownership_twoPages :
    ∃ pmem s s', buddyInit 0x80000000 0x80010000 (fun _ => 0) = some pmem ∧
      Reaches (OrderlyStep .riscv) (boot pmem) s ∧ s.Mapped 9 ∧ ¬s.pmem.FreePage 9 ∧
      vmunmap .riscv 1 0x1000 2 true s = some s' ∧ FreesExactly s s' 1 1 3 := by
  obtain ⟨pmem, s, live, hinit, hcall, hsafe, h, -, hb, hsame, hmaps⟩ := uvmalloc1_twoPages
  have hcan : (boot pmem).CanMap 1 0x1000 0x3000 := ⟨by decide, by decide, fun _ _ _ => valid_zero⟩
  have hstep : OrderlyStep .riscv (boot pmem) s := by
    refine ⟨.uvmalloc1 1 0x1000 0x3000 (PTE_W .riscv), ⟨by decide, hcan⟩, ?_, hsafe⟩
    rw [VmCall.run, hcall]
    rfl
  have hrun : Reaches (OrderlyStep .riscv) (boot pmem) s := .single hstep
  have hin : s.MappedIn 1 1 3 (2 + 7) :=
    mappedIn_twoPages hsame hmaps (by decide) (by decide) (by decide) (by decide)
  have hmapped : s.Mapped 9 := hin.mapped
  obtain ⟨hfree, -, hunmap⟩ := vmunmap_ownership validRegion_sixteenPages hinit hrun
  obtain ⟨s', hun, hiff⟩ := hunmap 1 0x1000 2 (by decide) (by decide)
  have hiff' : FreesExactly s s' 1 1 3 ↔ s.WholeBlocks 1 1 3 := hiff
  refine ⟨pmem, s, s', hinit, hrun, hmapped, hfree 9 hmapped, hun, hiff'.mpr ?_⟩
  intro q hq q' hq'
  obtain ⟨v, h1, h2, rfl⟩ := eq_of_mappedIn_twoPages hsame hmaps hq (le_refl _) (le_refl _)
  rw [blockOf_twoPages h hb (by omega)] at hq'
  obtain ⟨v', rfl⟩ : ∃ v', q' = v' + 7 := ⟨q' - 7, by have : 8 ≤ q' := hq'.1; omega⟩
  have h8 : 8 ≤ v' + 7 := hq'.1
  have h10 : v' + 7 < 8 + 2 := hq'.2
  exact mappedIn_twoPages hsame hmaps (by omega) (by omega) (by omega) (by omega)

/-- Unmapping only the first of the two pages frees both: the second one stays mapped and is free. -/
theorem not_freesExactly_firstPage :
    ∃ pmem s s', buddyInit 0x80000000 0x80010000 (fun _ => 0) = some pmem ∧
      uvmalloc1 .riscv 1 0x1000 0x3000 (PTE_W .riscv) (boot pmem) = some (1, s) ∧
      vmunmap .riscv 1 0x1000 1 true s = some s' ∧ s'.Mapped 9 ∧ s'.pmem.FreePage 9 ∧
      ¬FreesExactly s s' 1 1 2 := by
  obtain ⟨pmem, s, live, hinit, hcall, hsafe, h, hx, hb, hsame, hmaps⟩ := uvmalloc1_twoPages
  have hspec : (MAXVA .riscv < endPage 0x1000 1 * PGSIZE ∧ vmunmap .riscv 1 0x1000 1 true s = none) ∨
      ∃ s' live', vmunmap .riscv 1 0x1000 1 true s = some s' ∧ Unmapped true s s' 1 1 2 live live' :=
    vmunmap_spec true h.wf (by decide) (h.readable 1 _ _)
  obtain ⟨hover, -⟩ | ⟨s', live', hun, hu⟩ := hspec
  · exact absurd hover (by decide)
  · have hfirst : s.MappedIn 1 1 2 (1 + 7) :=
      mappedIn_twoPages hsame hmaps (by decide) (by decide) (by decide) (by decide)
    have hsecond : s.MappedIn 1 2 3 (2 + 7) :=
      mappedIn_twoPages hsame hmaps (by decide) (by decide) (by decide) (by decide)
    have hfree : s'.pmem.FreePage 9 := by
      refine ((h.freed_iff hu).mpr ⟨8, hfirst, ?_⟩).1
      rw [blockOf_twoPages h hb (.inl rfl)]
      decide
    have hmapped : s'.Mapped 9 := by
      obtain ⟨v, h1, h2, hv, hpa⟩ := hsecond
      have hleaf : s'.leaf 1 v = s.leaf 1 v := hu.leaf_off (by omega)
      refine ⟨1, v, by rw [hleaf]; exact hv, ?_⟩
      rw [hleaf, hu.same.pageAddr]
      exact hpa
    exact ⟨pmem, s, s', hinit, hcall, hun, hmapped, hfree, fun hf => hf.mapped 9 hmapped hfree⟩

end Vmem

end SC7
