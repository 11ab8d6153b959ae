-- SUMMARY: Runs of `pmem_alloc_pages` and `pmem_free_pages`: what a release frees, and which requests are served.
import SC7.Mem.PmemPages

/-!
# Calls of the page allocator

The kernel allocates by a number of pages and releases by any pointer. A state is the allocator with
the blocks its callers hold. As long as every emergency rebuild is safe, the held blocks are the live
blocks of the allocator (`Heap.SafelyReachable.wf`): a release then takes back the block around the
pointer or does nothing, and a request of at most `2 ^ (BUDDY_MAX_ORDER - 1)` pages is served whenever
a listed block is large enough.
-/

namespace SC7

open Pmem

/-! ## Runs -/

/-- A call of the page allocator. -/
inductive PmemCall where
  | alloc (npages : Int)
  | free (ptr : Nat) (npages : Int)

/-- `pmem_free_pages(ptr, npages)` is meant to take back `e`: the pointer lies in it, and it is not
asked for more pages than it has. -/
def Extent.ReleasedBy (e : Extent) (ptr : Nat) (npages : Int) : Prop :=
  e.Contains ptr ∧ 0 < npages ∧ npages ≤ 2 ^ e.order

instance (e : Extent) (a : Nat) : Decidable (e.Contains a) :=
  inferInstanceAs (Decidable (e.addr ≤ a ∧ a < e.limit))

instance (e : Extent) (ptr : Nat) (npages : Int) : Decidable (e.ReleasedBy ptr npages) :=
  inferInstanceAs (Decidable (e.Contains ptr ∧ 0 < npages ∧ npages ≤ 2 ^ e.order))

/-- What a call leads to; the block that `pmem_alloc_pages` returns is held with the order that
`get_order` computes. -/
inductive Heap.Call : PmemCall → Heap → Heap → Prop where
  | alloc {h : Heap} {npages : Int} {addr : Nat} {s : Pmem} :
      h.pmem.pmemAllocPages npages = some (addr, s) → addr ≠ NULL →
      Heap.Call (.alloc npages) h ⟨s, ⟨addr, (getOrder npages.toNat).toNat⟩ :: h.live⟩
  | allocNull {h : Heap} {npages : Int} {s : Pmem} :
      h.pmem.pmemAllocPages npages = some (NULL, s) → Heap.Call (.alloc npages) h ⟨s, h.live⟩
  | free {h : Heap} {ptr : Nat} {npages : Int} {s : Pmem} :
      h.pmem.pmemFreePages ptr npages = some s →
      Heap.Call (.free ptr npages) h ⟨s, h.live.filter fun e => ¬e.ReleasedBy ptr npages⟩

/-- A request falls back on the emergency rebuild only when that is safe. -/
def PmemCall.Safe (s : Pmem) : PmemCall → Prop
  | .alloc npages => s.AllocSafe npages
  | .free _ _ => True

/-- A state that calls can lead to after `buddy_init(start, end_)`. -/
def Heap.CallReachable (start end_ : Nat) (mem : Nat → UInt8) (h : Heap) : Prop :=
  ∃ s, buddyInit start end_ mem = some s ∧ Reaches (fun h h' => ∃ c, Heap.Call c h h') ⟨s, []⟩ h

/-- A state that safe calls can lead to. -/
def Heap.SafelyReachable (start end_ : Nat) (mem : Nat → UInt8) (h : Heap) : Prop :=
  ∃ s, buddyInit start end_ mem = some s ∧
    Reaches (fun h h' => ∃ c, c.Safe h.pmem ∧ Heap.Call c h h') ⟨s, []⟩ h

/-! ## One release -/

namespace Pmem

variable {s : Pmem} {live : List Block} {b : Block} {q ptr : Nat}

theorem Wf.test_iff (h : s.Wf live) (hq : q < s.totalPages) :
    s.bitmap.test q = true ↔ q < metaPages s.totalPages ∨ ∃ b ∈ live, q ∈ b := by
  obtain ⟨L, hinv⟩ := h
  constructor
  · exact hinv.core.used_cases hq
  · rintro (hm | ⟨b, hb, hqb⟩)
    · exact (hinv.core.metadata q hm).1
    · exact (hinv.core.alive b hb).2.2 q hqb

/-- The page that an address of the region lies in. -/
theorem exists_page_of_mem (hr : s.Region) (hlo : s.memStart ≤ ptr) (hhi : ptr < s.memEnd) :
    ∃ q < s.totalPages, s.pageIdx ptr = q ∧ s.pageAddr q ≤ ptr ∧ ptr < s.pageAddr q + PGSIZE := by
  have h1 := hr.end_eq
  have h2 := hr.end_lt
  refine ⟨s.pageIdx ptr, ?_, rfl, ?_, ?_⟩ <;> simp only [pageIdx, sub64, pageAddr, PGSIZE] at * <;> omega

/-- A page of a placed block contains an address of the block, and the other way round. -/
theorem contains_iff_page (hlo : s.pageAddr q ≤ ptr) (hhi : ptr < s.pageAddr q + PGSIZE) :
    (s.extent b).Contains ptr ↔ q ∈ b := by
  rw [Extent.Contains, limit_extent, Block.mem_def]
  simp only [extent, pageAddr, PGSIZE] at *
  omega

/-- Outside the region nothing is released. -/
theorem pmemFreePages_outside (h : ptr < s.memStart ∨ ptr ≥ s.memEnd) (n : Int) : s.pmemFreePages ptr n = some s := by
  unfold Pmem.pmemFreePages
  simp only [if_pos h, ite_self]

/-- A pointer into the metadata is refused. -/
theorem Wf.pmemFreePages_metadata (h : s.Wf live) (hidx : s.pageIdx ptr < metaPages s.totalPages)
    (n : Int) : s.pmemFreePages ptr n = some s := by
  obtain ⟨L, hinv⟩ := h
  have hneg : (-1 : Int) < 0 ∨ (-1 : Int) > BUDDY_MAX_ORDER := .inl (by decide)
  unfold Pmem.pmemFreePages
  simp only [(hinv.core.metadata _ hidx).2, if_pos hneg, ite_self]

/-- Within a page the pointer makes no difference. -/
theorem pmemFreePages_page (hr : s.Region) (hq : q < s.totalPages) (hmeta : metaPages s.totalPages ≤ q)
    (hlo : s.pageAddr q ≤ ptr) (hhi : ptr < s.pageAddr q + PGSIZE) (n : Int) :
    s.pmemFreePages ptr n = s.pmemFreePages (s.pageAddr q) n := by
  have hne := pageAddr_ne_zero hq hmeta
  have hptr : ptr ≠ NULL := by
    simp only [NULL] at *
    omega
  have hend := hr.end_eq
  have hend' := hr.end_lt
  have hin : ∀ a, s.pageAddr q ≤ a → a < s.pageAddr q + PGSIZE → ¬(a < s.memStart ∨ a ≥ s.memEnd) := by
    intro a h1 h2
    simp only [pageAddr, PGSIZE] at *
    omega
  have hidx : s.pageIdx ptr = s.pageIdx (s.pageAddr q) := by
    rw [pageIdx_pageAddr hr (Nat.le_of_lt hq)]
    simp only [pageIdx, sub64, pageAddr, PGSIZE] at *
    omega
  unfold Pmem.pmemFreePages
  simp only [hptr, hne, false_or, if_neg (hin ptr hlo hhi),
    if_neg (hin (s.pageAddr q) (le_refl _) (by simp [PGSIZE])), hidx]

/-- A release that asks for more pages than the block has is refused. -/
theorem Wf.pmemFreePages_of_gt (h : s.Wf live) (hb : b ∈ live) (hq : q ∈ b) {n : Int}
    (hgt : n ≤ 0 ∨ 2 ^ b.order < n) : s.pmemFreePages (s.pageAddr q) n = some s := by
  have hplaced := h.placed hb
  have hqlt := hplaced.mem_lt hq
  have hidx : s.pageIdx (s.pageAddr q) = q := pageIdx_pageAddr h.region (Nat.le_of_lt hqlt)
  have hsize : 0 < n → ((1 <<< b.order : Nat) : Int) < n := by
    intro hpos
    rw [Nat.one_shiftLeft]
    push_cast
    omega
  unfold Pmem.pmemFreePages
  split
  · rfl
  · rename_i hptr
    have hpos : 0 < n := by
      by_contra hle
      exact hptr (.inr (by omega))
    simp only [hidx, if_neg (Nat.not_le.mpr hqlt), h.recorded hb q hq, Int.toNat_natCast,
      if_pos (hsize hpos), ite_self]

end Pmem

/-- What `pmem_free_pages(ptr, npages)` does to an allocator with the live blocks `live`: nothing if it
takes back no block, and otherwise it takes back the one block around the pointer. -/
structure Pmem.Release (s : Pmem) (live : List Block) (ptr : Nat) (npages : Int) (s' : Pmem)
    (live' : List Block) : Prop where
  call : s.pmemFreePages ptr npages = some s'
  wf : s'.Wf live'
  same : SameRegion s s'
  live_eq : live' = live.filter fun b => ¬(s.extent b).ReleasedBy ptr npages
  cases : (s' = s ∧ live' = live) ∨
    ∃ b ∈ live, (s.extent b).ReleasedBy ptr npages ∧ ∀ b' ∈ live, (s.extent b').Contains ptr → b' = b

/-- `pmem_free_pages` on any pointer. -/
theorem Pmem.Wf.pmemFreePages_ptr {s : Pmem} {live : List Block} (h : s.Wf live) (ptr : Nat) (n : Int) :
    ∃ s' live', Release s live ptr n s' live' := by
  -- the call does nothing, and no live block is to be released
  have hnone : s.pmemFreePages ptr n = some s →
      (∀ b ∈ live, ¬(s.extent b).ReleasedBy ptr n) → Release s live ptr n s live := by
    intro hcall hno
    refine ⟨hcall, h, SameRegion.refl s, ?_, .inl ⟨rfl, rfl⟩⟩
    exact (List.filter_eq_self.mpr fun b hb => decide_eq_true (hno b hb)).symm
  by_cases hout : ptr < s.memStart ∨ ptr ≥ s.memEnd
  · refine ⟨s, live, hnone (pmemFreePages_outside hout n) fun b hb hrel => ?_⟩
    have hrange := range_extent h.region (h.placed hb)
    have hcont := hrel.1
    simp only [Extent.Contains, metaEnd] at *
    omega
  · have hin : s.memStart ≤ ptr ∧ ptr < s.memEnd := by omega
    obtain ⟨q, hq, hidx, hlo, hhi⟩ := exists_page_of_mem h.region hin.1 hin.2
    have hpage : ∀ b, (s.extent b).Contains ptr ↔ q ∈ b := fun b => contains_iff_page hlo hhi
    by_cases hmeta : q < metaPages s.totalPages
    · refine ⟨s, live, hnone (h.pmemFreePages_metadata (hidx.symm ▸ hmeta) n) fun b hb hrel => ?_⟩
      have := (h.placed hb).meta_le_mem ((hpage b).mp hrel.1)
      omega
    · have hsame := pmemFreePages_page h.region hq (by omega) hlo hhi n
      by_cases hlive : ∃ b ∈ live, q ∈ b
      · obtain ⟨b, hb, hqb⟩ := hlive
        have honly : ∀ b' ∈ live, (s.extent b').Contains ptr → b' = b :=
          fun b' hb' hc => h.eq_of_mem hb' hb ((hpage b').mp hc) hqb
        by_cases hn : 0 < n ∧ n ≤ 2 ^ b.order
        · have hrel : (s.extent b).ReleasedBy ptr n := ⟨(hpage b).mpr hqb, hn⟩
          obtain ⟨s', hcall, hwf, hregion, -⟩ := h.pmemFreePages hb hqb hn.1 hn.2
          refine ⟨s', live.erase b, hsame.trans hcall, hwf, hregion, ?_, .inr ⟨b, hb, hrel, honly⟩⟩
          rw [h.nodup.erase_eq_filter]
          refine List.filter_congr fun b' hb' => ?_
          apply Bool.eq_iff_iff.mpr
          rw [bne_iff_ne, decide_eq_true_iff]
          constructor
          · intro hne hrel'
            exact hne (honly b' hb' hrel'.1)
          · rintro hno rfl
            exact hno hrel
        · refine ⟨s, live, hnone (hsame.trans (h.pmemFreePages_of_gt hb hqb (by omega))) fun b' hb' hrel => ?_⟩
          rw [honly b' hb' hrel.1] at hrel
          exact hn hrel.2
      · refine ⟨s, live, hnone (hsame.trans (h.pmemFreePages_of_not_live hq hlive n)) fun b hb hrel => ?_⟩
        exact hlive ⟨b, hb, (hpage b).mp hrel.1⟩

/-- A release does not write to memory. -/
theorem Pmem.Release.mem_eq {s s' : Pmem} {live live' : List Block} {ptr : Nat} {n : Int}
    (h : s.Release live ptr n s' live') (hwf : s.Wf live) : s'.mem = s.mem := by
  rcases h.cases with ⟨rfl, -⟩ | ⟨b, hb, hrel, -⟩
  · rfl
  · have hplaced := hwf.placed hb
    have hrange := range_extent hwf.region hplaced
    have hcontains := hrel.1
    have hmeta := hwf.region.end_eq
    have hin : s.memStart ≤ ptr ∧ ptr < s.memEnd := by
      simp only [Extent.Contains, metaEnd] at *
      omega
    obtain ⟨q, hq, -, hlo, hhi⟩ := exists_page_of_mem hwf.region hin.1 hin.2
    have hqb := (contains_iff_page hlo hhi).mp hcontains
    obtain ⟨t, hcall, -, -, hmem⟩ := hwf.pmemFreePages hb hqb hrel.2.1 hrel.2.2
    rw [← pmemFreePages_page hwf.region hq (hplaced.meta_le_mem hqb) hlo hhi, h.call] at hcall
    rw [Option.some_inj.mp hcall, hmem]

/-! ## Reachable states -/

/-- The blocks the callers hold are the live blocks of the allocator. -/
def Heap.Wf (h : Heap) (live : List Block) : Prop := h.pmem.Wf live ∧ h.live = live.map h.pmem.extent

/-- The blocks that a release takes back, seen by the callers. -/
theorem Pmem.Release.map_extent {s s' : Pmem} {live live' : List Block} {ptr : Nat} {n : Int}
    (h : s.Release live ptr n s' live') :
    (live.map s.extent).filter (fun e => ¬e.ReleasedBy ptr n) = live'.map s'.extent := by
  rw [h.live_eq, extent_congr h.same, List.filter_map]
  rfl

/-- Every safe call keeps the held blocks and the live blocks together. -/
theorem Heap.Wf.step {h h' : Heap} {live : List Block} {c : PmemCall} (hwf : h.Wf live)
    (hsafe : c.Safe h.pmem) (hstep : Heap.Call c h h') : ∃ live', h'.Wf live' := by
  obtain ⟨hpmem, hlive⟩ := hwf
  cases hstep with
  | @alloc _ npages addr s hcall haddr =>
    rcases hpmem.pmemAllocPages npages hsafe with ⟨s', hnull, -⟩ | ⟨b, s', hcall', -, hh, horder⟩
    · rw [hnull, Option.some_inj, Prod.mk.injEq] at hcall
      exact absurd hcall.1.symm haddr
    · rw [hcall', Option.some_inj, Prod.mk.injEq] at hcall
      obtain ⟨rfl, rfl⟩ := hcall
      refine ⟨b :: live, hh.wf, ?_⟩
      rw [List.map_cons, extent_congr hh.same, hlive, horder, Int.toNat_natCast]
      rfl
  | @allocNull _ npages s hcall =>
    rcases hpmem.pmemAllocPages npages hsafe with ⟨s', hnull, hwf, hsame, -⟩ | ⟨b, s', hcall', hne, -⟩
    · rw [hnull, Option.some_inj, Prod.mk.injEq] at hcall
      obtain ⟨-, rfl⟩ := hcall
      exact ⟨live, hwf, by rw [extent_congr hsame]; exact hlive⟩
    · rw [hcall', Option.some_inj, Prod.mk.injEq] at hcall
      exact absurd hcall.1 hne
  | @free _ ptr npages s hcall =>
    obtain ⟨s', live', hrel⟩ := hpmem.pmemFreePages_ptr ptr npages
    obtain rfl : s' = s := Option.some_inj.mp (hrel.call.symm.trans hcall)
    refine ⟨live', hrel.wf, ?_⟩
    simp only [hlive]
    exact hrel.map_extent

theorem Heap.SafelyReachable.wf {start end_ : Nat} {mem : Nat → UInt8} {h : Heap}
    (hregion : ValidRegion start end_) (hreach : h.SafelyReachable start end_ mem) :
    ∃ live, h.Wf live := by
  obtain ⟨s, hinit, hrun⟩ := hreach
  obtain ⟨s', L, hinit', -, -, -, hinv, -⟩ := buddyInit_inv hregion mem
  obtain rfl : s' = s := Option.some_inj.mp (hinit'.symm.trans hinit)
  refine hrun.invariant (I := fun h => ∃ live, h.Wf live) ⟨[], ⟨L, hinv⟩, rfl⟩ ?_
  rintro t t' ⟨live, ht⟩ ⟨c, hsafe, hcall⟩
  exact ht.step hsafe hcall

/-! ## What is released -/

/-- One call of `pmem_free_pages`, with any arguments. -/
def Pmem.FreeStep (s s' : Pmem) : Prop := ∃ ptr npages, s.pmemFreePages ptr npages = some s'

/-- `e` is the one block of `live` around `ptr`, and the call that leads from `s` to `s'` frees exactly
its pages. -/
structure Pmem.FreesBlock (s : Pmem) (live : List Extent) (ptr : Nat) (s' : Pmem) (e : Extent) : Prop where
  mem : e ∈ live
  contains : e.Contains ptr
  only : ∀ e' ∈ live, e'.Contains ptr → e' = e
  free : ∀ q < s.totalPages, s'.FreePage q ↔ s.FreePage q ∨ e.Contains (s.pageAddr q)
  used : ∀ q < s.totalPages, s'.bitmap.test q = true ↔ s.bitmap.test q = true ∧ ¬e.Contains (s.pageAddr q)

/-- `pmem_free_pages` is exact and idempotent: every call leaves the state as it is or frees one block
that was held; only pages between the metadata and the end of the region are ever free; and after the
call, whatever is released in between, the same call does nothing, nor does any release of the same
pointer if the call freed a block. -/
def Heap.FreesExactly (h : Heap) : Prop :=
  ∀ (ptr : Nat) (npages : Int), ∃ s, h.pmem.pmemFreePages ptr npages = some s ∧
    (s = h.pmem ∨ ∃ e, h.pmem.FreesBlock h.live ptr s e) ∧
    (∀ q, s.FreePage q → h.pmem.metaEnd ≤ h.pmem.pageAddr q ∧ h.pmem.pageAddr q < h.pmem.memEnd) ∧
    ∀ t, Reaches Pmem.FreeStep s t → t.pmemFreePages ptr npages = some t ∧
      (s ≠ h.pmem → ∀ m, t.pmemFreePages ptr m = some t)

namespace Pmem

variable {s s' t : Pmem} {live live' : List Block} {ptr : Nat} {n : Int} {q : Nat}

/-- Where no live block is to be released, the call does nothing. -/
theorem Wf.pmemFreePages_eq_self (h : s.Wf live) (hno : ∀ b ∈ live, ¬(s.extent b).ReleasedBy ptr n) :
    s.pmemFreePages ptr n = some s := by
  obtain ⟨s', live', hrel⟩ := h.pmemFreePages_ptr ptr n
  rcases hrel.cases with ⟨rfl, -⟩ | ⟨b, hb, hb', -⟩
  · exact hrel.call
  · exact absurd hb' (hno b hb)

/-- Releases only shrink the set of live blocks. -/
theorem Wf.frees (h : s.Wf live) (hrun : Reaches FreeStep s t) :
    ∃ live', t.Wf live' ∧ SameRegion s t ∧ live' ⊆ live := by
  refine hrun.invariant (I := fun t => ∃ live', t.Wf live' ∧ SameRegion s t ∧ live' ⊆ live)
    ⟨live, h, SameRegion.refl s, List.Subset.refl live⟩ ?_
  rintro t u ⟨live₁, hwf, hsame, hsub⟩ ⟨ptr, n, hcall⟩
  obtain ⟨u', live₂, hrel⟩ := hwf.pmemFreePages_ptr ptr n
  obtain rfl : u' = u := Option.some_inj.mp (hrel.call.symm.trans hcall)
  refine ⟨live₂, hrel.wf, hsame.trans hrel.same, fun b hb => hsub ?_⟩
  rw [hrel.live_eq] at hb
  exact List.mem_of_mem_filter hb

/-- A release that takes back a block frees exactly its pages. -/
theorem Release.freesBlock (h : s.Wf live) (hrel : Release s live ptr n s' live') {b : Block} (hb : b ∈ live)
    (hb' : (s.extent b).ReleasedBy ptr n) (honly : ∀ b' ∈ live, (s.extent b').Contains ptr → b' = b) :
    s.FreesBlock (live.map s.extent) ptr s' (s.extent b) := by
  have hmem : ∀ b', b' ∈ live' ↔ b' ∈ live ∧ b' ≠ b := by
    intro b'
    rw [hrel.live_eq, List.mem_filter, decide_eq_true_iff]
    constructor
    · rintro ⟨hin, hno⟩
      refine ⟨hin, ?_⟩
      rintro rfl
      exact hno hb'
    · rintro ⟨hin, hne⟩
      exact ⟨hin, fun hr => hne (honly b' hin hr.1)⟩
  -- a page is live afterwards if it was live before and not in the block
  have hlive : ∀ q, (∃ b' ∈ live', q ∈ b') ↔ (∃ b' ∈ live, q ∈ b') ∧ q ∉ b := by
    intro q
    constructor
    · rintro ⟨b', hin, hq⟩
      obtain ⟨hin', hne⟩ := (hmem b').mp hin
      exact ⟨⟨b', hin', hq⟩, fun hqb => hne (h.eq_of_mem hin' hb hq hqb)⟩
    · rintro ⟨⟨b', hin, hq⟩, hqb⟩
      refine ⟨b', (hmem b').mpr ⟨hin, ?_⟩, hq⟩
      rintro rfl
      exact hqb hq
  refine ⟨List.mem_map_of_mem hb, hb'.1, ?_, fun q hq => ?_, fun q hq => ?_⟩
  · intro e he hc
    obtain ⟨b', hin, rfl⟩ := List.mem_map.mp he
    rw [honly b' hin hc]
  · rw [hrel.wf.freePage_iff, h.freePage_iff, managed_congr hrel.same, hlive, contains_extent]
    have hmanaged : q ∈ b → s.Managed q := h.managed hb
    constructor
    · rintro ⟨hm, hno⟩
      by_cases hqb : q ∈ b
      · exact .inr hqb
      · exact .inl ⟨hm, fun hl => hno ⟨hl, hqb⟩⟩
    · rintro (⟨hm, hno⟩ | hqb)
      · exact ⟨hm, fun hl => hno hl.1⟩
      · exact ⟨hmanaged hqb, fun hl => hl.2 hqb⟩
  · have hq' : q < s'.totalPages := by rwa [hrel.same.totalPages]
    rw [hrel.wf.test_iff hq', h.test_iff hq, hrel.same.totalPages, hlive, contains_extent]
    have hmeta : q ∈ b → metaPages s.totalPages ≤ q := (h.placed hb).meta_le_mem
    constructor
    · rintro (hm | ⟨hl, hqb⟩)
      · refine ⟨.inl hm, fun hqb => ?_⟩
        have := hmeta hqb
        omega
      · exact ⟨.inr hl, hqb⟩
    · rintro ⟨hm | hl, hqb⟩
      · exact .inl hm
      · exact .inr ⟨hl, hqb⟩

/-- Free pages lie between the metadata and the end of the region. -/
theorem Wf.freePage_range (h : s.Wf live) (hq : s.FreePage q) :
    s.metaEnd ≤ s.pageAddr q ∧ s.pageAddr q < s.memEnd := by
  obtain ⟨b, -, hplaced, hqb⟩ := (h.freePage_iff.mp hq).1
  have h1 := hplaced.meta_le_mem hqb
  have h2 := hplaced.mem_lt hqb
  have h3 := h.region.end_eq
  simp only [metaEnd, pageAddr, PGSIZE] at *
  omega

end Pmem

theorem Heap.Wf.freesExactly {h : Heap} {live : List Block} (hwf : h.Wf live) : h.FreesExactly := by
  obtain ⟨hpmem, hlive⟩ := hwf
  intro ptr n
  obtain ⟨s, live', hrel⟩ := hpmem.pmemFreePages_ptr ptr n
  refine ⟨s, hrel.call, ?_, fun q hq => ?_, fun t hrun => ?_⟩
  · rcases hrel.cases with ⟨hsame, -⟩ | ⟨b, hb, hb', honly⟩
    · exact .inl hsame
    · rw [hlive]
      exact .inr ⟨_, hrel.freesBlock hpmem hb hb' honly⟩
  · have hrange := hrel.wf.freePage_range hq
    rw [hrel.same.pageAddr, hrel.same.memEnd] at hrange
    simpa only [metaEnd, hrel.same.memStart, hrel.same.totalPages] using hrange
  · obtain ⟨live'', hwf', hsame, hsub⟩ := hrel.wf.frees hrun
    have hext : t.extent = h.pmem.extent := extent_congr (hrel.same.trans hsame)
    -- what is live after the release is not what the call releases
    have hleft : ∀ b ∈ live'', b ∈ live ∧ ¬(h.pmem.extent b).ReleasedBy ptr n := by
      intro b hb
      have hin := hsub hb
      rw [hrel.live_eq, List.mem_filter, decide_eq_true_iff] at hin
      exact hin
    refine ⟨hwf'.pmemFreePages_eq_self fun b hb => ?_, fun hne m => hwf'.pmemFreePages_eq_self fun b hb hrel' => ?_⟩
    · rw [hext]
      exact (hleft b hb).2
    · rcases hrel.cases with ⟨heq, -⟩ | ⟨b₀, hb₀, hb₀', honly⟩
      · exact hne heq
      · rw [hext] at hrel'
        obtain ⟨hin, hno⟩ := hleft b hb
        rw [honly b hin hrel'.1] at hno
        exact hno hb₀'

/-- In every state that safe calls lead to, `pmem_free_pages` is exact and idempotent. -/
theorem pmemFreePages_exact {start end_ : Nat} (hregion : ValidRegion start end_) {mem : Nat → UInt8}
    {h : Heap} (hreach : h.SafelyReachable start end_ mem) : h.FreesExactly := by
  obtain ⟨live, hwf⟩ := hreach.wf hregion
  exact hwf.freesExactly

/-- A request that the first attempt serves is safe. -/
theorem Pmem.allocSafe_of_ne_null {s : Pmem} {n : Int} {r : Nat × Pmem}
    (hcall : s.buddyAlloc (getOrder n.toNat) = some r) (hne : r.1 ≠ NULL) : s.AllocSafe n := by
  intro _ _ hnull
  rw [hcall, Option.some_inj] at hnull
  rw [hnull] at hne
  exact absurd rfl hne

/-- Sixteen pages, with one page handed out. -/
theorem pmemFreePages_exact_onePage : ∃ s₀ s, buddyInit 0x80000000 0x80010000 (fun _ => 0) = some s₀ ∧
    s₀.pmemAllocPages 1 = some (0x80008000, s) ∧ Heap.FreesExactly ⟨s, [⟨0x80008000, 0⟩]⟩ := by
  have hrun : ((buddyInit 0x80000000 0x80010000 fun _ => 0).bind fun s₀ => (s₀.buddyAlloc 0).bind fun r =>
      (s₀.pmemAllocPages 1).map fun r' => (r.1, r'.1)) = some (0x80008000, 0x80008000) := by
    decide +kernel
  obtain ⟨s₀, hinit, hrun⟩ := Option.bind_eq_some_iff.mp hrun
  obtain ⟨r, hbuddy, hrun⟩ := Option.bind_eq_some_iff.mp hrun
  obtain ⟨⟨addr, s⟩, hcall, haddr⟩ := Option.map_eq_some_iff.mp hrun
  simp only [Prod.mk.injEq] at haddr
  obtain ⟨hr, rfl⟩ := haddr
  refine ⟨s₀, s, hinit, hcall, ?_⟩
  have hsafe : s₀.AllocSafe 1 := Pmem.allocSafe_of_ne_null hbuddy (by rw [hr]; decide)
  have hstep := Heap.Call.alloc (h := ⟨s₀, []⟩) hcall (by decide)
  exact pmemFreePages_exact validRegion_sixteenPages ⟨s₀, hinit, .single ⟨.alloc 1, hsafe, hstep⟩⟩

/-- One page of the eight-page block is handed out; a request for eight pages then empties the lists,
because the rebuild finds no block of that size without a used page. The seven free pages still
pass for free buddies: releasing the one page puts all eight on the lists. -/
theorem not_freesExactly_rebuilt :
    ∃ h : Heap, h.CallReachable 0x80000000 0x80010000 (fun _ => 0) ∧ ¬h.FreesExactly := by
  have hrun : ((buddyInit 0x80000000 0x80010000 fun _ => 0).bind fun s₀ => (s₀.pmemAllocPages 1).bind fun r =>
      (r.2.pmemAllocPages 8).bind fun r' => (r'.2.pmemFreePages 0x80008000 1).map fun s =>
        ([r.1, r'.1, r'.2.memStart, r'.2.totalPages, s.memStart], r'.2.freeBlocks, s.freeBlocks)) =
      some ([0x80008000, NULL, 0x80000000, 16, 0x80000000], some [], some [⟨0x80008000, 3⟩]) := by
    decide +kernel
  obtain ⟨s₀, hinit, hrun⟩ := Option.bind_eq_some_iff.mp hrun
  obtain ⟨⟨addr, s₁⟩, hcall₁, hrun⟩ := Option.bind_eq_some_iff.mp hrun
  obtain ⟨⟨addr', s₂⟩, hcall₂, hrun⟩ := Option.bind_eq_some_iff.mp hrun
  obtain ⟨s₃, hfree, hres⟩ := Option.map_eq_some_iff.mp hrun
  simp only [Prod.mk.injEq, List.cons.injEq, and_true] at hres
  obtain ⟨⟨rfl, rfl, hstart, htotal, hstart'⟩, hbefore, hafter⟩ := hres
  have hstep₁ : Heap.Call (.alloc 1) ⟨s₀, []⟩ ⟨s₁, [⟨0x80008000, 0⟩]⟩ := .alloc hcall₁ (by decide)
  have hstep₂ : Heap.Call (.alloc 8) ⟨s₁, [⟨0x80008000, 0⟩]⟩ ⟨s₂, [⟨0x80008000, 0⟩]⟩ := .allocNull hcall₂
  refine ⟨⟨s₂, [⟨0x80008000, 0⟩]⟩, ⟨s₀, hinit, .tail (.single ⟨_, hstep₁⟩) ⟨_, hstep₂⟩⟩, fun hexact => ?_⟩
  obtain ⟨s, hcall, hcases, -⟩ := hexact 0x80008000 1
  obtain rfl : s₃ = s := Option.some_inj.mp (hfree.symm.trans hcall)
  rcases hcases with rfl | ⟨e, hfrees⟩
  · rw [hafter] at hbefore
    cases hbefore
  · obtain rfl : e = ⟨0x80008000, 0⟩ := List.mem_singleton.mp hfrees.mem
    -- page 9 is free afterwards, but was not before and is not in the released block
    have hpage : s₂.pageAddr 9 = 0x80009000 := by
      rw [Pmem.pageAddr, hstart]
      rfl
    have hpage' : s₃.pageAddr 9 = 0x80009000 := by
      rw [Pmem.pageAddr, hstart']
      rfl
    have hnow : s₃.FreePage 9 := ⟨_, hafter, _, List.mem_singleton_self _, by rw [hpage']; decide⟩
    rcases (hfrees.free 9 (by rw [htotal]; decide)).mp hnow with ⟨free, hfree', e, he, -⟩ | hcont
    · rw [hbefore, Option.some_inj] at hfree'
      rw [← hfree'] at he
      cases he
    · rw [hpage] at hcont
      revert hcont
      decide

/-! ## What is served -/

/-- A block of at least the given order is on the free lists. -/
def Pmem.HasBlock (s : Pmem) (order : Nat) : Prop :=
  ∃ free, s.freeBlocks = some free ∧ ∃ e ∈ free, order ≤ e.order

/-- The allocator handed out `e` for a request of `n` pages: the block is free memory, large enough,
zeroed and marked used, and no page outside it changed, in its contents, its mark or its block. -/
structure Pmem.Serves (s : Pmem) (live : List Extent) (n : Nat) (s' : Pmem) (e : Extent) : Prop where
  room : n ≤ 2 ^ e.order
  range : s.metaEnd ≤ e.addr ∧ e.limit ≤ s.memEnd
  free : ∀ q < s.totalPages, e.Contains (s.pageAddr q) → s.FreePage q
  zero : ∀ a, e.Contains a → s'.mem a = 0
  used : ∀ q < s.totalPages, e.Contains (s.pageAddr q) → s'.bitmap.test q = true
  mem_eq : ∀ a, ¬e.Contains a → s'.mem a = s.mem a
  bits_eq : ∀ q < s.totalPages, ¬e.Contains (s.pageAddr q) → s'.bitmap.test q = s.bitmap.test q
  free_eq : ∀ q < s.totalPages, ¬e.Contains (s.pageAddr q) → (s'.FreePage q ↔ s.FreePage q)
  live_eq : ∀ e' ∈ live, ∀ q < s.totalPages, e'.Contains (s.pageAddr q) →
    ¬e.Contains (s.pageAddr q) ∧ s'.nodes q = s.nodes q

/-- `pmem_alloc_pages(n)` serves the request: it returns; if a listed block is large enough, the first
attempt already returns a block; and what it returns is a block as the caller expects it. -/
def Heap.ServesRequest (h : Heap) (n : Nat) : Prop :=
  ∃ addr s, h.pmem.pmemAllocPages n = some (addr, s) ∧
    (h.pmem.HasBlock (Nat.clog 2 n) →
      addr ≠ NULL ∧ h.pmem.buddyAlloc (Nat.clog 2 n) = some (addr, s)) ∧
    (addr ≠ NULL → h.pmem.Serves h.live n s ⟨addr, Nat.clog 2 n⟩)

namespace Pmem

variable {s s' : Pmem} {live : List Block} {b : Block} {q : Nat}

/-- What is handed out is what the caller expects. -/
theorem Wf.Handed.serves {n : Nat} (h : s.Wf live) (hh : Wf.Handed s live n s' b) :
    s.Serves (live.map s.extent) n s' (s.extent b) := by
  have hplaced : s'.Placed b := hh.wf.placed List.mem_cons_self
  have hplaced' : s.Placed b := by
    rw [Placed, ← hh.same.memStart, ← hh.same.totalPages]
    exact hplaced
  have hnot : ∀ b' ∈ live, ∀ q ∈ b', q ∉ b := by
    intro b' hb' q hq hqb
    obtain rfl := hh.wf.eq_of_mem List.mem_cons_self (List.mem_cons_of_mem _ hb') hqb hq
    exact (List.nodup_cons.mp hh.wf.nodup).1 hb'
  have hmem : ∀ a, s'.mem a = if (s.extent b).Contains a then 0 else s.mem a := by
    intro a
    rw [hh.mem_eq]
    rfl
  have hmanaged : ∀ q, s'.Managed q ↔ s.Managed q := fun q => by rw [managed_congr hh.same]
  refine ⟨?_, range_extent h.region hplaced', fun q _ hq => ?_, fun a ha => ?_, fun q hlt hq => ?_,
    fun a ha => ?_, fun q hlt hq => ?_, fun q _ hq => ?_, ?_⟩
  · exact_mod_cast hh.room
  · have hqb := contains_extent.mp hq
    refine h.freePage_iff.mpr ⟨(hmanaged q).mp (hh.wf.managed List.mem_cons_self hqb), ?_⟩
    rintro ⟨b', hb', hq'⟩
    exact hnot b' hb' q hq' hqb
  · rw [hmem, if_pos ha]
  · exact (hh.wf.test_iff (by rwa [hh.same.totalPages])).mpr
      (.inr ⟨b, List.mem_cons_self, contains_extent.mp hq⟩)
  · rw [hmem, if_neg ha]
  · rw [contains_extent] at hq
    rw [Bool.eq_iff_iff, h.test_iff hlt, hh.wf.test_iff (by rwa [hh.same.totalPages]), hh.same.totalPages]
    simp [hq]
  · rw [contains_extent] at hq
    rw [h.freePage_iff, hh.wf.freePage_iff, hmanaged]
    simp [hq]
  · intro e' he' q _ hq
    obtain ⟨b', hb', rfl⟩ := List.mem_map.mp he'
    have hq' := contains_extent.mp hq
    refine ⟨fun hqb => hnot b' hb' q hq' (contains_extent.mp hqb), ?_⟩
    rw [h.recorded hb' q hq', hh.wf.recorded (List.mem_cons_of_mem _ hb') q hq', hh.same.pageAddr]

/-- If a listed block is large enough, the first attempt returns a block. -/
theorem Wf.buddyAlloc_of_hasBlock {o : Nat} (h : s.Wf live) (hblock : s.HasBlock o) :
    ∃ p s', s.buddyAlloc o = some (s.pageAddr p, s') ∧ s.pageAddr p ≠ NULL := by
  obtain ⟨L, hinv⟩ := h
  obtain ⟨free, hfree, e, he, hle⟩ := hblock
  rw [hinv.listing.freeBlocks, Option.some_inj] at hfree
  rw [← hfree, hinv.listing.mem_listedExtents] at he
  obtain ⟨b, hb, rfl⟩ := he
  rcases hinv.buddyAlloc o with ⟨-, hempty⟩ | ⟨p, k, o', s', L', -, hcall, hal⟩
  · rw [hempty (Int.natCast_nonneg o) b.order (by exact_mod_cast hle)] at hb
    cases hb
  · have hplaced := (hinv.core.free ⟨p, k⟩ hal.mem_list).1
    exact ⟨p, s', hcall, pageAddr_ne_zero hplaced.page_lt hplaced.meta_le⟩

end Pmem

/-- In every state that safe calls lead to, a request of a supported size is served exactly if it asks
for at most half of the largest block, or no largest block is free. -/
theorem pmemAllocPages_serves_iff {start end_ : Nat} (hregion : ValidRegion start end_) {mem : Nat → UInt8}
    {h : Heap} (hreach : h.SafelyReachable start end_ mem) {n : Nat} (hpos : 1 ≤ n)
    (hmax : n ≤ 2 ^ BUDDY_MAX_ORDER) (hsafe : h.pmem.AllocSafe n) :
    h.ServesRequest n ↔ n ≤ 2 ^ (BUDDY_MAX_ORDER - 1) ∨ ¬h.pmem.HasBlock BUDDY_MAX_ORDER := by
  obtain ⟨live, hwf, hlive⟩ := hreach.wf hregion
  have horder := getOrder_eq n
  by_cases hle : n ≤ 2 ^ (BUDDY_MAX_ORDER - 1)
  · refine iff_of_true ?_ (.inl hle)
    rw [if_pos hle] at horder
    have hblock : h.pmem.HasBlock (Nat.clog 2 n) → ∃ addr s, h.pmem.pmemAllocPages n = some (addr, s) ∧
        addr ≠ NULL ∧ h.pmem.buddyAlloc (Nat.clog 2 n) = some (addr, s) := by
      intro hhas
      obtain ⟨p, s', hcall, hne⟩ := hwf.buddyAlloc_of_hasBlock hhas
      refine ⟨_, s', ?_, hne, hcall⟩
      rw [Pmem.Wf.pmemAllocPages_eq (n := n) (o := Nat.clog 2 n) (by omega) horder, hcall, Option.bind_some, if_pos hne]
    rcases hwf.pmemAllocPages n hsafe with ⟨s', hcall, -⟩ | ⟨b, s', hcall, hne, hh, hord⟩
    · refine ⟨NULL, s', hcall, fun hhas => ?_, fun hne => absurd rfl hne⟩
      obtain ⟨addr, s, hcall', hne, -⟩ := hblock hhas
      rw [hcall, Option.some_inj, Prod.mk.injEq] at hcall'
      exact absurd hcall'.1.symm hne
    · refine ⟨_, s', hcall, fun hhas => ?_, fun _ => ?_⟩
      · obtain ⟨addr, s, hcall', -, hfirst⟩ := hblock hhas
        rw [hcall] at hcall'
        rw [hcall']
        exact ⟨hne, hfirst⟩
      · have hlog : b.order = Nat.clog 2 n := by
          rw [Int.toNat_natCast, horder] at hord
          exact_mod_cast hord.symm
        rw [hlive, ← hlog]
        exact Pmem.Wf.Handed.serves hwf hh
  · rw [if_neg hle] at horder
    have hnull := Pmem.Wf.pmemAllocPages_null (s := h.pmem) (n := n) (.inr horder)
    have hlog : Nat.clog 2 n = BUDDY_MAX_ORDER := by
      have h1 := (Nat.clog_le_iff_le_pow (b := 2) (by decide)).mpr hmax
      have h2 := (Nat.lt_clog_iff_pow_lt (b := 2) (by decide)).mpr (Nat.not_le.mp hle)
      simp only [BUDDY_MAX_ORDER] at *
      omega
    constructor
    · rintro ⟨addr, s, hcall, hhas, -⟩
      refine .inr fun hblock => ?_
      rw [hnull, Option.some_inj, Prod.mk.injEq] at hcall
      rw [hlog] at hhas
      exact (hhas hblock).1 hcall.1.symm
    · rintro (hle' | hno)
      · exact absurd hle' hle
      · refine ⟨NULL, h.pmem, hnull, fun hhas => ?_, fun hne => absurd rfl hne⟩
        rw [hlog] at hhas
        exact absurd hhas hno

/-- Sixteen pages: a request for three pages is served from the block of eight. -/
theorem pmemAllocPages_serves_iff_threePages :
    ∃ s, buddyInit 0x80000000 0x80010000 (fun _ => 0) = some s ∧ Heap.ServesRequest ⟨s, []⟩ 3 := by
  have hrun : ((buddyInit 0x80000000 0x80010000 fun _ => 0).bind fun s => (s.buddyAlloc 2).map Prod.fst) =
      some 0x80008000 := by
    decide +kernel
  obtain ⟨s, hinit, hrun⟩ := Option.bind_eq_some_iff.mp hrun
  obtain ⟨r, hcall, hr⟩ := Option.map_eq_some_iff.mp hrun
  have hsafe : s.AllocSafe ((3 : Nat) : Int) := Pmem.allocSafe_of_ne_null hcall (by rw [hr]; decide)
  exact ⟨s, hinit, (pmemAllocPages_serves_iff validRegion_sixteenPages (h := ⟨s, []⟩) (n := 3)
    ⟨s, hinit, .refl⟩ (by decide) (by decide) hsafe).mpr (.inl (by decide))⟩

/-- In a region of 4096 pages the upper half is one block of the maximal order; a request for 1025
pages fails although that block is free. -/
theorem not_servesRequest_largest :
    ∃ h : Heap, h.CallReachable 0x80000000 0x81000000 (fun _ => 0) ∧ ¬h.ServesRequest 1025 := by
  have hregion : ValidRegion 0x80000000 0x81000000 :=
    ⟨by decide, by decide, by decide, by decide, by decide⟩
  obtain ⟨s, L, hinit, hstart, hend, -, hinv, hlisted⟩ := buddyInit_inv hregion fun _ => 0
  have htotal : s.totalPages = 4096 := by
    have := hinv.region.end_eq
    rw [hstart, hend] at this
    simp only [PGSIZE] at this
    omega
  have htop : s.topOrder = some 11 := by
    rw [Pmem.topOrder, Pmem.metaEnd, hstart, hend, htotal]
    decide
  have hplaced : s.Placed ⟨2048, 11⟩ := by
    rw [Pmem.Placed, hstart, htotal]
    exact ⟨by decide, by decide, by decide, by decide⟩
  have hlog : Nat.clog 2 1025 ≤ 11 := by decide
  have hblock : s.HasBlock (Nat.clog 2 1025) :=
    ⟨_, hinv.listing.freeBlocks, s.extent ⟨2048, 11⟩,
      hinv.listing.extent_mem_listedExtents.mpr ((hlisted _).mpr ⟨htop, hplaced⟩), hlog⟩
  refine ⟨⟨s, []⟩, ⟨s, hinit, .refl⟩, ?_⟩
  rintro ⟨addr, s', hcall, hserves, -⟩
  rw [Pmem.Wf.pmemAllocPages_null (.inr (by decide)), Option.some_inj, Prod.mk.injEq] at hcall
  exact (hserves hblock).1 hcall.1.symm

end SC7
