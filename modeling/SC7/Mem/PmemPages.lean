-- SUMMARY: `pmem_alloc_pages` and `pmem_free_pages` as the rest of the kernel uses them: which pages are live, which are free.
import SC7.Mem.Rebuild
import Mathlib.Data.Nat.Log

/-!
# Pages

Above the allocator only two things matter: which blocks are live, and that every other page of the
managed region is free. `Pmem.Wf s live` says that the allocator is well formed with the live blocks
`live`. `pmem_alloc_pages` adds a block; `pmem_free_pages` takes back the whole block that a page
belongs to, and does nothing for a page that is not live.
-/

namespace SC7

open Pmem

/-- The allocator is well formed, and its live blocks are `live`. -/
def Pmem.Wf (s : Pmem) (live : List Block) : Prop := ∃ L, Inv s L live none s.Managed

/-- The page belongs to a block on the free lists. -/
def Pmem.FreePage (s : Pmem) (q : Nat) : Prop :=
  ∃ free, s.freeBlocks = some free ∧ ∃ e ∈ free, e.Contains (s.pageAddr q)

/-- If `pmem_alloc_pages(n)` has to fall back on the emergency rebuild, the rebuild is safe. -/
def Pmem.AllocSafe (s : Pmem) (n : Int) : Prop :=
  0 < n → getOrder n.toNat ≠ -1 → s.buddyAlloc (getOrder n.toNat) = some (NULL, s) → s.RebuildSafe

/-- `get_order` computes the logarithm of the request, up to half of the largest block. -/
theorem getOrder_eq (n : Nat) :
    getOrder n = if n ≤ 2 ^ (BUDDY_MAX_ORDER - 1) then (Nat.clog 2 n : Int) else -1 := by
  -- the loop stops at the logarithm or at the maximal order
  have hgo : ∀ fuel o, o + fuel = BUDDY_MAX_ORDER → o ≤ Nat.clog 2 n →
      getOrder.go n (2 ^ o) o fuel = min (Nat.clog 2 n) BUDDY_MAX_ORDER := by
    intro fuel
    induction fuel with
    | zero =>
      intro o ho hle
      rw [getOrder.go]
      omega
    | succ f ih =>
      intro o ho hle
      rw [getOrder.go]
      split
      · rename_i hlt
        have hshift : 2 ^ o <<< 1 = 2 ^ (o + 1) := by
          rw [Nat.shiftLeft_eq, Nat.pow_succ]
          rfl
        have hlog : o < Nat.clog 2 n := (Nat.lt_clog_iff_pow_lt (by decide)).mpr hlt
        rw [hshift]
        exact ih (o + 1) (by omega) hlog
      · rename_i hge
        have hlog : Nat.clog 2 n ≤ o := (Nat.clog_le_iff_le_pow (by decide)).mpr (by omega)
        omega
  have hloop := hgo BUDDY_MAX_ORDER 0 rfl (Nat.zero_le _)
  rw [pow_zero] at hloop
  have hlog : n ≤ 2 ^ (BUDDY_MAX_ORDER - 1) ↔ Nat.clog 2 n ≤ BUDDY_MAX_ORDER - 1 :=
    (Nat.clog_le_iff_le_pow (by decide)).symm
  unfold getOrder
  simp only [hloop, hlog]
  split <;> split <;> simp only [BUDDY_MAX_ORDER] at * <;> omega

/-- The order of a request has room for it. -/
theorem getOrder_cases (n : Nat) : getOrder n = -1 ∨ ∃ o : Nat, getOrder n = o ∧ n ≤ 2 ^ o := by
  rw [getOrder_eq]
  split
  · exact .inr ⟨Nat.clog 2 n, rfl, Nat.le_pow_clog (by decide) n⟩
  · exact .inl rfl

namespace Pmem.Wf

variable {s : Pmem} {live : List Block} {b b' : Block} {q o : Nat} {n : Int}

section Calls

variable (h : s.Wf live)

include h

theorem region : s.Region := by
  obtain ⟨L, hinv⟩ := h
  exact hinv.region

theorem placed (hb : b ∈ live) : s.Placed b := by
  obtain ⟨L, hinv⟩ := h
  exact (hinv.core.alive b hb).1

theorem recorded (hb : b ∈ live) : s.Recorded b := by
  obtain ⟨L, hinv⟩ := h
  exact (hinv.core.alive b hb).2.1

theorem nodup : live.Nodup := by
  obtain ⟨L, hinv⟩ := h
  exact hinv.core.nodup

/-- The contents of memory do not matter. -/
theorem setMem (mem : Nat → UInt8) : ({ s with mem } : Pmem).Wf live := by
  obtain ⟨L, hinv⟩ := h
  have hsame : SameRegion s { s with mem } := ⟨rfl, rfl, rfl⟩
  refine ⟨L, ?_⟩
  rw [managed_congr hsame]
  exact hinv.congr hsame rfl rfl fun _ => rfl

/-- A page belongs to at most one live block. -/
theorem eq_of_mem (hb : b ∈ live) (hb' : b' ∈ live) (hq : q ∈ b) (hq' : q ∈ b') : b = b' := by
  obtain ⟨L, hinv⟩ := h
  exact hinv.core.live_disjoint hb hb' hq hq'

theorem managed (hb : b ∈ live) (hq : q ∈ b) : s.Managed q := by
  obtain ⟨L, hinv⟩ := h
  exact (hinv.core.cover q).mpr (.inr (.inl ⟨b, hb, hq⟩))

/-- The free pages are the managed pages that are not live. -/
theorem freePage_iff : s.FreePage q ↔ s.Managed q ∧ ¬∃ b ∈ live, q ∈ b := by
  obtain ⟨L, hinv⟩ := h
  have hlist := hinv.listing
  constructor
  · rintro ⟨free, hfree, e, he, hq⟩
    rw [hlist.freeBlocks] at hfree
    obtain rfl := Option.some_inj.mp hfree
    obtain ⟨b, hb, rfl⟩ := hlist.mem_listedExtents.mp he
    have hqb := contains_extent.mp hq
    refine ⟨(hinv.core.cover q).mpr (.inl ⟨b, hb, hqb⟩), ?_⟩
    rintro ⟨b', hb', hq'⟩
    exact hinv.core.free_live_disjoint hb hb' hqb hq'
  · rintro ⟨hm, hlive⟩
    rcases (hinv.core.cover q).mp hm with ⟨b, hb, hq⟩ | hl | ⟨b, hb, -⟩
    · exact ⟨_, hlist.freeBlocks, s.extent b, hlist.mem_listedExtents.mpr ⟨b, hb, rfl⟩,
        contains_extent.mpr hq⟩
    · exact absurd hl hlive
    · cases hb

/-- Releasing a page of a live block gives the whole block back. -/
theorem pmemFreePages (hb : b ∈ live) (hq : q ∈ b) (hn : 0 < n) (hle : n ≤ 2 ^ b.order) :
    ∃ s', s.pmemFreePages (s.pageAddr q) n = some s' ∧ s'.Wf (live.erase b) ∧ SameRegion s s' ∧
      s'.mem = s.mem := by
  obtain ⟨L, hinv⟩ := h
  obtain ⟨hplaced, hrec, hused⟩ := hinv.core.alive b hb
  have hqlt := hplaced.mem_lt hq
  have hend := hinv.region.end_eq
  have hidx : s.pageIdx (s.pageAddr q) = q := pageIdx_pageAddr hinv.region (Nat.le_of_lt hqlt)
  have hbidx := pageIdx_pageAddr hinv.region (Nat.le_of_lt hplaced.page_lt)
  have horder : (b.order : Int) ≤ BUDDY_MAX_ORDER := by exact_mod_cast hplaced.order_le
  obtain ⟨s', L', p, k, hcall, hfreed⟩ := hinv.buddyFree hb b.page_mem (Int.natCast_nonneg b.order) horder
  refine ⟨s', ?_, ⟨L', ?_⟩, hfreed.same, hfreed.mem_eq⟩
  · have hptr : ¬(s.pageAddr q = NULL ∨ n ≤ 0) := by
      have := pageAddr_ne_zero hqlt (hplaced.meta_le_mem hq)
      rintro (h | h)
      · exact this h
      · omega
    have hin : ∀ p, p < s.totalPages → ¬(s.pageAddr p < s.memStart ∨ s.pageAddr p ≥ s.memEnd) := by
      intro p hp
      simp only [pageAddr, PGSIZE] at hend ⊢
      omega
    have horder' : ¬((b.order : Int) < 0 ∨ (b.order : Int) > BUDDY_MAX_ORDER) := by omega
    have hsize : ¬((1 <<< b.order : Nat) : Int) < n := by
      rw [Nat.one_shiftLeft]
      push_cast
      omega
    have haligned : ¬s.pageAddr b.page % blockSize b.order ≠ 0 := by
      rw [pageAddr_aligned hinv.region hplaced]
      simp
    have hclear : ¬s.bitmap.allClear b.page (1 <<< b.order) = true := by
      rw [Bitmap.allClear_iff]
      intro hall
      have hbit := hall b.page (le_refl _) (by rw [Nat.one_shiftLeft]; exact b.page_mem.2)
      rw [hused b.page b.page_mem] at hbit
      cases hbit
    rw [Pmem.pmemFreePages, if_neg hptr, if_neg (hin q hqlt)]
    simp only [hidx, if_neg (Nat.not_le.mpr hqlt), hrec q hq, Int.toNat_natCast]
    rw [if_neg (hin b.page hplaced.page_lt), if_neg horder', if_neg hsize, if_neg haligned, hbidx,
      if_neg hclear]
    exact hcall
  · rw [managed_congr hfreed.same]
    exact hfreed.inv

/-- Releasing a page that is not live does nothing. -/
theorem pmemFreePages_of_not_live (hq : q < s.totalPages)
    (hnot : ¬∃ b ∈ live, q ∈ b) (n : Int) : s.pmemFreePages (s.pageAddr q) n = some s := by
  obtain ⟨L, hinv⟩ := h
  have hidx : s.pageIdx (s.pageAddr q) = q := pageIdx_pageAddr hinv.region (Nat.le_of_lt hq)
  rw [Pmem.pmemFreePages]
  split
  · rfl
  · split
    · rfl
    · simp only [hidx, if_neg (Nat.not_le.mpr hq)]
      -- what the node of the page says: metadata, a free block, or nothing
      by_cases hmeta : q < metaPages s.totalPages
      · rw [(hinv.core.metadata q hmeta).2]
        simp
      · by_cases hm : s.Managed q
        · rcases (hinv.core.cover q).mp hm with ⟨b, hb, hqb⟩ | hl | ⟨b, hb, -⟩
          · obtain ⟨hplaced, hrec, hclear⟩ := hinv.core.free b hb
            have hbidx := pageIdx_pageAddr hinv.region (Nat.le_of_lt hplaced.page_lt)
            have hall : s.bitmap.allClear b.page (1 <<< b.order) = true := by
              rw [Bitmap.allClear_iff, Nat.one_shiftLeft]
              exact fun p hp hp' => hclear p ⟨hp, hp'⟩
            simp only [hrec q hqb, Int.toNat_natCast, hbidx, hall, if_true, ite_self]
          · exact absurd hl hnot
          · cases hb
        · rw [(hinv.core.uncovered q (by omega) hq hm).2]
          simp only [Pmem.buddyFree, NULL, true_or, if_true, ite_self]

/-- Releasing one page: the block it belongs to, if any, is gone, and nothing else changes. -/
theorem release (hq : q < s.totalPages) : ∃ s' live', s.pmemFreePages (s.pageAddr q) 1 = some s' ∧ s'.Wf live' ∧
      (∀ b, b ∈ live' ↔ b ∈ live ∧ q ∉ b) ∧ SameRegion s s' ∧ s'.mem = s.mem := by
  by_cases hlive : ∃ b ∈ live, q ∈ b
  · obtain ⟨b, hb, hqb⟩ := hlive
    have hone : (1 : Int) ≤ 2 ^ b.order := by exact_mod_cast Nat.one_le_two_pow
    obtain ⟨s', hcall, hwf, hsame, hmem⟩ := h.pmemFreePages hb hqb Int.one_pos hone
    refine ⟨s', live.erase b, hcall, hwf, ?_, hsame, hmem⟩
    intro b'
    rw [h.nodup.mem_erase_iff]
    constructor
    · rintro ⟨hne, hb'⟩
      exact ⟨hb', fun hq' => hne (h.eq_of_mem hb' hb hq' hqb)⟩
    · rintro ⟨hb', hq'⟩
      refine ⟨?_, hb'⟩
      rintro rfl
      exact hq' hqb
  · refine ⟨s, live, h.pmemFreePages_of_not_live hq hlive 1, h, ?_, SameRegion.refl s, rfl⟩
    intro b
    exact ⟨fun hb => ⟨hb, fun hqb => hlive ⟨b, hb, hqb⟩⟩, fun hb => hb.1⟩

/-- With no live page of an impossible order there is nothing to reclaim. -/
theorem forceMemoryReclaim : s.forceMemoryReclaim = some s := by
  obtain ⟨L, hinv⟩ := h
  have hnone : ∀ n ≤ s.totalPages, s.reclaimOrphans n = (s, 0) := by
    intro n
    induction n with
    | zero =>
      intro _
      rfl
    | succ n ih =>
      intro hn
      rw [reclaimOrphans, ih (by omega)]
      by_cases hused : s.bitmap.test n = true
      · rcases hinv.sane (by omega) hused with hmeta | ⟨h0, h11, -⟩
        · simp [hmeta]
        · have hok : (decide ((s.nodes n).order < 0) ||
              decide ((s.nodes n).order > BUDDY_MAX_ORDER)) = false := by
            simp only [Bool.or_eq_false_iff, decide_eq_false_iff_not]
            omega
          simp only [hok, Bool.and_false, Bool.false_eq_true, if_false]
      · simp [hused]
  rw [Pmem.forceMemoryReclaim, hnone _ (le_refl _)]
  rfl

end Calls

/-- What a successful allocation hands out: a new block with room for the request, all zero. -/
structure Handed (s : Pmem) (live : List Block) (n : Int) (s' : Pmem) (b : Block) : Prop where
  wf : s'.Wf (b :: live)
  same : SameRegion s s'
  room : n ≤ 2 ^ b.order
  mem_eq : s'.mem = (s.zero (s.pageAddr b.page) (blockSize b.order)).mem

/-- The pages that were live keep their contents. -/
theorem Handed.mem_live {s' : Pmem} (h : Handed s live n s' b) (hb' : b' ∈ live) (hq : q ∈ b') (ho : o < PGSIZE) :
    s'.mem (s.pageAddr q + o) = s.mem (s.pageAddr q + o) := by
  have hnot : q ∉ b := by
    intro hqb
    have heq := h.wf.eq_of_mem (List.mem_cons_self ..) (List.mem_cons_of_mem _ hb') hqb hq
    rw [heq] at h
    exact (List.nodup_cons.mp h.wf.nodup).1 hb'
  rw [h.mem_eq]
  simp only [zero, blockSize_natCast]
  rw [if_neg]
  simp only [Block.mem_def, pageAddr, PGSIZE] at *
  generalize 2 ^ b.order = m at *
  omega

theorem buddyAlloc (h : s.Wf live) (o : Nat) :
    s.buddyAlloc o = some (NULL, s) ∨
      ∃ p s', s.buddyAlloc o = some (s.pageAddr p, s') ∧ Handed s live (2 ^ o) s' ⟨p, o⟩ := by
  obtain ⟨L, hinv⟩ := h
  rcases hinv.buddyAlloc o with ⟨hnull, -⟩ | ⟨p, k, o', s', L', ho, hcall, hal⟩
  · exact .inl hnull
  · obtain rfl : o = o' := by exact_mod_cast ho
    refine .inr ⟨p, s', hcall, ⟨⟨L', ?_⟩, hal.same, le_refl _, hal.mem_eq⟩⟩
    rw [managed_congr hal.same]
    exact hal.inv

/-- The attempts of `pmem_alloc_pages`, for a request of a possible size. -/
theorem pmemAllocPages_eq (hn : 0 < n) (ho : getOrder n.toNat = o) :
    s.pmemAllocPages n = (s.buddyAlloc o).bind fun r =>
      if r.1 ≠ NULL then some r
      else r.2.emergencyMemoryCleanup.bind fun t => (t.buddyAlloc o).bind fun r =>
        if r.1 ≠ NULL then some r
        else r.2.forceMemoryReclaim.bind fun t => t.buddyAlloc o := by
  have hpos : ¬n ≤ 0 := by omega
  have hne : (o : Int) ≠ -1 := by omega
  unfold Pmem.pmemAllocPages
  rw [if_neg hpos]
  simp only [ho]
  rw [if_neg hne]
  rfl

theorem pmemAllocPages_null (h : n ≤ 0 ∨ getOrder n.toNat = -1) : s.pmemAllocPages n = some (NULL, s) := by
  unfold Pmem.pmemAllocPages
  split
  · rfl
  · rename_i hpos
    simp only [h.resolve_left hpos, if_true]

/-- `pmem_alloc_pages` hands out a new block, or nothing and changes no page that is live. -/
theorem pmemAllocPages (h : s.Wf live) (n : Int) (hsafe : s.AllocSafe n) :
    (∃ s', s.pmemAllocPages n = some (NULL, s') ∧ s'.Wf live ∧ SameRegion s s' ∧ s'.mem = s.mem) ∨
      ∃ b s', s.pmemAllocPages n = some (s.pageAddr b.page, s') ∧ s.pageAddr b.page ≠ NULL ∧
        Handed s live n s' b ∧ getOrder n.toNat = b.order := by
  have hnone : s.Wf live ∧ SameRegion s s ∧ s.mem = s.mem := ⟨h, SameRegion.refl s, rfl⟩
  by_cases hpos : n ≤ 0
  · exact .inl ⟨s, pmemAllocPages_null (.inl hpos), hnone⟩
  · rcases getOrder_cases n.toNat with hord | ⟨o, hord, hroom⟩
    · exact .inl ⟨s, pmemAllocPages_null (.inr hord), hnone⟩
    · have hroom' : n ≤ 2 ^ o := by
        have : (n.toNat : Int) ≤ ((2 ^ o : Nat) : Int) := by exact_mod_cast hroom
        push_cast at this
        omega
      -- a block that some state of the request hands out
      have hhand : ∀ (t : Pmem) p s', SameRegion s t → t.mem = s.mem →
          Handed t live (2 ^ o) s' ⟨p, o⟩ → s.pageAddr p ≠ NULL ∧ Handed s live n s' ⟨p, o⟩ := by
        intro t p s' hsame hmem hh
        have hplaced := hh.wf.placed (List.mem_cons_self ..)
        have hne0 := pageAddr_ne_zero hplaced.page_lt hplaced.meta_le
        rw [(hsame.trans hh.same).pageAddr] at hne0
        refine ⟨hne0, hh.wf, hsame.trans hh.same, hroom', ?_⟩
        rw [hh.mem_eq]
        simp only [zero, hmem, hsame.pageAddr]
      rw [pmemAllocPages_eq (by omega) hord]
      rcases h.buddyAlloc o with hnull | ⟨p, s', hcall, hh⟩
      · have hsafe' : s.RebuildSafe := by
          refine hsafe (by omega) ?_ ?_
          · rw [hord]
            omega
          · rw [hord]
            exact hnull
        obtain ⟨L, hinv⟩ := h
        obtain ⟨t, L', hrun, hinv', hsame, hmem⟩ := hinv.rebuild_inv hsafe'
        have ht : t.Wf live := ⟨L', by rw [managed_congr hsame]; exact hinv'⟩
        rw [hnull, Option.bind_some, if_neg (by simp), emergencyMemoryCleanup, hrun, Option.bind_some]
        rcases ht.buddyAlloc o with hnull' | ⟨p, s', hcall, hh⟩
        · rw [hnull', Option.bind_some, if_neg (by simp), ht.forceMemoryReclaim, Option.bind_some, hnull']
          exact .inl ⟨t, rfl, ht, hsame, hmem⟩
        · obtain ⟨hne0, hh'⟩ := hhand t p s' hsame hmem hh
          rw [hsame.pageAddr] at hcall
          rw [hcall, Option.bind_some, if_pos hne0]
          exact .inr ⟨⟨p, o⟩, s', rfl, hne0, hh', hord⟩
      · obtain ⟨hne0, hh'⟩ := hhand s p s' (SameRegion.refl s) rfl hh
        rw [hcall, Option.bind_some, if_pos hne0]
        exact .inr ⟨⟨p, o⟩, s', rfl, hne0, hh', hord⟩

end Pmem.Wf

/-- A request is answered if some free block is large enough for it. -/
theorem Inv.pmemAllocPages_listed {s : Pmem} {L : Nat → List Nat} {live : List Block} {b : Block}
    {n : Int} {o : Nat} (h : Inv s L live none s.Managed) (hn : 0 < n) (ho : getOrder n.toNat = o)
    (hb : b.page ∈ L b.order) (hle : o ≤ b.order) :
    s.AllocSafe n ∧ ∃ p k s', p ∈ L k ∧ s.pmemAllocPages n = some (s.pageAddr p, s') ∧
      s.pageAddr p ≠ NULL ∧ s'.Wf (⟨p, o⟩ :: live) ∧ SameRegion s s' := by
  rcases h.buddyAlloc o with ⟨-, hempty⟩ | ⟨p, k, o', s', L', hoo, hcall, hal⟩
  · rw [hempty (Int.natCast_nonneg o) b.order (by exact_mod_cast hle)] at hb
    cases hb
  · obtain rfl : o = o' := by exact_mod_cast hoo
    have hplaced := (h.core.free ⟨p, k⟩ hal.mem_list).1
    have hne := pageAddr_ne_zero hplaced.page_lt hplaced.meta_le
    refine ⟨?_, p, k, s', hal.mem_list, ?_, hne, ⟨L', ?_⟩, hal.same⟩
    · intro _ _ hnull
      rw [ho, hcall, Option.some_inj, Prod.mk.injEq] at hnull
      exact absurd hnull.1 hne
    · rw [Pmem.Wf.pmemAllocPages_eq hn ho, hcall, Option.bind_some, if_pos hne]
    · rw [managed_congr hal.same]
      exact hal.inv

/-- One page can be had as long as there is a free page. -/
theorem Pmem.Wf.pmemAllocPages_one {s : Pmem} {live : List Block} {q : Nat} (h : s.Wf live)
    (hq : s.Managed q) (hnot : ¬∃ b ∈ live, q ∈ b) :
    s.AllocSafe 1 ∧ ∃ p s', s.pmemAllocPages 1 = some (s.pageAddr p, s') ∧ s.pageAddr p ≠ NULL ∧
      s'.Wf (⟨p, 0⟩ :: live) ∧ SameRegion s s' := by
  obtain ⟨L, hinv⟩ := h
  rcases (hinv.core.cover q).mp hq with ⟨b, hb, -⟩ | hl | ⟨b, hb, -⟩
  · obtain ⟨hsafe, p, k, s', -, hcall⟩ := hinv.pmemAllocPages_listed Int.one_pos rfl hb (Nat.zero_le _)
    exact ⟨hsafe, p, s', hcall⟩
  · exact absurd hl hnot
  · cases hb

end SC7
