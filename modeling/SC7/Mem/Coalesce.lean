-- SUMMARY: When freeing everything gives back the free lists that `buddy_init` made.
import SC7.Mem.Buddy

/-!
# Coalescing

The buddy of a block is found by exclusive or on its absolute address, but it is accepted only
if its offset in the region is aligned too. The two agree for the orders below the one that
`buddy_init` picked exactly when the start of the region is aligned for them.
-/

namespace SC7

/-- The start of the region is a multiple of half a block of the order that is picked. -/
def MergeAligned (start end_ : Nat) : Prop :=
  ∀ k : Nat, pickOrder (start + metaPages ((end_ - start) / PGSIZE) * PGSIZE) end_ BUDDY_MAX_ORDER =
    some (k + 1) → start % blockSize k = 0

/-- Two free blocks that are the halves of one block of at most the order `buddy_init` picked. -/
def Pmem.SplitPair (s : Pmem) (free : List Extent) : Prop :=
  ∃ e ∈ free, ∃ e' ∈ free, e'.order = e.order ∧ e'.addr = getBuddyAddr e.addr e.order ∧
    ∃ k, s.topOrder = some k ∧ e.order < k

/-- Full coalescing: from the state after `buddy_init`, no run leaves both halves of a split
block free, and every run that frees all it allocated ends with the blocks it started with. -/
def FullCoalescing (start end_ : Nat) (mem : Nat → UInt8) : Prop :=
  ∀ s₀ free₀, buddyInit start end_ mem = some s₀ → s₀.freeBlocks = some free₀ →
    ∀ h : Heap, Reaches Heap.Step ⟨s₀, []⟩ h →
      ∃ free, h.pmem.freeBlocks = some free ∧ ¬ h.pmem.SplitPair free ∧ (h.live = [] → free.Perm free₀)

namespace Pmem

variable {s : Pmem}

/-- No block that fits in the region is larger than the picked order. -/
theorem Placed.order_le_top (hr : s.Region) {b : Block} (hb : s.Placed b) :
    ∃ k, s.topOrder = some k ∧ b.order ≤ k := by
  have hfit : s.Fits b.order := by
    have h1 := firstPage_le hb.aligned hb.meta_le
    have h2 := hb.fits
    rw [Fits]
    omega
  -- the largest order that fits is the one picked
  classical
  have hex : ∃ n, ∃ k, BUDDY_MAX_ORDER - k = n ∧ k ≤ BUDDY_MAX_ORDER ∧ s.Fits k :=
    ⟨_, b.order, rfl, hb.order_le, hfit⟩
  obtain ⟨k, hn, hk, hkfit⟩ := Nat.find_spec hex
  have hmax : ∀ j, k < j → j ≤ BUDDY_MAX_ORDER → ¬ s.Fits j := by
    intro j hkj hj hjfit
    exact Nat.find_min hex (m := BUDDY_MAX_ORDER - j) (by omega) ⟨j, rfl, hj, hjfit⟩
  refine ⟨k, (pickOrder_eq_some_iff hr (le_refl _)).mpr ⟨hk, hkfit, hmax⟩, ?_⟩
  by_contra hlt
  exact hmax b.order (by omega) hb.order_le hfit

/-- The halves of split blocks are never both listed. -/
def NoBuddies (s : Pmem) (L : Nat → List Nat) : Prop :=
  ∀ k, s.topOrder = some k → ∀ b : Block, b.page ∈ L b.order → b.order < k →
    ∀ p, s.pageNumber p = Dyadic.buddy b.order (s.pageNumber b.page) → p ∉ L b.order

end Pmem

open Pmem

/-- Allocation splits a block and keeps one part, so it makes no pair of free buddies. -/
theorem Allocated.noBuddies {s s' : Pmem} {L L' : Nat → List Nat} {live : List Block} {C : Nat → Prop}
    {p k o : Nat} (hinv : Inv s L live none C) (h : Allocated s L live C p k o s' L')
    (hno : s.NoBuddies L) : s'.NoBuddies L' := by
  have hplaced := (hinv.core.free ⟨p, k⟩ h.mem_list).1
  -- the lower halves start at `p`, so none of them is listed
  have hlower : ∀ j, j < k → p ∉ L j := by
    intro j hj hmem
    have := hinv.lists.inj hmem h.mem_list
    omega
  have hbuddy : ∀ j, j < k → Dyadic.buddy j (s.pageNumber (p + 2 ^ j)) = s.pageNumber p := by
    intro j hj
    have hal : Dyadic.Aligned (j + 1) (s.pageNumber p) := hplaced.aligned.of_le hj
    have := Dyadic.buddy_of_aligned_succ hal
    have heq : s.pageNumber (p + 2 ^ j) = s.pageNumber p + 2 ^ j := by
      simp only [pageNumber]
      omega
    rw [heq, ← this, Dyadic.buddy_buddy]
  intro K hK b hb hlt q hq hq'
  rw [topOrder_congr h.same] at hK
  rw [h.same.pageNumber, h.same.pageNumber] at hq
  rcases (h.listed b).mp hb with ⟨hb, -⟩ | ⟨j, hoj, hjk, rfl⟩
  · rcases (h.listed ⟨q, b.order⟩).mp hq' with ⟨hq', -⟩ | ⟨j, hoj, hjk, heq⟩
    · exact hno K hK b hb hlt q hq hq'
    · -- `b` would be the lower half next to the upper half `q`
      rw [Block.mk.injEq] at heq
      obtain ⟨rfl, hj⟩ := heq
      have hbp : s.pageNumber b.page = s.pageNumber p := by
        rw [← hbuddy j hjk, hq, hj, Dyadic.buddy_buddy]
      obtain rfl : b.page = p := by
        simp only [pageNumber] at hbp
        omega
      exact hlower b.order (by omega) hb
  · simp only at hq hq'
    rw [hbuddy j hjk] at hq
    obtain rfl : q = p := by
      simp only [pageNumber] at hq
      omega
    rcases (h.listed ⟨q, j⟩).mp hq' with ⟨hq', -⟩ | ⟨i, -, -, heq⟩
    · exact hlower j hjk hq'
    · have hpos := Nat.two_pow_pos i
      rw [Block.mk.injEq] at heq
      omega

/-- The merge loop stops only next to a buddy that is not listed, if the region is aligned. -/
theorem Freed.noBuddies {s s' : Pmem} {L L' : Nat → List Nat} {live : List Block} {C : Nat → Prop}
    {b : Block} {p k : Nat} (h : Freed s L live C b s' L' p k) (hno : s.NoBuddies L)
    (hal : ∀ K, s.topOrder = some K → ∀ j, j < K → Dyadic.Aligned j (s.memStart / PGSIZE))
    (hmax : ∀ K, s.topOrder = some K → K ≤ BUDDY_MAX_ORDER) : s'.NoBuddies L' := by
  intro K hK b' hb' hlt q hq hq'
  rw [topOrder_congr h.same] at hK
  rw [h.same.pageNumber, h.same.pageNumber] at hq
  have hstop : k < K → ∀ p', s.pageNumber p' = Dyadic.buddy k (s.pageNumber p) → p' ∉ L' k := by
    intro hkK p' hp' hmem
    exact h.stop (lt_of_lt_of_le hkK (hmax K hK)) p' hp' hmem (hal K hK k hkK)
  rcases h.listed b' hb' with rfl | hb
  · exact hstop hlt q hq hq'
  · rcases h.listed ⟨q, b'.order⟩ hq' with heq | hq''
    · rw [Block.mk.injEq] at heq
      obtain ⟨rfl, hord⟩ := heq
      have hsym : s.pageNumber b'.page = Dyadic.buddy k (s.pageNumber q) := by
        rw [hq, hord, Dyadic.buddy_buddy]
      exact hstop (by omega) b'.page hsym (hord ▸ hb')
    · exact hno K hK b' hb hlt q hq hq''

namespace Inv

variable {s : Pmem} {L : Nat → List Nat}

/-- With nothing live and no pair of free buddies, only whole blocks are listed. -/
theorem order_eq_top (h : Inv s L [] none s.Managed) (hno : s.NoBuddies L) {b : Block}
    (hb : b.page ∈ L b.order) : s.topOrder = some b.order := by
  classical
  obtain ⟨k, hk, hle⟩ := (h.core.free b hb).1.order_le_top h.region
  -- look at a listed block of minimal order
  have hex : ∃ j, ∃ p, p ∈ L j := ⟨b.order, b.page, hb⟩
  obtain ⟨p, hp⟩ := Nat.find_spec hex
  have hmin : ∀ b' : Block, b'.page ∈ L b'.order → Nat.find hex ≤ b'.order :=
    fun b' hb' => Nat.find_min' hex ⟨b'.page, hb'⟩
  generalize Nat.find hex = j at hp hmin
  suffices hjk : ¬ j < k by
    have hge := hmin b hb
    obtain rfl : k = b.order := by omega
    exact hk
  intro hjk
  have hplaced := (h.core.free ⟨p, j⟩ hp).1
  obtain ⟨⟨P, k'⟩, hk', hP, hpP⟩ := (h.core.cover p).mpr (.inl ⟨⟨p, j⟩, hp, Block.page_mem ⟨p, j⟩⟩)
  obtain rfl : k = k' := Option.some_inj.mp (hk.symm.trans hk')
  have hal : Dyadic.Aligned j (s.pageNumber p) := hplaced.aligned
  have hpos := Nat.two_pow_pos j
  have hpow : 2 ^ (j + 1) = 2 ^ j + 2 ^ j := by ring
  -- its parent is inside the block of order `k`, so the other half `p'` is managed
  have hin : ∀ m, Dyadic.Aligned (j + 1) m → m ≤ s.pageNumber p → s.pageNumber p < m + 2 ^ (j + 1) →
      s.pageNumber P ≤ m ∧ m + 2 ^ (j + 1) ≤ s.pageNumber P + 2 ^ k := by
    intro m hm h1 h2
    refine hm.nested hP.aligned (by omega) h1 h2 ?_ ?_ <;>
      simp only [Block.mem_def, pageNumber] at * <;> omega
  have hcases : ∃ p', s.pageNumber p' = Dyadic.buddy j (s.pageNumber p) ∧ p' ∈ (⟨P, k⟩ : Block) ∧
      ∃ m, Dyadic.Aligned (j + 1) m ∧ m ≤ s.pageNumber p ∧ s.pageNumber p + 2 ^ j ≤ m + 2 ^ (j + 1) ∧
        m ≤ s.pageNumber p' ∧ s.pageNumber p' + 2 ^ j ≤ m + 2 ^ (j + 1) := by
    rcases hal.buddy_cases with ⟨hup, hsum⟩ | ⟨hdown, hsum⟩
    · obtain ⟨h1, h2⟩ := hin _ hup (le_refl _) (by omega)
      refine ⟨p + 2 ^ j, ?_, ?_, s.pageNumber p, hup, ?_⟩ <;>
        simp only [Block.mem_def, pageNumber] at * <;> omega
    · obtain ⟨h1, h2⟩ := hin _ hdown (by omega) (by omega)
      refine ⟨p - 2 ^ j, ?_, ?_, _, hdown, ?_⟩ <;> simp only [Block.mem_def, pageNumber] at * <;> omega
  obtain ⟨p', hp', hpP', m, hm, hm1, hm2, hm3, hm4⟩ := hcases
  obtain ⟨b', hb', hpb'⟩ | ⟨_, hlive, -⟩ | ⟨_, hdet, -⟩ := (h.core.cover p').mp ⟨⟨P, k⟩, hk, hP, hpP'⟩
  · have hb'placed := (h.core.free b' hb').1
    rcases Nat.lt_or_ge j b'.order with hlt | hge
    · -- a larger block around `p'` contains `p` too
      have hnest := hm.nested hb'placed.aligned hlt hm3 (by omega)
        (by simp only [Block.mem_def, pageNumber] at *; omega)
        (by simp only [Block.mem_def, pageNumber] at *; omega)
      have hpb : p ∈ b' := by
        simp only [Block.mem_def, pageNumber] at *
        omega
      have := h.core.free_disjoint hp hb' (Block.page_mem ⟨p, j⟩) hpb
      rw [← this] at hlt
      exact absurd hlt (lt_irrefl j)
    · -- a block of the same order is the buddy
      obtain ⟨pb, jb⟩ := b'
      obtain rfl : jb = j := le_antisymm hge (hmin _ hb')
      have hpb : p' = pb := by
        have hal' : Dyadic.Aligned jb (s.pageNumber p') := by
          rw [hp']
          exact hal.buddy_aligned
        have h1 := hal'.eq_floor (q := s.pageNumber p') (le_refl _) (by omega)
        have h2 := hb'placed.aligned.eq_floor (q := s.pageNumber p')
          (by simp only [Block.mem_def, pageNumber] at *; omega)
          (by simp only [Block.mem_def, pageNumber] at *; omega)
        simp only [pageNumber] at h1 h2
        omega
      exact hno k hk ⟨p, jb⟩ hp hjk p' hp' (hpb ▸ hb')
  · cases hlive
  · cases hdet

/-- With nothing live and no pair of free buddies, exactly the blocks of the picked order are
listed. -/
theorem listed_iff_placed (h : Inv s L [] none s.Managed) (hno : s.NoBuddies L) (b : Block) :
    b.page ∈ L b.order ↔ s.topOrder = some b.order ∧ s.Placed b := by
  constructor
  · exact fun hb => ⟨h.order_eq_top hno hb, (h.core.free b hb).1⟩
  · rintro ⟨htop, hb⟩
    rcases (h.core.cover b.page).mp ⟨b, htop, hb, b.page_mem⟩ with
      ⟨b', hb', hmem⟩ | ⟨_, hlive, -⟩ | ⟨_, hdet, -⟩
    · have hord : b'.order = b.order := Option.some_inj.mp ((h.order_eq_top hno hb').symm.trans htop)
      have hpage : b'.page = b.page := by
        have h1 := (h.core.free b' hb').1.aligned.eq_floor (q := s.memStart / PGSIZE + b.page)
          (by have := hmem.1; omega) (by have := hmem.2; omega)
        have h2 := hb.aligned.eq_floor (q := s.memStart / PGSIZE + b.page) (le_refl _)
          (by have := Nat.two_pow_pos b.order; omega)
        rw [hord] at h1
        omega
      rw [← hpage, ← hord]
      exact hb'
    · cases hlive
    · cases hdet

/-- The blocks read off the lists contain no pair of split halves. -/
theorem not_splitPair {live : List Block} (h : Inv s L live none s.Managed) (hno : s.NoBuddies L) :
    ¬ s.SplitPair (s.listedExtents L) := by
  rintro ⟨e, he, e', he', horder, haddr, k, hk, hlt⟩
  obtain ⟨b, hb, rfl⟩ := h.listing.mem_listedExtents.mp he
  obtain ⟨b', hb', rfl⟩ := h.listing.mem_listedExtents.mp he'
  have hnum : s.pageNumber b'.page = Dyadic.buddy b.order (s.pageNumber b.page) := by
    have : s.pageAddr b'.page = getBuddyAddr (s.pageAddr b.page) b.order := haddr
    rw [getBuddyAddr_eq h.region, pageAddr_eq h.region] at this
    exact Nat.eq_of_mul_eq_mul_left (by decide) this
  have hord : b'.order = b.order := horder
  exact hno k hk b hb hlt b'.page hnum (hord ▸ hb')

end Inv

/-- After `buddy_init` only whole blocks are listed. -/
theorem Pmem.noBuddies_of_top {s : Pmem} {L : Nat → List Nat}
    (h : ∀ b : Block, b.page ∈ L b.order → s.topOrder = some b.order) : s.NoBuddies L := by
  intro k hk b hb hlt
  have := Option.some_inj.mp ((h b hb).symm.trans hk)
  omega

/-- In an aligned region no run makes a pair of free buddies. -/
theorem noBuddies_of_reaches {s₀ : Pmem} {L₀ : Nat → List Nat}
    (hinv : Inv s₀ L₀ [] none s₀.Managed) (hno : s₀.NoBuddies L₀)
    (hal : ∀ K, s₀.topOrder = some K → ∀ j, j < K → Dyadic.Aligned j (s₀.memStart / PGSIZE))
    {h : Heap} (hrun : Reaches Heap.Step ⟨s₀, []⟩ h) :
    ∃ L live, h.Inv L live ∧ SameRegion s₀ h.pmem ∧ h.pmem.NoBuddies L := by
  refine hrun.invariant (I := fun h => ∃ L live, h.Inv L live ∧ SameRegion s₀ h.pmem ∧ h.pmem.NoBuddies L)
    ⟨L₀, [], ⟨hinv, rfl⟩, .refl s₀, hno⟩ ?_
  rintro t t' ⟨L, live, hinv, hsame, hno⟩ hstep
  rcases hinv.step_cases hstep with rfl | ⟨p, k, o, L', hal', hinv'⟩ | ⟨b, hb, L', p, k, hfr, hinv'⟩
  · exact ⟨L, live, hinv, hsame, hno⟩
  · exact ⟨L', _, hinv', hsame.trans hal'.same, hal'.noBuddies hinv.1 hno⟩
  · refine ⟨L', _, hinv', hsame.trans hfr.same, hfr.noBuddies hno ?_ ?_⟩
    · rw [topOrder_congr hsame, hsame.memStart]
      exact hal
    · intro K hK
      exact ((pickOrder_eq_some_iff hinv.1.region (le_refl _)).mp hK).1

/-- One page handed out and given back does not become part of a whole block again if the start
of the region is not aligned. -/
theorem exists_run_of_not_aligned {s₀ : Pmem} {L₀ : Nat → List Nat} {k : Nat}
    (hinv : Inv s₀ L₀ [] none s₀.Managed)
    (hlisted : ∀ b : Block, b.page ∈ L₀ b.order ↔ s₀.topOrder = some b.order ∧ s₀.Placed b)
    (hk : s₀.topOrder = some (k + 1)) (hal : ¬ Dyadic.Aligned k (s₀.memStart / PGSIZE)) :
    ∃ h : Heap, Reaches Heap.Step ⟨s₀, []⟩ h ∧ h.live = [] ∧ SameRegion s₀ h.pmem ∧
      ∃ L, h.Inv L [] ∧ ∃ b : Block, b.page ∈ L b.order ∧ b.order ≤ k := by
  obtain ⟨hmax, hfits, -⟩ := (pickOrder_eq_some_iff hinv.region (le_refl _)).mp hk
  have hfirst : s₀.firstPage (k + 1) ∈ L₀ (k + 1) := (hlisted ⟨s₀.firstPage (k + 1), k + 1⟩).mpr
      ⟨hk, hmax, s₀.metaPages_le_firstPage _, hfits, s₀.firstPage_aligned _⟩
  rcases hinv.buddyAlloc 0 with ⟨-, hempty⟩ | ⟨p, k', o, s₁, L₁, ho, hcall, hal₁⟩
  · rw [hempty (le_refl _) (k + 1) (by omega)] at hfirst
    cases hfirst
  obtain rfl : o = 0 := by omega
  have hpp := (hinv.core.free ⟨p, k'⟩ hal₁.mem_list).1
  have hne := pageAddr_ne_zero hpp.page_lt hpp.meta_le
  have hinv₁ : Inv s₁ L₁ [⟨p, 0⟩] none s₁.Managed := by
    rw [managed_congr hal₁.same]
    exact hal₁.inv
  obtain ⟨s₂, L₂, p₂, k₂, hfree, hfr⟩ := hinv₁.buddyFree (List.mem_singleton.mpr rfl)
    (Block.page_mem ⟨p, 0⟩) (le_refl (0 : Int)) (by decide)
  rw [hal₁.same.pageAddr] at hfree
  have hsame := hal₁.same.trans hfr.same
  refine ⟨⟨s₂, []⟩, ?_, rfl, hsame, L₂, ⟨?_, rfl⟩, ⟨p₂, k₂⟩, hfr.mem_list, ?_⟩
  · refine Relation.ReflTransGen.tail (.single (.alloc hcall hne)) ?_
    have hstep := Heap.Step.free (h := ⟨s₁, [⟨s₀.pageAddr p, 0⟩]⟩) (e := ⟨s₀.pageAddr p, 0⟩)
      (List.mem_singleton.mpr rfl) hfree
    simpa using hstep
  · have := hfr.inv
    rw [managed_congr hfr.same]
    simpa using this
  · -- reaching order `k + 1` would pass level `k`
    by_contra hgt
    simp only [not_le] at hgt
    have := hfr.levels k (Nat.zero_le _) hgt
    rw [hal₁.same.memStart] at this
    exact hal this

theorem mergeAligned_iff {start end_ : Nat} (hregion : ValidRegion start end_) {s : Pmem}
    (hr : s.Region) (hstart : s.memStart = start) (hend : s.memEnd = end_) :
    MergeAligned start end_ ↔ ∀ k, s.topOrder = some (k + 1) → Dyadic.Aligned k (s.memStart / PGSIZE) := by
  have htotal : s.totalPages = (end_ - start) / PGSIZE := by
    have h1 := hr.end_eq
    rw [hstart, hend] at h1
    simp only [PGSIZE] at *
    omega
  have hmod : ∀ k : Nat, start % blockSize k = 0 ↔ Dyadic.Aligned k (start / PGSIZE) := by
    intro k
    have hpage : start = PGSIZE * (start / PGSIZE) := by
      have := hregion.start_aligned
      simp only [PGSIZE] at *
      omega
    rw [Dyadic.Aligned, blockSize_natCast]
    conv_lhs => rw [hpage, Nat.mul_mod_mul_left, Nat.mul_eq_zero]
    simp
  simp only [MergeAligned, topOrder, metaEnd, hstart, hend, htotal, hmod]

/-- If all runs coalesce, the start of the region is aligned. -/
theorem FullCoalescing.mergeAligned {start end_ : Nat} {mem : Nat → UInt8}
    (hfull : FullCoalescing start end_ mem) (hregion : ValidRegion start end_) :
    MergeAligned start end_ := by
  obtain ⟨s₀, L₀, hinit, hstart, hend, -, hinv, hlisted⟩ := buddyInit_inv hregion mem
  rw [mergeAligned_iff hregion hinv.region hstart hend]
  intro k hk
  by_contra hal
  obtain ⟨h, hrun, hlive, hsame, L, ⟨hinv', -⟩, b, hb, hle⟩ := exists_run_of_not_aligned hinv hlisted hk hal
  obtain ⟨free, hfree, -, hperm⟩ := hfull s₀ _ hinit hinv.listing.freeBlocks h hrun
  obtain rfl : h.pmem.listedExtents L = free := Option.some_inj.mp (hinv'.listing.freeBlocks.symm.trans hfree)
  have hmem := (hperm hlive).subset (hinv'.listing.extent_mem_listedExtents.mpr hb)
  rw [extent_congr hsame, hinv.listing.extent_mem_listedExtents, hlisted, hk, Option.some_inj] at hmem
  omega

/-- In an aligned region all runs coalesce. -/
theorem MergeAligned.fullCoalescing {start end_ : Nat} (hal : MergeAligned start end_)
    (hregion : ValidRegion start end_) (mem : Nat → UInt8) : FullCoalescing start end_ mem := by
  obtain ⟨s₀, L₀, hinit, hstart, hend, -, hinv, hlisted⟩ := buddyInit_inv hregion mem
  rw [mergeAligned_iff hregion hinv.region hstart hend] at hal
  intro s₀' free₀ hinit' hfree₀ h hrun
  obtain rfl : s₀ = s₀' := Option.some_inj.mp (hinit.symm.trans hinit')
  obtain rfl : s₀.listedExtents L₀ = free₀ := Option.some_inj.mp (hinv.listing.freeBlocks.symm.trans hfree₀)
  have hbelow : ∀ K, s₀.topOrder = some K → ∀ j, j < K → Dyadic.Aligned j (s₀.memStart / PGSIZE) := by
    intro K hK j hj
    obtain ⟨k, rfl⟩ : ∃ k, K = k + 1 := ⟨K - 1, by omega⟩
    exact (hal k hK).of_le (by omega)
  obtain ⟨L, live, ⟨hinv', hlive⟩, hsame, hno⟩ := noBuddies_of_reaches hinv
    (noBuddies_of_top fun b hb => ((hlisted b).mp hb).1) hbelow hrun
  refine ⟨_, hinv'.listing.freeBlocks, hinv'.not_splitPair hno, fun hnil => ?_⟩
  obtain rfl : live = [] := by
    rw [hnil] at hlive
    exact List.map_eq_nil_iff.mp hlive.symm
  refine (List.perm_ext_iff_of_nodup hinv'.listing.nodup_listedExtents
    hinv.listing.nodup_listedExtents).mpr fun e => ?_
  rw [hinv'.listing.mem_listedExtents, hinv.listing.mem_listedExtents, extent_congr hsame]
  refine exists_congr fun b => and_congr_left fun _ => ?_
  rw [hinv'.listed_iff_placed hno, hlisted, topOrder_congr hsame, Placed, hsame.memStart, hsame.totalPages]

/-- Full coalescing holds exactly when the start of the region is a multiple of half a block of
the order that `buddy_init` picks. -/
theorem fullCoalescing_iff {start end_ : Nat} (hregion : ValidRegion start end_) (mem : Nat → UInt8) :
    FullCoalescing start end_ mem ↔ MergeAligned start end_ :=
  ⟨fun hfull => hfull.mergeAligned hregion, fun hal => hal.fullCoalescing hregion mem⟩

theorem fullCoalescing_iff_sixteenPages :
    FullCoalescing 0x80000000 0x80010000 (fun _ => 0) ↔ MergeAligned 0x80000000 0x80010000 :=
  fullCoalescing_iff validRegion_sixteenPages _

/-- The same sixteen pages one page higher: the eight pages that `buddy_init` lists as one block
start on a multiple of eight pages, but seven pages behind the start of the region. Once split,
the block is never put together again. -/
theorem not_fullCoalescing_unaligned : ¬ FullCoalescing 0x80001000 0x80011000 fun _ => 0 := by
  have hregion : ValidRegion 0x80001000 0x80011000 :=
    ⟨by decide, by decide, by decide, by decide, by decide⟩
  intro hfull
  have hmod := hfull.mergeAligned hregion 2 (by decide)
  exact absurd hmod (by decide)

end SC7
