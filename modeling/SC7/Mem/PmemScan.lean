-- SUMMARY: The scan with which `buddy_init` and the rebuild fill the free lists, and the state after `buddy_init`.
import SC7.Mem.PmemOps

/-!
# Filling the free lists

`buddy_init` and `buddy_cleanup_and_rebuild` pick one order, the largest of which a block
fits between the metadata and the end of the region, and go through the aligned blocks of
that order. Pages outside these blocks are never handed out.
-/

namespace SC7

open Function (update update_of_ne update_self)

namespace Pmem

variable {s s' : Pmem} {k p q : Nat} {P : Nat → Prop} {add : Pmem → Nat → Nat → Option Pmem}

/-- The first page after the metadata at which an aligned block of order `k` can start. -/
def firstPage (s : Pmem) (k : Nat) : Nat :=
  Dyadic.ceil k (s.pageNumber (metaPages s.totalPages)) - s.memStart / PGSIZE

theorem pageNumber_firstPage (s : Pmem) (k : Nat) :
    s.pageNumber (s.firstPage k) = Dyadic.ceil k (s.pageNumber (metaPages s.totalPages)) := by
  have := Dyadic.le_ceil k (s.pageNumber (metaPages s.totalPages))
  simp only [pageNumber, firstPage] at *
  omega

theorem firstPage_aligned (s : Pmem) (k : Nat) : Dyadic.Aligned k (s.pageNumber (s.firstPage k)) := by
  rw [pageNumber_firstPage]
  exact Dyadic.ceil_aligned k _

theorem metaPages_le_firstPage (s : Pmem) (k : Nat) : metaPages s.totalPages ≤ s.firstPage k := by
  have := Dyadic.le_ceil k (s.pageNumber (metaPages s.totalPages))
  simp only [pageNumber, firstPage] at *
  omega

theorem firstPage_lt (s : Pmem) (k : Nat) : s.firstPage k < metaPages s.totalPages + 2 ^ k := by
  have h1 := Dyadic.ceil_lt k (s.pageNumber (metaPages s.totalPages))
  have h2 := Dyadic.le_ceil k (s.pageNumber (metaPages s.totalPages))
  simp only [pageNumber, firstPage] at *
  omega

theorem firstPage_le (hal : Dyadic.Aligned k (s.pageNumber p)) (hp : metaPages s.totalPages ≤ p) :
    s.firstPage k ≤ p := by
  have := hal.ceil_le (q := s.pageNumber (metaPages s.totalPages)) (by simp only [pageNumber]; omega)
  simp only [pageNumber, firstPage] at *
  omega

/-- Addresses two maximal blocks past the region do not wrap. -/
theorem pageAddr_lt_of_lt (hr : s.Region) (hp : p < s.totalPages + 2 * 2 ^ BUDDY_MAX_ORDER) :
    s.pageAddr p < 2 ^ 64 := by
  have h1 := hr.end_eq
  have h2 := hr.end_le
  have hsize : blockSize BUDDY_MAX_ORDER = 8388608 := by decide
  rw [hsize] at h2
  simp only [pageAddr, PGSIZE, BUDDY_MAX_ORDER] at *
  omega

theorem two_pow_le_max (hk : k ≤ BUDDY_MAX_ORDER) : 2 ^ k ≤ 2 ^ BUDDY_MAX_ORDER :=
  Nat.pow_le_pow_right (by decide) hk

theorem alignUp_metaEnd (hr : s.Region) (hk : k ≤ BUDDY_MAX_ORDER) :
    alignUp s.metaEnd (blockSize k) = s.pageAddr (s.firstPage k) := by
  have hmeta : s.metaEnd = PGSIZE * s.pageNumber (metaPages s.totalPages) :=
    pageAddr_eq hr (metaPages s.totalPages)
  have hpos := Nat.two_pow_pos k
  have hmax := two_pow_le_max hk
  -- the sum does not wrap
  have hsum : add64 s.metaEnd (blockSize k - 1) =
      PGSIZE * (s.pageNumber (metaPages s.totalPages) + (2 ^ k - 1)) + (PGSIZE - 1) := by
    have hlt := pageAddr_lt_of_lt hr (p := metaPages s.totalPages + 2 ^ k) (by have := hr.room; omega)
    rw [pageAddr_eq hr] at hlt
    rw [add64, hmeta, blockSize_natCast]
    simp only [pageNumber, PGSIZE] at *
    omega
  have hdiv : add64 s.metaEnd (blockSize k - 1) / blockSize k =
      (s.pageNumber (metaPages s.totalPages) + (2 ^ k - 1)) / 2 ^ k := by
    rw [hsum, blockSize_natCast, ← Nat.div_div_eq_div_mul, Nat.mul_add_div (by decide),
      show (PGSIZE - 1) / PGSIZE = 0 from rfl, Nat.add_zero]
  calc alignUp s.metaEnd (blockSize k)
      = (s.pageNumber (metaPages s.totalPages) + (2 ^ k - 1)) / 2 ^ k * blockSize k := by
        rw [alignUp, hdiv]
    _ = PGSIZE * Dyadic.ceil k (s.pageNumber (metaPages s.totalPages)) := by
        rw [blockSize_natCast, Dyadic.ceil, Dyadic.floor]
        ring
    _ = s.pageAddr (s.firstPage k) := by
        rw [pageAddr_eq hr, pageNumber_firstPage]

/-- The test of the loop over the blocks: the next block does not fit. -/
theorem add64_gt_memEnd_iff (hr : s.Region) (hk : k ≤ BUDDY_MAX_ORDER)
    (hp : p < s.totalPages + 2 ^ BUDDY_MAX_ORDER) :
    add64 (s.pageAddr p) (blockSize k) > s.memEnd ↔ s.totalPages < p + 2 ^ k := by
  have hmax := two_pow_le_max hk
  have hlt := pageAddr_lt_of_lt hr (p := p + 2 ^ k) (by omega)
  have heq : s.pageAddr p + PGSIZE * 2 ^ k = s.pageAddr (p + 2 ^ k) := by
    simp only [pageAddr]
    ring
  rw [add64, blockSize_natCast, heq, Nat.mod_eq_of_lt hlt, hr.end_eq]
  simp only [pageAddr, PGSIZE]
  omega

/-- A block of order `k` fits between the metadata and the end of the region. -/
def Fits (s : Pmem) (k : Nat) : Prop := s.firstPage k + 2 ^ k ≤ s.totalPages

theorem not_fits_iff (hr : s.Region) (hk : k ≤ BUDDY_MAX_ORDER) :
    add64 (alignUp s.metaEnd (blockSize k)) (blockSize k) > s.memEnd ↔ ¬ s.Fits k := by
  have h1 := s.firstPage_lt k
  have h2 := two_pow_le_max hk
  have h3 := hr.room
  rw [alignUp_metaEnd hr hk, add64_gt_memEnd_iff hr hk (by omega), Fits, Nat.not_le]

/-- The order that is picked is the largest one that fits. -/
theorem pickOrder_eq_some_iff (hr : s.Region) {n : Nat} (hn : n ≤ BUDDY_MAX_ORDER) :
    pickOrder s.metaEnd s.memEnd n = some k ↔ k ≤ n ∧ s.Fits k ∧ ∀ j, k < j → j ≤ n → ¬ s.Fits j := by
  induction n with
  | zero =>
    have hfit := not_fits_iff hr (k := 0) (by omega)
    rw [Nat.cast_zero] at hfit
    rw [pickOrder]
    by_cases h : s.Fits 0
    · rw [if_neg (fun hgt => hfit.mp hgt h), Option.some_inj]
      constructor
      · rintro rfl
        exact ⟨le_refl _, h, fun j h1 h2 => by omega⟩
      · rintro ⟨h1, -, -⟩
        omega
    · rw [if_pos (hfit.mpr h)]
      constructor
      · intro hk
        cases hk
      · rintro ⟨h1, h2, -⟩
        obtain rfl : k = 0 := by omega
        exact absurd h2 h
  | succ n ih =>
    have hfit := not_fits_iff hr hn
    rw [pickOrder]
    by_cases h : s.Fits (n + 1)
    · rw [if_neg (fun hgt => hfit.mp hgt h), Option.some_inj]
      constructor
      · rintro rfl
        exact ⟨le_refl _, h, fun j h1 h2 => by omega⟩
      · rintro ⟨h1, -, h3⟩
        by_contra hne
        exact h3 (n + 1) (by omega) (le_refl _) h
    · rw [if_pos (hfit.mpr h), ih (by omega)]
      constructor
      · rintro ⟨h1, h2, h3⟩
        refine ⟨by omega, h2, fun j hj hjn => ?_⟩
        by_cases hj' : j = n + 1
        · rw [hj']
          exact h
        · exact h3 j hj (by omega)
      · rintro ⟨h1, h2, h3⟩
        have hne : k ≠ n + 1 := fun heq => h (heq ▸ h2)
        exact ⟨by omega, h2, fun j hj hjn => h3 j hj (by omega)⟩

/-- The order of the blocks under the buddy system; `none` if the region is too small for one. -/
def topOrder (s : Pmem) : Option Nat := pickOrder s.metaEnd s.memEnd BUDDY_MAX_ORDER

/-- The page belongs to a block that the scan goes through. -/
def Managed (s : Pmem) (q : Nat) : Prop := ∃ b : Block, s.topOrder = some b.order ∧ s.Placed b ∧ q ∈ b

theorem topOrder_congr (h : SameRegion s s') : s'.topOrder = s.topOrder := by
  simp only [topOrder, metaEnd, h.memStart, h.memEnd, h.totalPages]

theorem managed_congr (h : SameRegion s s') : s'.Managed = s.Managed := by
  funext q
  simp only [Managed, topOrder_congr h, Placed, h.memStart, h.totalPages]

/-! ## The loop over the blocks -/

/-- The scan of `s` over the blocks of order `k` has reached page `cur` in state `t`: it has
recorded and listed the blocks that pass `P`. -/
structure Scanned (s : Pmem) (k : Nat) (P : Nat → Prop) (cur : Nat) (t : Pmem) (l : List Nat) :
    Prop where
  same : SameRegion s t
  bitmap : t.bitmap = s.bitmap
  mem_eq : t.mem = s.mem
  recorded : ∀ p ∈ l, t.Recorded ⟨p, k⟩
  nodes : ∀ q, (∀ p ∈ l, q ∉ (⟨p, k⟩ : Block)) → t.nodes q = s.nodes q
  lists : FreeLists t.elems (update (fun _ => []) k l)
  mem_iff : ∀ p, p ∈ l ↔ s.Placed ⟨p, k⟩ ∧ p < cur ∧ P p

/-- What the scan needs of its body: a block that passes `P` is recorded and pushed, another
one is skipped. -/
structure Adds (s : Pmem) (k : Nat) (P : Nat → Prop) (add : Pmem → Nat → Nat → Option Pmem) :
    Prop where
  take : ∀ {t L p}, SameRegion s t → t.bitmap = s.bitmap → FreeLists t.elems L →
    s.Placed ⟨p, k⟩ → (∀ j, p ∉ L j) → P p →
    ∃ E, add t k (s.pageAddr p) = some { t.recordBlock ⟨p, k⟩ with elems := E } ∧
      FreeLists E (update L k (p :: L k))
  skip : ∀ {t p}, SameRegion s t → t.bitmap = s.bitmap → s.Placed ⟨p, k⟩ → ¬ P p →
    add t k (s.pageAddr p) = some t

/-- A block of the same order that starts earlier ends before this one starts. -/
theorem Placed.add_le_of_lt (hp : s.Placed ⟨p, k⟩) (hq : s.Placed ⟨q, k⟩) (hlt : p < q) : p + 2 ^ k ≤ q := by
  by_contra hgt
  have h1 := hp.aligned.eq_floor (q := s.memStart / PGSIZE + q) (by simp only; omega) (by simp only; omega)
  have h2 := hq.aligned.eq_floor (q := s.memStart / PGSIZE + q) (le_refl _)
    (by have := Nat.two_pow_pos k; simp only; omega)
  simp only at h1 h2
  omega

/-- One round of the scan. -/
theorem Scanned.round {t : Pmem}
    {l : List Nat} (hadd : Adds s k P add) (h : Scanned s k P p t l) (hp : s.Placed ⟨p, k⟩) :
    ∃ t' l', add t k (s.pageAddr p) = some t' ∧ Scanned s k P (p + 2 ^ k) t' l' := by
  have hpos := Nat.two_pow_pos k
  have hnext : ∀ q, s.Placed ⟨q, k⟩ → (q < p + 2 ^ k ↔ q = p ∨ q < p) := by
    intro q hq
    constructor
    · intro hlt
      by_contra hne
      have := hp.add_le_of_lt hq (by omega)
      omega
    · rintro (rfl | hlt) <;> omega
  have hbefore : ∀ q ∈ l, ∀ r ∈ (⟨q, k⟩ : Block), r ∉ (⟨p, k⟩ : Block) := by
    intro q hq r hr hr'
    have hqp := (h.mem_iff q).mp hq
    have := hqp.1.add_le_of_lt hp hqp.2.1
    simp only [Block.mem_def] at hr hr'
    omega
  by_cases hP : P p
  · have hnot : ∀ j, p ∉ update (fun _ => []) k l j := by
      intro j hmem
      by_cases hj : j = k
      · subst hj
        rw [update_self] at hmem
        have := ((h.mem_iff p).mp hmem).2.1
        omega
      · rw [update_of_ne hj] at hmem
        cases hmem
    obtain ⟨E, hrun, hlists⟩ := hadd.take h.same h.bitmap h.lists hp hnot hP
    rw [update_self, Function.update_idem] at hlists
    refine ⟨_, p :: l, hrun, ⟨h.same.memStart, h.same.memEnd, h.same.totalPages⟩, h.bitmap, h.mem_eq,
      ?_, ?_, hlists, ?_⟩
    · intro q hq
      rcases List.mem_cons.mp hq with rfl | hq
      · exact recordBlock_recorded t _
      · exact (h.recorded q hq).recordBlock (hbefore q hq)
    · intro q hq
      have hqp := hq p List.mem_cons_self
      exact (if_neg hqp).trans (h.nodes q fun r hr => hq r (List.mem_cons_of_mem _ hr))
    · intro q
      rw [List.mem_cons, h.mem_iff]
      constructor
      · rintro (rfl | ⟨h1, h2, h3⟩)
        · exact ⟨hp, by omega, hP⟩
        · exact ⟨h1, by omega, h3⟩
      · rintro ⟨h1, h2, h3⟩
        rcases (hnext q h1).mp h2 with rfl | h2
        · exact .inl rfl
        · exact .inr ⟨h1, h2, h3⟩
  · refine ⟨t, l, hadd.skip h.same h.bitmap hp hP, { h with mem_iff := fun q => ?_ }⟩
    rw [h.mem_iff]
    constructor
    · rintro ⟨h1, h2, h3⟩
      exact ⟨h1, by omega, h3⟩
    · rintro ⟨h1, h2, h3⟩
      rcases (hnext q h1).mp h2 with rfl | h2
      · exact absurd h3 hP
      · exact ⟨h1, h2, h3⟩

/-- The whole scan, from empty lists: it ends, and exactly the blocks that pass `P` are listed. -/
theorem scan_some (hr : s.Region)
    (hk : s.topOrder = some k) (hadd : Adds s k P add) (hempty : FreeLists s.elems fun _ => []) :
    ∃ t l, s.scan add = some t ∧ Scanned s k P s.totalPages t l := by
  obtain ⟨hk11, hfits, -⟩ := (pickOrder_eq_some_iff hr (le_refl _)).mp hk
  have hpos := Nat.two_pow_pos k
  let I : Pmem × Nat → Prop := fun st => ∃ p l, st.2 = s.pageAddr p ∧ p ≤ s.totalPages ∧
    metaPages s.totalPages ≤ p ∧ Dyadic.Aligned k (s.pageNumber p) ∧ Scanned s k P p st.1 l
  have hguard : ∀ {t p l}, p ≤ s.totalPages → Scanned s k P p t l →
      (decide (add64 (s.pageAddr p) (blockSize k) ≤ t.memEnd) = true ↔ p + 2 ^ k ≤ s.totalPages) := by
    intro t p l hp h
    have := add64_gt_memEnd_iff hr hk11 (p := p) (by have := Nat.two_pow_pos BUDDY_MAX_ORDER; omega)
    rw [decide_eq_true_iff, h.same.memEnd]
    omega
  have hinit : I (s, alignUp s.metaEnd (blockSize k)) := by
    refine ⟨s.firstPage k, [], alignUp_metaEnd hr hk11, ?_, s.metaPages_le_firstPage k,
      s.firstPage_aligned k, .refl s, rfl, rfl, ?_, fun _ _ => rfl, ?_, ?_⟩
    · simp only [Fits] at hfits
      omega
    · intro p hp
      cases hp
    · rwa [Function.update_eq_self_iff.mpr rfl]
    · intro p
      constructor
      · intro hp
        cases hp
      · rintro ⟨h1, h2, -⟩
        have := firstPage_le h1.aligned h1.meta_le
        simp only at this
        omega
  have hloop := Loop.run_total (I := I)
    (c := fun st : Pmem × Nat => decide (add64 st.2 (blockSize k) ≤ st.1.memEnd))
    (f := fun st => (add st.1 k st.2).map fun s => (s, add64 st.2 (blockSize k)))
    (fun st => s.totalPages - s.pageIdx st.2) (n := s.totalPages + 1)
    (by
      rintro ⟨t, a⟩ ⟨p, l, rfl, hp, hm, hal, hsc⟩ hc
      have hfit := (hguard hp hsc).mp hc
      obtain ⟨t', l', hround, hsc'⟩ := hsc.round hadd ⟨hk11, hm, hfit, hal⟩
      have hnext := add64_pageAddr hr hfit
      refine ⟨(t', s.pageAddr (p + 2 ^ k)), ?_, ⟨p + 2 ^ k, l', rfl, hfit, by omega, ?_, hsc'⟩, ?_⟩
      · simp only [hround, Option.map_some, hnext]
      · have := hal.add
        simpa [pageNumber, Nat.add_assoc] using this
      · simp only [pageIdx_pageAddr hr hp, pageIdx_pageAddr hr hfit]
        omega)
    hinit (by simp only; omega)
  obtain ⟨st, hrun, ⟨p, l, haddr, hp, -, hal, hsc⟩, hexit⟩ := hloop
  refine ⟨st.1, l, ?_, { hsc with mem_iff := fun q => ?_ }⟩
  · have hscan : s.scan add = s.scanFrom add (some k) := congrArg (s.scanFrom add) hk
    rw [hscan, scanFrom]
    exact congrArg (Option.map Prod.fst) hrun
  · -- no block fits behind the page where the loop stopped
    rw [haddr] at hexit
    have hend : ¬ p + 2 ^ k ≤ s.totalPages := fun hle => by
      rw [(hguard hp hsc).mpr hle] at hexit
      cases hexit
    rw [hsc.mem_iff]
    constructor
    · rintro ⟨h1, h2, h3⟩
      exact ⟨h1, h1.page_lt, h3⟩
    · rintro ⟨h1, -, h3⟩
      refine ⟨h1, ?_, h3⟩
      have hfits := h1.fits
      simp only at hfits
      omega

theorem scan_none (hk : s.topOrder = none) : s.scan add = some s := by
  have hscan : s.scan add = s.scanFrom add none := congrArg (s.scanFrom add) hk
  rw [hscan, scanFrom]

/-- The body of the loop of `buddy_init` takes every block. -/
theorem initBlock_adds (hr : s.Region) (k : Nat) : Adds s k (fun _ => True) initBlock where
  take := by
    intro t L p hsame _ hlists hp hnot _
    have hr' := hsame.region hr
    have hp' := hsame.placed hp
    have hidx : t.pageIdx (t.pageAddr p) = p := pageIdx_pageAddr hr' (Nat.le_of_lt hp'.page_lt)
    obtain ⟨E, hpush, hlists'⟩ := pushFront_of_lists (s := t.setNode p ⟨t.pageAddr p, k⟩) hlists
      hp.order_le hnot
    refine ⟨E, ?_, hlists'⟩
    rw [← hsame.pageAddr p]
    simp only [initBlock, hidx, hpush, Option.bind_eq_bind, Option.bind_some]
    have hmeta := setBlockMetadata_eq (s := { t.setNode p ⟨t.pageAddr p, k⟩ with elems := E }) hp' hr'
    have hnode := recordBlock_setNode (s := { t with elems := E }) (b := ⟨p, k⟩)
      (Block.page_mem ⟨p, k⟩) ⟨t.pageAddr p, k⟩
    exact congrArg some (hmeta.trans hnode)
  skip := fun _ _ _ h => absurd trivial h

/-- The body of the loop of the rebuild takes the blocks without a used page. -/
theorem relistBlock_adds (hr : s.Region) (k : Nat) : Adds s k (fun p => s.Clear ⟨p, k⟩) relistBlock where
  take := by
    intro t L p hsame hbits hlists hp hnot hclear
    have hr' := hsame.region hr
    have hp' := hsame.placed hp
    have hidx : t.pageIdx (t.pageAddr p) = p := pageIdx_pageAddr hr' (Nat.le_of_lt hp'.page_lt)
    have hall : t.bitmap.allClear p (2 ^ k) = true := by
      rw [Bitmap.allClear_iff, hbits]
      exact fun j h1 h2 => hclear j ⟨h1, h2⟩
    have hrec := setBlockMetadata_setNode hr' hp' ⟨t.pageAddr p, k⟩
    obtain ⟨E, hpush, hlists'⟩ := pushFront_of_lists (s := t.recordBlock ⟨p, k⟩) hlists hp.order_le hnot
    refine ⟨E, ?_, hlists'⟩
    rw [← hsame.pageAddr p, relistBlock]
    simp only [hidx, blockSize_div, hall, if_true]
    exact (congrArg (pushFront · k p) hrec).trans hpush
  skip := by
    intro t p hsame hbits hp hclear
    have hr' := hsame.region hr
    have hp' := hsame.placed hp
    have hidx : t.pageIdx (t.pageAddr p) = p := pageIdx_pageAddr hr' (Nat.le_of_lt hp'.page_lt)
    have hall : ¬ t.bitmap.allClear p (2 ^ k) = true := by
      rw [Bitmap.allClear_iff, hbits]
      exact fun h => hclear fun q hq => h q hq.1 hq.2
    rw [← hsame.pageAddr p, relistBlock]
    simp only [hidx, blockSize_div, if_neg hall]

/-! ## The state after `buddy_init` -/

theorem markMeta_eq (s : Pmem) (n : Nat) :
    SameRegion s (s.markMeta n) ∧ (s.markMeta n).elems = s.elems ∧ (s.markMeta n).mem = s.mem ∧
      (∀ q, (s.markMeta n).bitmap.test q = (decide (q < n) || s.bitmap.test q)) ∧
      ∀ q, (s.markMeta n).nodes q = if q < n then ⟨s.pageAddr q, -1⟩ else s.nodes q := by
  induction n with
  | zero => exact ⟨.refl s, rfl, rfl, by simp [markMeta], by simp [markMeta]⟩
  | succ n ih =>
    obtain ⟨hsame, helems, hmem, hbits, hnodes⟩ := ih
    refine ⟨⟨hsame.memStart, hsame.memEnd, hsame.totalPages⟩, helems, hmem, fun q => ?_, fun q => ?_⟩
    · simp only [markMeta, setNode, Bitmap.test_set, hbits]
      rw [← Bool.or_assoc, ← Bool.decide_or]
      congr 2
      exact propext (by omega)
    · simp only [markMeta, setNode]
      by_cases hq : q = n
      · subst hq
        rw [update_self, if_pos (by omega)]
        exact congrArg (BuddyNode.mk · _) (hsame.pageAddr q)
      · rw [update_of_ne hq, hnodes]
        exact if_congr (by omega) rfl rfl

end Pmem

/-- A region that `buddy_init` is given: page-aligned, with room for its metadata, and away from
the end of the address space. -/
structure ValidRegion (start end_ : Nat) : Prop where
  start_aligned : start % PGSIZE = 0
  end_aligned : end_ % PGSIZE = 0
  start_le : start ≤ end_
  room : metaPages ((end_ - start) / PGSIZE) * PGSIZE ≤ end_ - start
  end_le : end_ + 2 * blockSize BUDDY_MAX_ORDER ≤ 2 ^ 64

namespace ValidRegion

variable {start end_ : Nat}

theorem totalPages (h : ValidRegion start end_) : sub64 end_ start / PGSIZE = (end_ - start) / PGSIZE := by
  have h1 := h.start_le
  have h2 := h.end_le
  have h3 : 0 < 2 * blockSize BUDDY_MAX_ORDER := by decide
  have h4 : sub64 end_ start = end_ - start := by
    rw [sub64]
    omega
  rw [h4]

theorem regionAt (h : ValidRegion start end_) : RegionAt start end_ (sub64 end_ start / PGSIZE) where
  start_aligned := h.start_aligned
  end_eq := by
    have h1 := h.start_le
    have h2 := h.start_aligned
    have h3 := h.end_aligned
    rw [h.totalPages]
    simp only [PGSIZE] at *
    omega
  end_le := h.end_le
  room := by
    have h1 := h.room
    rw [h.totalPages]
    simp only [PGSIZE] at *
    omega

/-- The region that `pmem_init` passes on is valid wherever the linker puts the kernel, except in
the last two gigabytes of the address space. -/
theorem pmemInit {kernelData : Nat} (h : kernelData + 2 ^ 31 ≤ 2 ^ 64) (arch : Arch) :
    ValidRegion (pgRoundUp kernelData) (add64 (pgRoundUp kernelData) (PAGE_NUM arch * PGSIZE)) := by
  have hup : pgRoundUp kernelData = (kernelData + 4095) / 4096 * 4096 := by
    rw [pgRoundUp, alignUp, add64]
    simp only [PGSIZE]
    omega
  have hblock : blockSize BUDDY_MAX_ORDER = 8388608 := by decide
  rw [hup]
  constructor <;> cases arch <;> simp only [add64, metaPages, hblock, PAGE_NUM, PGSIZE] <;> omega

end ValidRegion

namespace Pmem

/-- Before its scan `buddy_init` has empty lists, and only the metadata pages are in use and
recorded. -/
structure Fresh (s : Pmem) : Prop where
  region : s.Region
  lists : FreeLists s.elems fun _ => []
  bits : ∀ q, s.bitmap.test q = decide (q < metaPages s.totalPages)
  nodes : ∀ q, s.nodes q = if q < metaPages s.totalPages then ⟨s.pageAddr q, -1⟩ else ⟨0, 0⟩

theorem buddyInitMeta_fresh {start end_ : Nat} (h : ValidRegion start end_) (mem : Nat → UInt8) :
    (buddyInitMeta start end_ mem).Fresh ∧ (buddyInitMeta start end_ mem).memStart = start ∧
      (buddyInitMeta start end_ mem).memEnd = end_ ∧ (buddyInitMeta start end_ mem).mem = mem := by
  obtain ⟨hsame, helems, hmem, hbits, hnodes⟩ := markMeta_eq
    { memStart := start, memEnd := end_, totalPages := sub64 end_ start / PGSIZE
      bitmap := fun _ => 0#64, nodes := fun _ => ⟨0, 0⟩
      elems := Pmem.initLists ⟨fun _ => .null, fun _ => .null⟩ (BUDDY_MAX_ORDER + 1), mem := mem }
    (metaPages (sub64 end_ start / PGSIZE))
  have htotal : (buddyInitMeta start end_ mem).totalPages = sub64 end_ start / PGSIZE := hsame.totalPages
  refine ⟨⟨hsame.region h.regionAt, ?_, fun q => ?_, fun q => ?_⟩, hsame.memStart, hsame.memEnd, hmem⟩
  · rw [buddyInitMeta, helems]
    exact FreeLists.init _
  · rw [htotal, buddyInitMeta, hbits]
    simp [Bitmap.test]
  · rw [htotal, buddyInitMeta, hsame.pageAddr, hnodes]

theorem mem_update_nil {l : List Nat} {k : Nat} {b : Block} :
    b.page ∈ update (fun _ => []) k l b.order ↔ b.order = k ∧ b.page ∈ l := by
  by_cases hb : b.order = k
  · rw [hb, update_self]
    simp
  · rw [update_of_ne hb]
    simp [hb]

/-- With nothing listed, nothing is managed. -/
theorem Fresh.inv_none {s : Pmem} (h : s.Fresh) (hk : s.topOrder = none) :
    Inv s (fun _ => []) [] none s.Managed := by
  have hmanaged : ∀ q, ¬ s.Managed q := by
    rintro q ⟨b, hb, -⟩
    rw [hk] at hb
    cases hb
  exact ⟨h.lists, {
    region := h.region
    free := fun b hb => by cases hb
    alive := fun b hb => by cases hb
    nodup := List.nodup_nil
    detached := fun b hb => by cases hb
    metadata := fun q hq => ⟨by rw [h.bits, decide_eq_true hq], by rw [h.nodes, if_pos hq]⟩
    cover := fun q => ⟨fun hq => absurd hq (hmanaged q), by simp⟩
    uncovered := fun q h1 _ _ =>
      ⟨by rw [h.bits, decide_eq_false (by omega)], by rw [h.nodes, if_neg (by omega)]⟩ }⟩

/-- After the scan of `buddy_init` all blocks of the picked order are listed. -/
theorem Fresh.inv_scanned {s t : Pmem} {k : Nat} {l : List Nat} (h : s.Fresh) (hk : s.topOrder = some k)
    (hsc : Scanned s k (fun _ => True) s.totalPages t l) :
    Inv t (update (fun _ => []) k l) [] none s.Managed := by
  have hmem : ∀ p, p ∈ l ↔ s.Placed ⟨p, k⟩ := by
    intro p
    rw [hsc.mem_iff]
    exact ⟨fun hp => hp.1, fun hp => ⟨hp, hp.page_lt, trivial⟩⟩
  have hmeta : ∀ q, q < metaPages s.totalPages → t.nodes q = s.nodes q := by
    intro q hq
    refine hsc.nodes q fun p hp hqp => ?_
    have := ((hmem p).mp hp).meta_le_mem hqp
    omega
  refine ⟨hsc.lists, {
    region := hsc.same.region h.region
    free := ?_
    alive := fun b hb => by cases hb
    nodup := List.nodup_nil
    detached := fun b hb => by cases hb
    metadata := ?_
    cover := ?_
    uncovered := ?_ }⟩
  · rintro ⟨p, o⟩ hb
    obtain ⟨rfl, hp⟩ := mem_update_nil.mp hb
    have hplaced := (hmem p).mp hp
    refine ⟨hsc.same.placed hplaced, hsc.recorded p hp, fun q hq => ?_⟩
    have := hplaced.meta_le_mem hq
    rw [hsc.bitmap, h.bits, decide_eq_false (by omega)]
  · rw [hsc.same.totalPages]
    intro q hq
    rw [hsc.bitmap, h.bits, decide_eq_true hq, hmeta q hq, h.nodes, if_pos hq, hsc.same.pageAddr]
    exact ⟨rfl, rfl⟩
  · intro q
    constructor
    · rintro ⟨⟨p, o⟩, ho, hplaced, hq⟩
      obtain rfl : k = o := Option.some_inj.mp (hk.symm.trans ho)
      exact .inl ⟨⟨p, k⟩, mem_update_nil.mpr ⟨rfl, (hmem p).mpr hplaced⟩, hq⟩
    · rintro (⟨⟨p, o⟩, hb, hq⟩ | ⟨b, hb, -⟩ | ⟨b, hb, -⟩)
      · obtain ⟨rfl, hp⟩ := mem_update_nil.mp hb
        exact ⟨⟨p, o⟩, hk, (hmem p).mp hp, hq⟩
      · cases hb
      · cases hb
  · rw [hsc.same.totalPages]
    intro q h1 h2 h3
    rw [hsc.bitmap, h.bits, decide_eq_false (by omega), hsc.nodes, h.nodes, if_neg (by omega)]
    · exact ⟨rfl, rfl⟩
    · intro p hp hq
      exact h3 ⟨⟨p, k⟩, hk, (hmem p).mp hp, hq⟩

end Pmem

/-- After `buddy_init` every block of the order that was picked is free, and nothing else is
under the buddy system. -/
theorem buddyInit_inv {start end_ : Nat} (h : ValidRegion start end_) (mem : Nat → UInt8) :
    ∃ s L, buddyInit start end_ mem = some s ∧ s.memStart = start ∧ s.memEnd = end_ ∧
      s.mem = mem ∧ Inv s L [] none s.Managed ∧
      ∀ b : Block, b.page ∈ L b.order ↔ s.topOrder = some b.order ∧ s.Placed b := by
  obtain ⟨hfresh, hstart, hend, hmem⟩ := Pmem.buddyInitMeta_fresh h mem
  rw [buddyInit]
  generalize buddyInitMeta start end_ mem = s at *
  cases hk : s.topOrder with
  | none =>
    refine ⟨s, fun _ => [], Pmem.scan_none hk, hstart, hend, hmem, hfresh.inv_none hk, fun b => ?_⟩
    rw [hk]
    simp
  | some k =>
    obtain ⟨t, l, hscan, hsc⟩ := Pmem.scan_some hfresh.region hk (Pmem.initBlock_adds hfresh.region k)
      hfresh.lists
    refine ⟨t, update (fun _ => []) k l, hscan, hsc.same.memStart.trans hstart, hsc.same.memEnd.trans hend,
      hsc.mem_eq.trans hmem, ?_, fun b => ?_⟩
    · rw [Pmem.managed_congr hsc.same]
      exact hfresh.inv_scanned hk hsc
    · rw [Pmem.mem_update_nil, hsc.mem_iff, Pmem.topOrder_congr hsc.same, hk, Option.some_inj]
      constructor
      · rintro ⟨rfl, hp, -⟩
        exact ⟨rfl, hsc.same.placed hp⟩
      · rintro ⟨rfl, hp⟩
        have hp' : s.Placed b := by
          rw [Pmem.Placed, ← hsc.same.memStart, ← hsc.same.totalPages]
          exact hp
        exact ⟨rfl, hp', hp'.page_lt, trivial⟩

end SC7
