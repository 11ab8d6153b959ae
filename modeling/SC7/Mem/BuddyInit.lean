-- SUMMARY: The pages that `buddy_init` puts on the free lists, for regions of any size, and exactly when it loses none.
import SC7.Mem.Buddy

/-!
# The pages that `buddy_init` lists

`buddy_init` takes a region of any number of bytes; what is left behind the last whole page is
never touched, so the region may be taken to end there (`buddyInit_pgRoundDown`). Of the pages
behind the metadata only those in aligned blocks of one order are listed, the largest order that
fits: the loop over the orders stops after it. The pages before the first and behind the last such
block are lost.
-/

namespace SC7

/-- What `buddy_init` can be called with: a page-aligned start and a size, in bytes, with room for
the metadata. -/
structure InitRegion (start end_ : Nat) : Prop where
  start_aligned : start % PGSIZE = 0
  start_le : start ≤ end_
  room : metaPages ((end_ - start) / PGSIZE) * PGSIZE ≤ end_ - start
  end_le : end_ + 2 * blockSize BUDDY_MAX_ORDER ≤ 2 ^ 64

/-- The end of the metadata of a region. -/
def initMetaEnd (start end_ : Nat) : Nat := start + metaPages ((end_ - start) / PGSIZE) * PGSIZE

theorem pgRoundDown_le (a : Nat) : pgRoundDown a ≤ a := Nat.div_mul_le_self a PGSIZE

theorem pgRoundDown_mod (a : Nat) : pgRoundDown a % PGSIZE = 0 := Nat.mul_mod_left _ _

/-- A page boundary lies behind an address if it lies behind the page boundary before it. -/
theorem lt_iff_pgRoundDown_lt {a e : Nat} (ha : a % PGSIZE = 0) : pgRoundDown e < a ↔ e < a := by
  simp only [pgRoundDown, PGSIZE] at *
  omega

namespace InitRegion

variable {start end_ : Nat}

theorem start_le_down (h : InitRegion start end_) : start ≤ pgRoundDown end_ := by
  have h1 := h.start_aligned
  have h2 := h.start_le
  simp only [pgRoundDown, PGSIZE] at *
  omega

theorem pages_down (h : InitRegion start end_) :
    (pgRoundDown end_ - start) / PGSIZE = (end_ - start) / PGSIZE := by
  have h1 := h.start_aligned
  have h2 := h.start_le
  simp only [pgRoundDown, PGSIZE] at *
  omega

/-- The whole pages of the region are a valid region. -/
theorem validRegion (h : InitRegion start end_) : ValidRegion start (pgRoundDown end_) where
  start_aligned := h.start_aligned
  end_aligned := pgRoundDown_mod end_
  start_le := h.start_le_down
  room := by
    rw [h.pages_down]
    have h1 := h.start_aligned
    have h2 := h.room
    simp only [pgRoundDown, PGSIZE] at *
    omega
  end_le := by
    have h1 := h.end_le
    have h2 := pgRoundDown_le end_
    omega

theorem totalPages (h : InitRegion start end_) :
    sub64 end_ start / PGSIZE = sub64 (pgRoundDown end_) start / PGSIZE := by
  have h1 := h.start_le
  have h2 := h.end_le
  have h3 : 0 < 2 * blockSize BUDDY_MAX_ORDER := by decide
  have h4 : sub64 end_ start = end_ - start := by
    rw [sub64]
    omega
  rw [h.validRegion.totalPages, h.pages_down, h4]

end InitRegion

/-! ## The end of the region -/

namespace Pmem

variable (s : Pmem) (e : Nat)

/-- The same allocator, with the region ending at `e`. -/
def withEnd : Pmem := { s with memEnd := e }

theorem markMeta_withEnd (n : Nat) : (s.withEnd e).markMeta n = (s.markMeta n).withEnd e := by
  induction n with
  | zero => rfl
  | succ n ih =>
    rw [markMeta, markMeta, ih]
    rfl

theorem setBlockMetadata_withEnd (addr : Nat) (order : Int) :
    (s.withEnd e).setBlockMetadata addr order = (s.setBlockMetadata addr order).withEnd e := by
  rw [setBlockMetadata, setBlockMetadata, setBlockMetadata_go, setBlockMetadata_go]
  rfl

theorem pushFront_withEnd (k page : Nat) :
    (s.withEnd e).pushFront k page = (s.pushFront k page).map (·.withEnd e) := by
  rw [pushFront, pushFront, Option.map_map]
  rfl

theorem initBlock_withEnd (k addr : Nat) :
    (s.withEnd e).initBlock k addr = (s.initBlock k addr).map (·.withEnd e) := by
  let t := (s.setNode (s.pageIdx addr) ⟨addr, k⟩).clearElem (s.pageIdx addr)
  have hpush := pushFront_withEnd t e k (s.pageIdx addr)
  calc (s.withEnd e).initBlock k addr
      = ((t.withEnd e).pushFront k (s.pageIdx addr)).bind fun u => some (u.setBlockMetadata addr k) := rfl
    _ = (t.pushFront k (s.pageIdx addr)).bind fun u => some ((u.setBlockMetadata addr k).withEnd e) := by
        rw [hpush, Option.bind_map]
        exact congrArg (Option.bind _) (funext fun u => congrArg some (setBlockMetadata_withEnd u e addr k))
    _ = (s.initBlock k addr).map (·.withEnd e) := by
        rw [initBlock, Option.bind_eq_bind, Option.map_bind]
        rfl

/-- `initBlock` does not move the end of the region. -/
theorem initBlock_memEnd {s t : Pmem} {k addr : Nat} (h : s.initBlock k addr = some t) :
    t.memEnd = s.memEnd := by
  rw [initBlock, Option.bind_eq_bind, Option.bind_eq_some_iff] at h
  obtain ⟨u, hpush, heq⟩ := h
  obtain ⟨elems, -, rfl⟩ := Option.map_eq_some_iff.mp hpush
  rw [← Option.some_inj.mp heq, setBlockMetadata, setBlockMetadata_go]
  rfl

end Pmem

/-- The end of the block after `addr`, of whatever order, is a page boundary. -/
theorem add64_blockSize_mod {addr : Nat} (h : addr % PGSIZE = 0) (k : Nat) :
    add64 addr (blockSize k) % PGSIZE = 0 := by
  rw [add64, blockSize_natCast]
  simp only [PGSIZE] at *
  omega

theorem alignUp_blockSize_mod (a k : Nat) : alignUp a (blockSize k) % PGSIZE = 0 := by
  rw [alignUp, blockSize_natCast, Nat.mul_left_comm]
  exact Nat.mul_mod_right _ _

/-- The picked order only depends on the whole pages of the region. -/
theorem pickOrder_pgRoundDown (lo e n : Nat) : pickOrder lo (pgRoundDown e) n = pickOrder lo e n := by
  have hcond : ∀ k : Nat, (add64 (alignUp lo (blockSize k)) (blockSize k) > pgRoundDown e) =
      (add64 (alignUp lo (blockSize k)) (blockSize k) > e) := fun k =>
    propext (lt_iff_pgRoundDown_lt (add64_blockSize_mod (alignUp_blockSize_mod lo k) k))
  induction n with
  | zero =>
    have hzero := hcond 0
    rw [Nat.cast_zero] at hzero
    simp only [pickOrder, hzero]
  | succ n ih => simp only [pickOrder, hcond (n + 1), ih]

/-- The scan of `buddy_init` only depends on the whole pages of the region. -/
theorem Pmem.scan_withEnd (s : Pmem) {e : Nat} (he : s.memEnd = pgRoundDown e) :
    (s.withEnd e).scan initBlock = (s.scan initBlock).map (·.withEnd e) := by
  have hpick : pickOrder s.metaEnd e BUDDY_MAX_ORDER = s.topOrder := by
    rw [topOrder, he, pickOrder_pgRoundDown]
  calc (s.withEnd e).scan initBlock
      = (s.withEnd e).scanFrom initBlock s.topOrder := congrArg ((s.withEnd e).scanFrom initBlock) hpick
    _ = (s.scanFrom initBlock s.topOrder).map (·.withEnd e) := ?_
    _ = (s.scan initBlock).map (·.withEnd e) := rfl
  cases s.topOrder with
  | none => rfl
  | some k =>
    -- the two loops go through the same blocks
    have hloop := Loop.run_map (fun st : Pmem × Nat => (st.1.withEnd e, st.2))
      (I := fun st => st.1.memEnd = pgRoundDown e ∧ st.2 % PGSIZE = 0)
      (c := fun st => decide (add64 st.2 (blockSize k) ≤ st.1.memEnd))
      (f := fun st => (initBlock st.1 k st.2).map fun s => (s, add64 st.2 (blockSize k)))
      (d := fun st => decide (add64 st.2 (blockSize k) ≤ st.1.memEnd))
      (g := fun st => (initBlock st.1 k st.2).map fun s => (s, add64 st.2 (blockSize k)))
      (by
        rintro ⟨t, a⟩ ⟨hend, ha⟩
        simp only at hend ha ⊢
        have hiff := lt_iff_pgRoundDown_lt (e := e) (add64_blockSize_mod ha k)
        rw [hend]
        apply decide_eq_decide.mpr
        simp only [withEnd]
        omega)
      (by
        rintro ⟨t, a⟩ -
        simp only [initBlock_withEnd, Option.map_map]
        rfl)
      (by
        rintro ⟨t, a⟩ st ⟨hend, ha⟩ hrun
        obtain ⟨u, hu, rfl⟩ := Option.map_eq_some_iff.mp hrun
        exact ⟨(initBlock_memEnd hu).trans hend, add64_blockSize_mod ha k⟩)
      (s.totalPages + 1) (s := (s, alignUp s.metaEnd (blockSize k))) ⟨he, alignUp_blockSize_mod _ k⟩
    rw [scanFrom, scanFrom, Option.map_map]
    exact (congrArg (Option.map Prod.fst) hloop).trans (Option.map_map ..)

/-- What is left behind the last whole page makes no difference to `buddy_init`. -/
theorem buddyInit_pgRoundDown {start end_ : Nat} (h : InitRegion start end_) (mem : Nat → UInt8) :
    buddyInit start end_ mem = (buddyInit start (pgRoundDown end_) mem).map (·.withEnd end_) := by
  have hmeta : buddyInitMeta start end_ mem = (buddyInitMeta start (pgRoundDown end_) mem).withEnd end_ := by
    rw [buddyInitMeta, buddyInitMeta, h.totalPages]
    exact Pmem.markMeta_withEnd
      { memStart := start
        memEnd := pgRoundDown end_
        totalPages := sub64 (pgRoundDown end_) start / PGSIZE
        bitmap := fun _ => 0#64
        nodes := fun _ => ⟨0, 0⟩
        elems := Pmem.initLists ⟨fun _ => .null, fun _ => .null⟩ (BUDDY_MAX_ORDER + 1)
        mem := mem } end_ _
  obtain ⟨-, -, hend, -⟩ := Pmem.buddyInitMeta_fresh h.validRegion mem
  rw [buddyInit, buddyInit, hmeta]
  exact Pmem.scan_withEnd _ hend

/-! ## The pages that are listed -/

/-- `[lo, hi)` is cut without remainder into blocks of the largest order of which an aligned block
fits: both ends are aligned for some order, and no larger aligned block fits between them. -/
def EvenlyCarved (lo hi : Nat) : Prop :=
  ∃ k ≤ BUDDY_MAX_ORDER, lo % blockSize k = 0 ∧ hi % blockSize k = 0 ∧
    ∀ j : Nat, k < j → j ≤ BUDDY_MAX_ORDER → ∀ a, a % blockSize j = 0 → lo ≤ a → hi < a + blockSize j

namespace Pmem

variable {s : Pmem} {k p q : Nat}

theorem pageAddr_mod_blockSize (hr : s.Region) (p k : Nat) :
    s.pageAddr p % blockSize k = 0 ↔ Dyadic.Aligned k (s.pageNumber p) := by
  rw [pageAddr_eq hr, blockSize_natCast, Nat.mul_mod_mul_left, Dyadic.Aligned]
  simp [PGSIZE]

theorem memEnd_eq (hr : s.Region) : s.memEnd = s.pageAddr s.totalPages := hr.end_eq

/-- A block of order `k` fits if and only if some aligned address leaves room for it. -/
theorem fits_iff (hr : s.Region) (k : Nat) :
    s.Fits k ↔ ∃ a, a % blockSize k = 0 ∧ s.metaEnd ≤ a ∧ a + blockSize k ≤ s.memEnd := by
  have hsize : ∀ p, s.pageAddr p + blockSize k = s.pageAddr (p + 2 ^ k) := by
    intro p
    simp only [pageAddr, blockSize_natCast]
    ring
  rw [memEnd_eq hr]
  constructor
  · intro hfits
    refine ⟨s.pageAddr (s.firstPage k), (pageAddr_mod_blockSize hr _ k).mpr (s.firstPage_aligned k), ?_, ?_⟩
    · have := s.metaPages_le_firstPage k
      simp only [metaEnd, pageAddr, PGSIZE]
      omega
    · rw [hsize]
      simp only [Fits, pageAddr, PGSIZE] at *
      omega
  · rintro ⟨a, hal, hlo, hhi⟩
    obtain ⟨p, rfl⟩ : ∃ p, a = s.pageAddr p := by
      have hmod : a % PGSIZE = 0 := by
        rw [blockSize_natCast] at hal
        exact Nat.mod_eq_zero_of_dvd ((Nat.dvd_mul_right _ _).trans (Nat.dvd_of_mod_eq_zero hal))
      have hstart := hr.start_aligned
      refine ⟨(a - s.memStart) / PGSIZE, ?_⟩
      simp only [metaEnd, pageAddr, PGSIZE] at *
      omega
    rw [hsize] at hhi
    have hp : metaPages s.totalPages ≤ p := by
      simp only [metaEnd, pageAddr, PGSIZE] at hlo
      omega
    have hfirst := firstPage_le ((pageAddr_mod_blockSize hr p k).mp hal) hp
    simp only [Fits, pageAddr, PGSIZE] at *
    omega

/-- The buddy system manages every page behind the metadata exactly if these pages are cut evenly. -/
theorem allManaged_iff (hr : s.Region) :
    (∀ q, metaPages s.totalPages ≤ q → q < s.totalPages → s.Managed q) ↔ EvenlyCarved s.metaEnd s.memEnd := by
  have hmeta : s.metaEnd = s.pageAddr (metaPages s.totalPages) := rfl
  have hnot : ∀ j : Nat, (∀ a, a % blockSize j = 0 → s.metaEnd ≤ a → s.memEnd < a + blockSize j) ↔ ¬s.Fits j := by
    intro j
    rw [fits_iff hr]
    constructor
    · rintro hall ⟨a, h1, h2, h3⟩
      have := hall a h1 h2
      omega
    · intro hno a h1 h2
      by_contra hle
      exact hno ⟨a, h1, h2, by omega⟩
  unfold EvenlyCarved
  simp only [hnot]
  rw [hmeta, memEnd_eq hr]
  simp only [pageAddr_mod_blockSize hr]
  constructor
  · intro hall
    by_cases hpages : metaPages s.totalPages < s.totalPages
    · -- the first and the last page lie in blocks of the picked order
      obtain ⟨b, htop, hplaced, hfirst⟩ := hall (metaPages s.totalPages) (le_refl _) hpages
      obtain ⟨b', htop', hplaced', hlast⟩ := hall (s.totalPages - 1) (by omega) (by omega)
      have horder : b'.order = b.order := Option.some_inj.mp (htop'.symm.trans htop)
      have hpage : b.page = metaPages s.totalPages := Nat.le_antisymm hfirst.1 hplaced.meta_le
      have hend : b'.page + 2 ^ b'.order = s.totalPages := by
        have h1 := hplaced'.fits
        have h2 := hlast.2
        omega
      obtain ⟨hle, -, hmax⟩ := (pickOrder_eq_some_iff hr (le_refl _)).mp htop
      refine ⟨b.order, hle, ?_, ?_, hmax⟩
      · have hal := hplaced.aligned
        rwa [hpage] at hal
      · have hal := hplaced'.aligned.add
        rwa [Nat.add_assoc, hend, horder] at hal
    · refine ⟨0, Nat.zero_le _, Nat.mod_one _, Nat.mod_one _, fun j hj _ hfits => ?_⟩
      have h1 := s.metaPages_le_firstPage j
      have h2 := Nat.two_pow_pos j
      simp only [Fits] at hfits
      omega
  · rintro ⟨k, hk, hlo, hhi, hmax⟩ q hq hlt
    have hpos := Nat.two_pow_pos k
    -- the aligned block around page `q`
    have hal := Dyadic.floor_aligned k (s.pageNumber q)
    have hle := Dyadic.floor_le k (s.pageNumber q)
    have hgt := Dyadic.lt_floor_add k (s.pageNumber q)
    have hbefore : s.pageNumber (metaPages s.totalPages) ≤ Dyadic.floor k (s.pageNumber q) := by
      by_contra hcon
      have hnest := Dyadic.Aligned.eq_floor (k := k) (q := s.pageNumber (metaPages s.totalPages)) hal
        (by omega) (by simp only [pageNumber] at *; omega)
      have hself := hlo.eq_floor (le_refl _) (by omega)
      omega
    have hafter : Dyadic.floor k (s.pageNumber q) + 2 ^ k ≤ s.pageNumber s.totalPages := by
      by_contra hcon
      have hnest := hal.eq_floor (q := s.pageNumber s.totalPages) (by simp only [pageNumber] at *; omega)
        (by omega)
      have hself := hhi.eq_floor (le_refl _) (by omega)
      simp only [pageNumber] at *
      omega
    obtain ⟨p, hp⟩ : ∃ p, Dyadic.floor k (s.pageNumber q) = s.pageNumber p :=
      ⟨Dyadic.floor k (s.pageNumber q) - s.memStart / PGSIZE, by simp only [pageNumber] at *; omega⟩
    rw [hp] at hal hle hgt hbefore hafter
    have hplaced : s.Placed ⟨p, k⟩ := by
      refine ⟨hk, ?_, ?_, hal⟩ <;> simp only [pageNumber] at * <;> omega
    have hfits : s.Fits k := by
      have h1 := firstPage_le hal hplaced.meta_le
      have h2 := hplaced.fits
      simp only [Fits] at *
      omega
    refine ⟨⟨p, k⟩, (pickOrder_eq_some_iff hr (le_refl _)).mpr ⟨hk, hfits, hmax⟩, hplaced, ?_⟩
    simp only [Block.mem_def, pageNumber] at *
    omega

end Pmem

/-- No memory is lost: `free` are the blocks on the free lists, every whole page behind the
metadata belongs to exactly one of them, and no page of the metadata to any. -/
structure AllListed (s : Pmem) (free : List Extent) : Prop where
  free_eq : s.freeBlocks = some free
  nodup : free.Nodup
  listed : ∀ q, s.metaEnd ≤ s.pageAddr q → s.pageAddr q + PGSIZE ≤ s.memEnd →
    ∃! e, e ∈ free ∧ e.Contains (s.pageAddr q)
  order_le : ∀ e ∈ free, e.order ≤ BUDDY_MAX_ORDER
  metadata : ∀ e ∈ free, ∀ q, s.pageAddr q < s.metaEnd → ¬e.Contains (s.pageAddr q)

/-- For an allocator without live blocks nothing is lost exactly if every page behind the metadata
is managed. -/
theorem Inv.allListed_iff {s : Pmem} {L : Nat → List Nat} (h : Inv s L [] none s.Managed) {e : Nat}
    (he : pgRoundDown e = s.memEnd) :
    (∃ free, AllListed (s.withEnd e) free) ↔
      ∀ q, metaPages s.totalPages ≤ q → q < s.totalPages → s.Managed q := by
  have hlist := h.listing
  -- a page below the new end is a page below the old one
  have hpage : ∀ q, s.pageAddr q + PGSIZE ≤ e ↔ q < s.totalPages := by
    intro q
    have hmod : (s.pageAddr q + PGSIZE) % PGSIZE = 0 := by
      rw [Pmem.pageAddr_eq h.region]
      simp only [PGSIZE]
      omega
    have hiff := lt_iff_pgRoundDown_lt (e := e) hmod
    rw [he, h.region.end_eq] at hiff
    simp only [Pmem.pageAddr, PGSIZE] at *
    omega
  have hbehind : ∀ q, s.metaEnd ≤ s.pageAddr q ↔ metaPages s.totalPages ≤ q := by
    intro q
    simp only [Pmem.metaEnd, Pmem.pageAddr, PGSIZE]
    omega
  constructor
  · rintro ⟨free, hall⟩ q hq hlt
    obtain ⟨x, ⟨hx, hqx⟩, -⟩ := hall.listed q ((hbehind q).mpr hq) ((hpage q).mpr hlt)
    obtain rfl : s.listedExtents L = free := Option.some_inj.mp (hlist.freeBlocks.symm.trans hall.free_eq)
    obtain ⟨b, hb, rfl⟩ := hlist.mem_listedExtents.mp hx
    exact (h.core.cover q).mpr (.inl ⟨b, hb, Pmem.contains_extent.mp hqx⟩)
  · intro hall
    refine ⟨s.listedExtents L, hlist.freeBlocks, hlist.nodup_listedExtents, ?_, ?_, ?_⟩
    · intro q hq hlt
      rcases (h.core.cover q).mp (hall q ((hbehind q).mp hq) ((hpage q).mp hlt)) with
        ⟨b, hb, hqb⟩ | ⟨b, hb, -⟩ | ⟨b, hb, -⟩
      · refine ⟨s.extent b, ⟨hlist.mem_listedExtents.mpr ⟨b, hb, rfl⟩, Pmem.contains_extent.mpr hqb⟩, ?_⟩
        rintro x ⟨hx, hqx⟩
        obtain ⟨b', hb', rfl⟩ := hlist.mem_listedExtents.mp hx
        rw [h.core.free_disjoint hb' hb (Pmem.contains_extent.mp hqx) hqb]
      · cases hb
      · cases hb
    · intro x hx
      obtain ⟨b, hb, rfl⟩ := hlist.mem_listedExtents.mp hx
      exact (h.core.free b hb).1.order_le
    · intro x hx q hq hqx
      obtain ⟨b, hb, rfl⟩ := hlist.mem_listedExtents.mp hx
      have hmeta := (h.core.free b hb).1.meta_le_mem (Pmem.contains_extent.mp hqx)
      exact absurd ((hbehind q).mpr hmeta) (Nat.not_le.mpr hq)

/-- `buddy_init` returns for every region, and loses no memory exactly if the pages between the
metadata and the end are cut evenly by the largest blocks that fit. -/
theorem buddyInit_allListed_iff {start end_ : Nat} (h : InitRegion start end_) (mem : Nat → UInt8) :
    ∃ s, buddyInit start end_ mem = some s ∧
      ((∃ free, AllListed s free) ↔ EvenlyCarved (initMetaEnd start end_) (pgRoundDown end_)) := by
  obtain ⟨s, L, hinit, hstart, hend, -, hinv, -⟩ := buddyInit_inv h.validRegion mem
  refine ⟨s.withEnd end_, ?_, ?_⟩
  · rw [buddyInit_pgRoundDown h, hinit]
    rfl
  · have hpages : s.totalPages = (end_ - start) / PGSIZE := by
      have h1 := hinv.region.end_eq
      have h2 := h.pages_down
      rw [hstart, hend] at h1
      rw [← h2, h1]
      simp [PGSIZE]
    have hmeta : s.metaEnd = initMetaEnd start end_ := by
      rw [Pmem.metaEnd, hstart, hpages]
      rfl
    rw [hinv.allListed_iff hend.symm, Pmem.allManaged_iff hinv.region, hmeta, hend]

/-- Nine pages: one of metadata, and the eight behind it are one block. -/
theorem buddyInit_allListed_iff_ninePages :
    ∃ s, buddyInit 0x80007000 0x80010000 (fun _ => 0) = some s ∧ ∃ free, AllListed s free := by
  have hregion : InitRegion 0x80007000 0x80010000 := ⟨by decide, by decide, by decide, by decide⟩
  obtain ⟨s, hinit, hiff⟩ := buddyInit_allListed_iff hregion fun _ => 0
  refine ⟨s, hinit, hiff.mpr ⟨3, by decide, by decide, by decide, ?_⟩⟩
  intro j hj _ a _ ha
  have hlo : initMetaEnd 0x80007000 0x80010000 = 0x80008000 := by decide
  have hhi : pgRoundDown 0x80010000 = 0x80010000 := by decide
  have hpow : 2 ^ 4 ≤ 2 ^ j := Nat.pow_le_pow_right (by decide) hj
  rw [hlo] at ha
  rw [hhi, blockSize_natCast]
  simp only [PGSIZE]
  omega

/-- Of sixteen pages the last eight are the largest block that fits; the seven pages between the
metadata and that block are on no list. -/
theorem buddyInit_loses_pages :
    ∃ s, buddyInit 0x80000000 0x80010000 (fun _ => 0) = some s ∧ ¬∃ free, AllListed s free := by
  obtain ⟨s, L, hinit, hstart, hend, -, hinv, -⟩ := buddyInit_inv validRegion_sixteenPages fun _ => 0
  have htotal : s.totalPages = 16 := by
    have := hinv.region.end_eq
    rw [hstart, hend] at this
    simp only [PGSIZE] at this
    omega
  have htop : s.topOrder = some 3 := by
    rw [Pmem.topOrder, Pmem.metaEnd, hstart, hend, htotal]
    decide
  have hdown : pgRoundDown s.memEnd = s.memEnd := by
    rw [hend]
    decide
  refine ⟨s, hinit, fun hall => ?_⟩
  have hmeta : metaPages 16 = 1 := by decide
  obtain ⟨b, htop', hplaced, hb⟩ := (hinv.allListed_iff hdown).mp hall 1 (by rw [htotal, hmeta])
    (by rw [htotal]; decide)
  have horder : b.order = 3 := Option.some_inj.mp (htop'.symm.trans htop)
  -- the block would have to start at page 0 or 1, but its address is a multiple of eight pages
  have hal := hplaced.aligned
  have hle := hplaced.meta_le
  rw [hstart, horder, Dyadic.Aligned] at hal
  rw [htotal, hmeta] at hle
  have hlt := hb.1
  simp only [PGSIZE] at hal
  omega

end SC7
