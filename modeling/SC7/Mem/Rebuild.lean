-- SUMMARY: The emergency rebuild of the free lists: what it keeps, what it loses, and exactly when it is safe.
import SC7.Mem.Buddy

/-!
# The emergency rebuild

`buddy_cleanup_and_rebuild` empties the lists and goes once through the blocks of the order
that `buddy_init` picked, listing those without a used page. Smaller free blocks next to a
used page are not listed again, and the nodes still record them as free. `RebuildSafe` says
that there are none.
-/

namespace SC7

namespace Pmem

variable {s : Pmem}

/-- Block information that the clean-up of the rebuild leaves alone. -/
def Sane (s : Pmem) (node : BuddyNode) : Prop :=
  node.order = -1 ∨ (0 ≤ node.order ∧ node.order ≤ BUDDY_MAX_ORDER ∧ node.addr ≠ 0 ∧
    s.memStart ≤ node.addr ∧ node.addr < s.memEnd)

/-- Where no used page is an orphan the clean-up does nothing. -/
theorem cleanOrphans_eq {n : Nat} (h : ∀ q < n, s.bitmap.test q = true → s.Sane (s.nodes q)) :
    s.cleanOrphans n = s := by
  induction n with
  | zero => rfl
  | succ n ih =>
    have hrest := ih fun q hq => h q (by omega)
    simp only [cleanOrphans, hrest]
    refine if_neg fun horphan => ?_
    simp only [Bool.and_eq_true, Bool.or_eq_true, bne_iff_ne, beq_iff_eq, decide_eq_true_eq] at horphan
    obtain ⟨⟨hused, hmeta⟩, hbad⟩ := horphan
    rcases h n (by omega) hused with hm | ⟨h1, h2, h3, h4, h5⟩
    · exact hmeta hm
    · rcases hbad with (((hb | hb) | hb) | hb) | hb <;> omega

end Pmem

namespace Inv

variable {s : Pmem} {L : Nat → List Nat} {live : List Block} {C : Nat → Prop}

open Pmem

/-- No used page of a well-formed allocator is an orphan. -/
theorem sane (h : Inv s L live none C) {q : Nat} (hq : q < s.totalPages)
    (hused : s.bitmap.test q = true) : s.Sane (s.nodes q) := by
  rcases h.core.used_cases hq hused with hm | ⟨b, hb, hqb⟩
  · exact .inl (by rw [(h.core.metadata q hm).2])
  · obtain ⟨hplaced, hrec, -⟩ := h.core.alive b hb
    have h1 := hplaced.order_le
    have h2 := pageAddr_ne_zero hplaced.page_lt hplaced.meta_le
    have h3 := hplaced.page_lt
    have h4 := h.region.end_eq
    rw [hrec q hqb]
    refine .inr ⟨by simp only; omega, by simp only; omega, h2, ?_, ?_⟩
    · simp only [pageAddr]
      omega
    · simp only [pageAddr, PGSIZE] at *
      omega

/-- The rebuild ends, and lists exactly the blocks of the picked order without a used page. -/
theorem rebuild_some {k : Nat} (h : Inv s L live none C) (hk : s.topOrder = some k) :
    ∃ t l, s.buddyCleanupAndRebuild = some t ∧ Scanned s k (fun p => s.Clear ⟨p, k⟩) s.totalPages t l := by
  let s₁ : Pmem := { s with elems := initLists s.elems (BUDDY_MAX_ORDER + 1) }
  have hclean : s₁.cleanOrphans s₁.totalPages = s₁ := cleanOrphans_eq fun q hq hused => h.sane hq hused
  obtain ⟨t, l, hscan, hsc⟩ := scan_some (s := s₁) h.region hk (relistBlock_adds (s := s₁) h.region k)
    (FreeLists.init s.elems)
  refine ⟨t, l, ?_, ⟨hsc.same.memStart, hsc.same.memEnd, hsc.same.totalPages⟩, hsc.bitmap, hsc.mem_eq,
    hsc.recorded, hsc.nodes, hsc.lists, hsc.mem_iff⟩
  rw [buddyCleanupAndRebuild]
  exact (congrArg (scan · relistBlock) hclean).trans hscan

theorem rebuild_none (h : Inv s L live none C) (hk : s.topOrder = none) :
    s.buddyCleanupAndRebuild = some { s with elems := initLists s.elems (BUDDY_MAX_ORDER + 1) } := by
  have hclean : Pmem.cleanOrphans { s with elems := initLists s.elems (BUDDY_MAX_ORDER + 1) } s.totalPages =
      { s with elems := initLists s.elems (BUDDY_MAX_ORDER + 1) } :=
    cleanOrphans_eq fun q hq hused => h.sane hq hused
  rw [buddyCleanupAndRebuild]
  exact (congrArg (scan · relistBlock) hclean).trans (scan_none hk)

end Inv

/-! ## When it is safe -/

/-- Every free block lies in a block of the picked order without a used page. -/
def Pmem.RebuildSafe (s : Pmem) : Prop :=
  ∀ k, s.topOrder = some k → ∀ free, s.freeBlocks = some free → ∀ e ∈ free,
    ∀ q < s.totalPages, e.Contains (s.pageAddr q) → ∃ p, s.Placed ⟨p, k⟩ ∧ q ∈ (⟨p, k⟩ : Block) ∧
      s.Clear ⟨p, k⟩

/-- What the rebuild owes its callers, in the state `s'` after it. -/
structure RebuildOk (s : Pmem) (live : List Extent) (s' : Pmem) : Prop where
  /-- no page of a live block or of the metadata is on a free list -/
  separate : ∃ free', s'.freeBlocks = some free' ∧ ∀ e ∈ free',
    s'.metaEnd ≤ e.addr ∧ ∀ e' ∈ live, e'.Disjoint e
  /-- a page that was free is in exactly one free block -/
  kept : ∃ free free', s.freeBlocks = some free ∧ s'.freeBlocks = some free' ∧ free'.Nodup ∧
    ∀ q < s.totalPages, s'.bitmap.test q = false → (∃ e ∈ free, e.Contains (s.pageAddr q)) →
      ∃! e, e ∈ free' ∧ e.Contains (s.pageAddr q)
  /-- what the merge loop of `buddy_free` takes for a free buddy is on the list of its order -/
  partners : ∀ addr k, k ≤ BUDDY_MAX_ORDER → s'.isBuddyAvailable addr k = true →
    ∃ l, s'.freeList k = some l ∧ addr ∈ l

namespace Pmem

variable {s : Pmem}

/-- An address that passes for a free buddy is that of a page which records itself. -/
theorem exists_page_of_available (hr : s.Region) {addr k : Nat} (h : s.isBuddyAvailable addr k = true) :
    ∃ q < s.totalPages, addr = s.pageAddr q ∧ s.nodes q = ⟨s.pageAddr q, k⟩ ∧ s.bitmap.test q = false := by
  rw [isBuddyAvailable] at h
  split at h
  · cases h
  · rename_i hrange
    simp only [Bool.or_eq_true, decide_eq_true_eq, bne_iff_ne, ne_eq, not_or, not_not, Nat.not_lt,
      ge_iff_le, Nat.not_le] at hrange
    obtain ⟨⟨h1, h2⟩, h3⟩ := hrange
    have hmod : sub64 addr s.memStart % PGSIZE = 0 := by
      rw [blockSize_natCast] at h3
      exact Nat.mod_eq_zero_of_dvd ((Nat.dvd_mul_right _ _).trans (Nat.dvd_of_mod_eq_zero h3))
    have hsub : addr = s.pageAddr (s.pageIdx addr) ∧ s.pageIdx addr < s.totalPages := by
      have h4 := hr.end_lt
      have h5 := hr.end_eq
      simp only [pageAddr, pageIdx, sub64, PGSIZE] at *
      omega
    simp only [Bool.and_eq_true, beq_iff_eq, Bool.not_eq_true'] at h
    obtain ⟨⟨haddr, horder⟩, hclear⟩ := h
    refine ⟨s.pageIdx addr, hsub.2, hsub.1, ?_, hclear⟩
    rw [← hsub.1]
    cases hnode : s.nodes (s.pageIdx addr) with
    | mk a o =>
      rw [hnode] at haddr horder
      rw [← haddr, ← horder]

/-- The lists after a scan can be read off. -/
theorem Scanned.listing {t : Pmem} {k cur : Nat} {P : Nat → Prop} {l : List Nat}
    (h : Scanned s k P cur t l) : t.Listing (Function.update (fun _ => []) k l) where
  lists := h.lists
  page_lt {j p} hp := by
    obtain ⟨-, hp⟩ := (mem_update_nil (b := ⟨p, j⟩)).mp hp
    rw [h.same.totalPages]
    exact ((h.mem_iff p).mp hp).1.page_lt
  addr {j p} hp := by
    obtain ⟨-, hp⟩ := (mem_update_nil (b := ⟨p, j⟩)).mp hp
    rw [h.recorded p hp p (Block.page_mem ⟨p, k⟩)]

end Pmem

namespace Inv

variable {s t : Pmem} {L : Nat → List Nat} {live : List Block} {C : Nat → Prop} {k : Nat} {l : List Nat}

open Pmem

theorem rebuildSafe_iff (h : Inv s L live none C) :
    s.RebuildSafe ↔ ∀ k, s.topOrder = some k → ∀ b : Block, b.page ∈ L b.order → ∀ q ∈ b,
      ∃ p, s.Placed ⟨p, k⟩ ∧ q ∈ (⟨p, k⟩ : Block) ∧ s.Clear ⟨p, k⟩ := by
  constructor
  · intro hsafe k hk b hb q hq
    exact hsafe k hk _ h.listing.freeBlocks _ (h.listing.extent_mem_listedExtents.mpr hb) q
      ((h.core.free b hb).1.mem_lt hq) (contains_extent.mpr hq)
  · intro hsafe k hk free hfree e he q _ hqe
    obtain rfl : s.listedExtents L = free := Option.some_inj.mp (h.listing.freeBlocks.symm.trans hfree)
    obtain ⟨b, hb, rfl⟩ := h.listing.mem_listedExtents.mp he
    exact hsafe k hk b hb q (contains_extent.mp hqe)

/-- What passes for a free buddy after the rebuild was listed before it or is listed now. -/
theorem listed_of_available_after (h : Inv s L live none C)
    (hsc : Scanned s k (fun p => s.Clear ⟨p, k⟩) s.totalPages t l) {addr j : Nat}
    (hav : t.isBuddyAvailable addr j = true) :
    ∃ q, addr = t.pageAddr q ∧ (q ∈ l ∧ j = k ∨ q ∈ L j ∧ ∀ p ∈ l, q ∉ (⟨p, k⟩ : Block)) := by
  obtain ⟨q, hq, rfl, hnode, hclear⟩ := exists_page_of_available (hsc.same.region h.region) hav
  rw [hsc.same.totalPages] at hq
  refine ⟨q, rfl, ?_⟩
  by_cases hcov : ∃ p ∈ l, q ∈ (⟨p, k⟩ : Block)
  · obtain ⟨p, hp, hqp⟩ := hcov
    have hrec := hsc.recorded p hp q hqp
    rw [hnode, BuddyNode.mk.injEq, Nat.cast_inj] at hrec
    rw [pageAddr_inj hrec.1]
    exact .inl ⟨hp, hrec.2⟩
  · have hnot : ∀ p ∈ l, q ∉ (⟨p, k⟩ : Block) := fun p hp hqp => hcov ⟨p, hp, hqp⟩
    rw [hsc.nodes q hnot, hsc.same.pageAddr] at hnode
    rw [hsc.bitmap] at hclear
    exact .inr ⟨h.core.listed_of_record hq hclear hnode (fun b hb => by cases hb), hnot⟩

/-- The rebuild meets its obligations exactly when it is safe. -/
theorem rebuildOk_iff (h : Inv s L live none C) (hk : s.topOrder = some k)
    (hsc : Scanned s k (fun p => s.Clear ⟨p, k⟩) s.totalPages t l) :
    RebuildOk s (live.map s.extent) t ↔ s.RebuildSafe := by
  have hfree' := hsc.listing.freeBlocks
  have hext := extent_congr hsc.same
  have hmem : ∀ e, e ∈ t.listedExtents (Function.update (fun _ => []) k l) ↔
      ∃ p ∈ l, e = s.extent ⟨p, k⟩ := by
    intro e
    rw [hsc.listing.mem_listedExtents, hext]
    constructor
    · rintro ⟨⟨p, j⟩, hb, rfl⟩
      obtain ⟨rfl, hp⟩ := mem_update_nil.mp hb
      exact ⟨p, hp, rfl⟩
    · rintro ⟨p, hp, rfl⟩
      exact ⟨⟨p, k⟩, mem_update_nil.mpr ⟨rfl, hp⟩, rfl⟩
  rw [h.rebuildSafe_iff]
  constructor
  · rintro ⟨-, ⟨free, free', hfree, hfree'', -, hkept⟩, -⟩ k' hk' b hb q hq
    obtain rfl : k = k' := Option.some_inj.mp (hk.symm.trans hk')
    obtain rfl : s.listedExtents L = free := Option.some_inj.mp (h.listing.freeBlocks.symm.trans hfree)
    obtain ⟨hplaced, -, hclear⟩ := h.core.free b hb
    obtain ⟨e, ⟨he, hqe⟩, -⟩ := hkept q (hplaced.mem_lt hq) (by rw [hsc.bitmap]; exact hclear q hq)
      ⟨_, h.listing.extent_mem_listedExtents.mpr hb, contains_extent.mpr hq⟩
    rw [← Option.some_inj.mp (hfree'.symm.trans hfree'')] at he
    obtain ⟨p, hp, rfl⟩ := (hmem e).mp he
    obtain ⟨hpp, -, hpc⟩ := (hsc.mem_iff p).mp hp
    exact ⟨p, hpp, contains_extent.mp hqe, hpc⟩
  · intro hsafe
    refine ⟨⟨_, hfree', ?_⟩, ⟨_, _, h.listing.freeBlocks, hfree', hsc.listing.nodup_listedExtents, ?_⟩, ?_⟩
    · intro e he
      obtain ⟨p, hp, rfl⟩ := (hmem e).mp he
      obtain ⟨hpp, -, hpc⟩ := (hsc.mem_iff p).mp hp
      refine ⟨?_, fun e' he' => ?_⟩
      · have := (range_extent h.region hpp).1
        simpa only [metaEnd, hsc.same.memStart, hsc.same.totalPages] using this
      · obtain ⟨b, hb, rfl⟩ := List.mem_map.mp he'
        refine disjoint_extent fun q hq hqp => ?_
        have h1 := (h.core.alive b hb).2.2 q hq
        rw [hpc q hqp] at h1
        cases h1
    · rintro q - - ⟨e, he, hqe⟩
      obtain ⟨b, hb, rfl⟩ := h.listing.mem_listedExtents.mp he
      obtain ⟨p, hpp, hqp, hpc⟩ := hsafe k hk b hb q (contains_extent.mp hqe)
      have hp : p ∈ l := (hsc.mem_iff p).mpr ⟨hpp, hpp.page_lt, hpc⟩
      refine ⟨s.extent ⟨p, k⟩, ⟨(hmem _).mpr ⟨p, hp, rfl⟩, contains_extent.mpr hqp⟩, ?_⟩
      rintro e' ⟨he', hqe'⟩
      obtain ⟨p', hp', rfl⟩ := (hmem e').mp he'
      rw [(hsc.recorded p' hp').eq (hsc.recorded p hp) (contains_extent.mp hqe') hqp]
    · intro addr j hj hav
      refine ⟨_, hsc.listing.freeList hj, ?_⟩
      obtain ⟨q, rfl, ⟨hq, rfl⟩ | ⟨hq, hnot⟩⟩ := h.listed_of_available_after hsc hav
      · rw [Function.update_self]
        exact List.mem_map_of_mem hq
      · -- it was listed, so its block is listed again
        obtain ⟨p, hpp, hqp, hpc⟩ := hsafe k hk ⟨q, j⟩ hq q (Block.page_mem ⟨q, j⟩)
        exact absurd hqp (hnot p ((hsc.mem_iff p).mpr ⟨hpp, hpp.page_lt, hpc⟩))

/-- A region too small for a block has no free blocks. -/
theorem not_listed_of_topOrder_none (h : Inv s L live none s.Managed) (hk : s.topOrder = none)
    (b : Block) : b.page ∉ L b.order := by
  intro hb
  obtain ⟨b', hb', -⟩ := (h.core.cover b.page).mpr (.inl ⟨b, hb, b.page_mem⟩)
  rw [hk] at hb'
  cases hb'

theorem rebuildOk_none (h : Inv s L live none s.Managed) (hk : s.topOrder = none) :
    RebuildOk s (live.map s.extent) { s with elems := initLists s.elems (BUDDY_MAX_ORDER + 1) } := by
  have hnone := h.not_listed_of_topOrder_none hk
  have hlist : Pmem.Listing { s with elems := initLists s.elems (BUDDY_MAX_ORDER + 1) } fun _ => [] :=
    ⟨FreeLists.init s.elems, by simp, by simp⟩
  refine ⟨⟨_, hlist.freeBlocks, fun e he => ?_⟩,
    ⟨_, _, h.listing.freeBlocks, hlist.freeBlocks, hlist.nodup_listedExtents, ?_⟩, ?_⟩
  · obtain ⟨b, hb, -⟩ := hlist.mem_listedExtents.mp he
    cases hb
  · rintro q - - ⟨e, he, -⟩
    obtain ⟨b, hb, -⟩ := h.listing.mem_listedExtents.mp he
    exact absurd hb (hnone b)
  · intro addr k _ hav
    obtain ⟨q, hq, -, hnode, hclear⟩ := exists_page_of_available
      (s := { s with elems := initLists s.elems (BUDDY_MAX_ORDER + 1) }) h.region hav
    exact absurd (h.core.listed_of_record hq hclear hnode fun b hb => by cases hb) (hnone ⟨q, k⟩)

/-- A safe rebuild keeps the invariant: the blocks it lists take the place of their parts. -/
theorem rebuild_inv (h : Inv s L live none s.Managed) (hsafe : s.RebuildSafe) :
    ∃ t L', s.buddyCleanupAndRebuild = some t ∧ Inv t L' live none s.Managed ∧ SameRegion s t ∧
      t.mem = s.mem := by
  rw [h.rebuildSafe_iff] at hsafe
  cases hk : s.topOrder with
  | none =>
    have hnone := h.not_listed_of_topOrder_none hk
    refine ⟨_, fun _ => [], h.rebuild_none hk, ⟨FreeLists.init s.elems, ?_⟩, ⟨rfl, rfl, rfl⟩, rfl⟩
    refine (h.core.congr_free fun b => ?_).congr rfl rfl rfl rfl fun _ => rfl
    simp [hnone b]
  | some k =>
    obtain ⟨t, l, hrun, hsc⟩ := h.rebuild_some hk
    refine ⟨t, _, hrun, ⟨hsc.lists, ?_⟩, hsc.same, hsc.mem_eq⟩
    have hmem : ∀ b : Block, b.page ∈ Function.update (fun _ => []) k l b.order ↔
        b.order = k ∧ s.Placed b ∧ s.Clear b := by
      rintro ⟨p, j⟩
      rw [mem_update_nil]
      constructor
      · rintro ⟨rfl, hp⟩
        exact ⟨rfl, ((hsc.mem_iff p).mp hp).1, ((hsc.mem_iff p).mp hp).2.2⟩
      · rintro ⟨rfl, hp, hc⟩
        exact ⟨rfl, (hsc.mem_iff p).mpr ⟨hp, hp.page_lt, hc⟩⟩
    have hnodes : ∀ q, (∀ p ∈ l, q ∉ (⟨p, k⟩ : Block)) → t.nodes q = s.nodes q := hsc.nodes
    have hlclear : ∀ p ∈ l, s.Placed ⟨p, k⟩ ∧ s.Clear ⟨p, k⟩ := fun p hp =>
      ⟨((hsc.mem_iff p).mp hp).1, ((hsc.mem_iff p).mp hp).2.2⟩
    exact {
      region := hsc.same.region h.region
      free := by
        rintro ⟨p, j⟩ hb
        obtain ⟨rfl, hp⟩ := mem_update_nil.mp hb
        obtain ⟨hpp, hpc⟩ := hlclear p hp
        refine ⟨hsc.same.placed hpp, hsc.recorded p hp, fun q hq => ?_⟩
        rw [hsc.bitmap]
        exact hpc q hq
      alive := by
        intro b hb
        obtain ⟨hp, hr, hu⟩ := h.core.alive b hb
        refine ⟨hsc.same.placed hp, fun q hq => ?_, fun q hq => by rw [hsc.bitmap]; exact hu q hq⟩
        rw [hnodes q, hsc.same.pageAddr]
        · exact hr q hq
        · intro p hp' hqp
          have := (hlclear p hp').2 q hqp
          rw [hu q hq] at this
          cases this
      nodup := h.core.nodup
      detached := fun b hb => by cases hb
      metadata := by
        rw [hsc.same.totalPages]
        intro q hq
        rw [hsc.bitmap, hsc.same.pageAddr, hnodes q]
        · exact h.core.metadata q hq
        · intro p hp hqp
          have := (hlclear p hp).1.meta_le_mem hqp
          omega
      cover := by
        intro q
        constructor
        · intro hq
          rcases (h.core.cover q).mp hq with ⟨b, hb, hqb⟩ | hl | ⟨b, hb, -⟩
          · obtain ⟨p, hpp, hqp, hpc⟩ := hsafe k hk b hb q hqb
            exact .inl ⟨⟨p, k⟩, (hmem _).mpr ⟨rfl, hpp, hpc⟩, hqp⟩
          · exact .inr (.inl hl)
          · cases hb
        · rintro (⟨b, hb, hqb⟩ | hl | ⟨b, hb, -⟩)
          · obtain ⟨horder, hpp, -⟩ := (hmem b).mp hb
            exact ⟨b, by rw [hk, horder], hpp, hqb⟩
          · exact (h.core.cover q).mpr (.inr (.inl hl))
          · cases hb
      uncovered := by
        rw [hsc.same.totalPages]
        intro q h1 h2 h3
        rw [hsc.bitmap, hnodes q]
        · exact h.core.uncovered q h1 h2 h3
        · intro p hp hqp
          exact h3 ⟨⟨p, k⟩, hk, (hlclear p hp).1, hqp⟩ }

end Inv

/-- Handing out one page of a larger block makes the rebuild unsafe: the rest of the block is
free, but not as a whole. -/
theorem Allocated.not_rebuildSafe {s s' : Pmem} {L L' : Nat → List Nat} {live : List Block}
    {C : Nat → Prop} {p k : Nat} (h : Inv s L live none C) (hal : Allocated s L live C p k 0 s' L')
    (hk : s.topOrder = some k) (hpos : 0 < k) : ¬ s'.RebuildSafe := by
  rw [hal.inv.rebuildSafe_iff]
  intro hsafe
  have hpow : 2 ≤ 2 ^ k := Nat.le_self_pow (by omega) 2
  have hlisted : p + 2 ^ 0 ∈ L' 0 := (hal.listed ⟨p + 2 ^ 0, 0⟩).mpr (.inr ⟨0, le_refl _, hpos, rfl⟩)
  obtain ⟨p', hplaced', hmem, hclear⟩ := hsafe k ((Pmem.topOrder_congr hal.same).trans hk)
    ⟨p + 2 ^ 0, 0⟩ hlisted (p + 2 ^ 0) (Block.page_mem ⟨p + 2 ^ 0, 0⟩)
  have hplaced := hal.same.placed (h.core.free ⟨p, k⟩ hal.mem_list).1
  -- both blocks of order `k` contain page `p + 1`
  have heq : p = p' := by
    have h1 := hplaced.aligned.eq_floor (q := s'.memStart / PGSIZE + (p + 1)) (by simp only; omega)
      (by simp only; omega)
    have h2 := hplaced'.aligned.eq_floor (q := s'.memStart / PGSIZE + (p + 1))
      (by have := hmem.1; simp only at *; omega) (by have := hmem.2; simp only at *; omega)
    simp only at h1 h2
    omega
  subst heq
  have hused := (hal.inv.core.alive ⟨p, 0⟩ List.mem_cons_self).2.2 p (Block.page_mem ⟨p, 0⟩)
  rw [hclear p (Block.page_mem ⟨p, k⟩)] at hused
  cases hused

/-! ## Reachable states -/

/-- The emergency rebuild, from any state that calls lead to: it returns, and it preserves the
allocator exactly when every free block lies in a block of the order that `buddy_init` picked
with no page in use. -/
theorem buddyCleanupAndRebuild_ok_iff {start end_ : Nat} (hregion : ValidRegion start end_)
    {mem : Nat → UInt8} {h : Heap} (hreach : h.Reachable start end_ mem) :
    ∃ s, h.pmem.buddyCleanupAndRebuild = some s ∧ h.pmem.emergencyMemoryCleanup = some s ∧
      (RebuildOk h.pmem h.live s ↔ h.pmem.RebuildSafe) := by
  obtain ⟨L, live, hinv, hlive⟩ := hreach.inv hregion
  cases hk : h.pmem.topOrder with
  | none =>
    refine ⟨_, hinv.rebuild_none hk, hinv.rebuild_none hk, iff_of_true ?_ ?_⟩
    · rw [hlive]
      exact hinv.rebuildOk_none hk
    · intro k hk'
      rw [hk] at hk'
      cases hk'
  | some k =>
    obtain ⟨t, l, hrun, hsc⟩ := hinv.rebuild_some hk
    refine ⟨t, hrun, hrun, ?_⟩
    rw [hlive]
    exact hinv.rebuildOk_iff hk hsc

theorem buddyCleanupAndRebuild_ok_iff_start : ∃ s₀ s, buddyInit 0x80000000 0x80010000 (fun _ => 0) = some s₀ ∧
    s₀.buddyCleanupAndRebuild = some s ∧ (RebuildOk s₀ [] s ↔ s₀.RebuildSafe) := by
  obtain ⟨s₀, _, hinit, -⟩ := buddyInit_inv validRegion_sixteenPages fun _ => 0
  obtain ⟨s, hrun, -, hiff⟩ := buddyCleanupAndRebuild_ok_iff validRegion_sixteenPages
    (h := ⟨s₀, []⟩) ⟨s₀, hinit, .refl⟩
  exact ⟨s₀, s, hinit, hrun, hiff⟩

/-- In a region of sixteen pages the eight pages from page 8 on are one block. After one page of
it is handed out, the rebuild finds no free block of that size and lists nothing: the other
seven pages are lost. -/
theorem buddyCleanupAndRebuild_loses_pages :
    ∃ s₀ addr s₁ s₂, buddyInit 0x80000000 0x80010000 (fun _ => 0) = some s₀ ∧
      s₀.buddyAlloc 0 = some (addr, s₁) ∧ addr ≠ NULL ∧
      s₁.buddyCleanupAndRebuild = some s₂ ∧ ¬ RebuildOk s₁ [⟨addr, 0⟩] s₂ := by
  obtain ⟨s₀, L, hinit, hstart, hend, -, hinv, hlisted⟩ :=
    buddyInit_inv validRegion_sixteenPages fun _ => 0
  have htotal : s₀.totalPages = 16 := by
    have := hinv.region.end_eq
    rw [hstart, hend] at this
    simp only [PGSIZE] at this
    omega
  have htop : s₀.topOrder = some 3 := by
    rw [Pmem.topOrder, Pmem.metaEnd, hstart, hend, htotal]
    decide
  have hplaced : s₀.Placed ⟨8, 3⟩ := by
    rw [Pmem.Placed, hstart, htotal]
    exact ⟨by decide, by decide, by decide, by decide⟩
  rcases hinv.buddyAlloc 0 with ⟨-, hempty⟩ | ⟨p, k, o, s₁, L', ho, hcall, hal⟩
  · have hmem : 8 ∈ L 3 := (hlisted ⟨8, 3⟩).mpr ⟨htop, hplaced⟩
    rw [hempty (le_refl _) 3 (by omega)] at hmem
    cases hmem
  · obtain rfl : o = 0 := by omega
    obtain rfl : k = 3 := by
      have := ((hlisted ⟨p, k⟩).mp hal.mem_list).1
      rw [htop] at this
      exact (Option.some_inj.mp this).symm
    have hpp := (hinv.core.free ⟨p, 3⟩ hal.mem_list).1
    have hne := Pmem.pageAddr_ne_zero hpp.page_lt hpp.meta_le
    obtain ⟨s₂, l, hrun, hsc⟩ := hal.inv.rebuild_some ((Pmem.topOrder_congr hal.same).trans htop)
    refine ⟨s₀, _, s₁, s₂, hinit, hcall, hne, hrun, fun hok => ?_⟩
    have hiff := hal.inv.rebuildOk_iff ((Pmem.topOrder_congr hal.same).trans htop) hsc
    rw [Pmem.extent_congr hal.same] at hiff
    exact hal.not_rebuildSafe hinv htop (by decide) (hiff.mp hok)

end SC7
