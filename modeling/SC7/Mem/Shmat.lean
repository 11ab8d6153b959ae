-- SUMMARY: `shmat` enters new pages into a segment, or maps the pages that it has.
import SC7.Mem.ShmAttach

/-!
# `shmat`

The first `shmat` of a segment takes pages from the allocator, maps them, and then enters what it
finds in the page table into the segment. A later one maps the pages that the segment has, at the
distance from the start of the area that they have in the array.
-/

namespace SC7

open Function (update)

variable {arch : Arch} {shm shm' : Nat → ShmidKernel} {origin : Nat → Nat} {mm : Mm} {v : Vma}
  {lo hi shp pa perm : Nat} {r : Int} {leaf leaf' : Nat → Pte}

/-! ## Pages of memory -/

/-- No page is mapped to the address `0`. -/
theorem Leaf.mappagesLoop_pa {n current end_ : Nat} (hne : pa ≠ 0) (hwrap : pa + n * PGSIZE < 2 ^ 64)
    (h : Leaf.mappagesLoop arch perm end_ n current pa leaf = some (r, leaf')) (vpn : Nat) :
    leaf' vpn = leaf vpn ∨ (leaf' vpn).pa ≠ 0 := by
  induction n generalizing current pa leaf with
  | zero => cases h
  | succ n ih =>
    have hfirst : update leaf (current / PGSIZE) ⟨pa, perm ||| PTE_V⟩ vpn = leaf vpn ∨
        (update leaf (current / PGSIZE) ⟨pa, perm ||| PTE_V⟩ vpn).pa ≠ 0 := by
      by_cases heq : vpn = current / PGSIZE
      · rw [heq, Function.update_self]
        exact .inr hne
      · exact .inl (Function.update_of_ne heq _ _)
    have hnext : add64 pa PGSIZE = pa + PGSIZE := by
      simp only [add64, PGSIZE] at *
      omega
    rw [Leaf.mappagesLoop] at h
    split at h
    · cases h
    split at h
    · cases h
      exact .inl rfl
    dsimp only at h
    split at h
    · cases h
      exact hfirst
    · rw [hnext] at h
      rcases ih (by omega) (by simp only [PGSIZE] at *; omega) h with heq | hpa
      · rwa [heq]
      · exact .inr hpa

theorem Leaf.mappages_pa {va len : Nat} (hne : pa ≠ 0)
    (hwrap : pa + len + PGSIZE < 2 ^ 64) (h : Leaf.mappages arch va pa len perm leaf = some (r, leaf'))
    (vpn : Nat) : leaf' vpn = leaf vpn ∨ (leaf' vpn).pa ≠ 0 := by
  rw [Leaf.mappages] at h
  split at h
  · cases h
  · refine Leaf.mappagesLoop_pa hne ?_ h vpn
    simp only [PGSIZE] at *
    omega

namespace Space

variable {s s' t : Space} {z : Focus} {perm end_ : Nat} {size : Int}

/-- Segments and break stay, and what is mapped are pages of memory. -/
structure MapsPages (s s' : Space) : Prop extends SameShm s s' where
  pa : ∀ vpn, s'.leaf vpn = s.leaf vpn ∨ (s'.leaf vpn).pa ≠ 0

namespace MapsPages

theorem of_same (h : SameShm s s') (hleaf : s'.leaf = s.leaf) : MapsPages s s' :=
  ⟨h, fun vpn => .inl (congrFun hleaf vpn)⟩

theorem trans (h₁ : MapsPages s s') (h₂ : MapsPages s' t) : MapsPages s t := by
  refine ⟨h₁.toSameShm.trans h₂.toSameShm, fun vpn => ?_⟩
  rcases h₂.pa vpn with heq | hpa
  · rw [heq]
    exact h₁.pa vpn
  · exact .inr hpa

end MapsPages

theorem mappages_pages {va pa len : Nat} {r : Int} (hne : pa ≠ 0) (hwrap : pa + len + PGSIZE < 2 ^ 64)
    (h : s.mappages arch va pa len perm = some (r, s')) : MapsPages s s' := by
  refine ⟨mappages_sameShm h, ?_⟩
  obtain ⟨⟨r', leaf⟩, hmap, heq⟩ := Option.map_eq_some_iff.mp h
  cases heq
  exact Leaf.mappages_pa hne hwrap hmap

theorem uvmalloc1Loop_pages {n a : Nat} (hs : Supplies s)
    (h : uvmalloc1Loop arch end_ perm n a s = some s') : MapsPages s s' := by
  induction n generalizing a s with
  | zero =>
    rw [uvmalloc1Loop] at h
    split at h
    · cases h
    · cases h
      exact .of_same .refl rfl
  | succ n ih =>
    rw [uvmalloc1Loop] at h
    split at h
    · obtain ⟨s₁, hnode, h⟩ := Option.bind_eq_some_iff.mp h
      obtain ⟨⟨r, s₂⟩, hmap, hrest⟩ := Option.bind_eq_some_iff.mp h
      have hsame := allocNode_sameShm hnode
      have hne : s.alloc.1 ≠ NULL := by
        intro hnull
        rw [allocNode, if_pos hnull] at hnode
        cases hnode
      have hbound : s.alloc.1 < 2 ^ 63 := hs.bound 0
      have hfirst : MapsPages s s₁ := .of_same hsame (congrArg Mm.leaf (allocNode_toMm hnode))
      have hpages : MapsPages s₁ s₂ := mappages_pages hne (by simp only [PGSIZE]; omega) hmap
      dsimp only at hrest
      split at hrest
      · have hrest := ih ((hs.same hsame).same hpages.toSameShm) hrest
        exact (hfirst.trans hpages).trans hrest
      · cases hrest
    · cases h
      exact .of_same .refl rfl

theorem uvmalloc1_pages {start : Nat} (hs : Supplies s)
    (hlen : sub64 (pgRoundUp end_) start / PGSIZE * PGSIZE < 2 ^ 62)
    (h : uvmalloc1 arch start end_ perm s = some s') : MapsPages s s' := by
  have halloc : MapsPages s s.alloc.2 := .of_same .alloc rfl
  have hs' : Supplies s.alloc.2 := hs.same .alloc
  rw [uvmalloc1] at h
  split at h
  · cases h
  dsimp only at h
  split at h
  · rename_i hne
    obtain ⟨⟨r, t⟩, hmap, hrest⟩ := Option.bind_eq_some_iff.mp h
    have hbound : s.alloc.1 < 2 ^ 63 := hs.bound 0
    have hpages : MapsPages s.alloc.2 t := mappages_pages hne (by simp only [PGSIZE] at *; omega) hmap
    dsimp only at hrest
    split at hrest
    · cases hrest
      exact halloc.trans hpages
    · have hfree : MapsPages t (t.free s.alloc.1) := .of_same (.of_eq rfl rfl rfl) rfl
      have hrest := uvmalloc1Loop_pages ((hs'.same hpages.toSameShm).same hfree.toSameShm) hrest
      exact ((halloc.trans hpages).trans hfree).trans hrest
  · exact halloc.trans (uvmalloc1Loop_pages hs' h)

/-! ## The loops -/

section Loops

variable {n i va base : Nat}

/-- The loop of the first attachment enters the mapped pages, and changes nothing else. -/
theorem recordLoop_records (hva : va = (base + i) * PGSIZE)
    (hfits : i + n ≤ ((s.shm shp).shmPages.getD []).length)
    (h : recordLoop arch shp n i va s = some s') :
    Grows shp (fun _ => False) s s' ∧
      ∀ j, segPage s'.shm shp j = if (i ≤ j ∧ j < i + n) ∧ (s.leaf (base + j)).valid = true
        then (s.leaf (base + j)).pa else segPage s.shm shp j := by
  induction n generalizing i va s with
  | zero =>
    cases h
    refine ⟨.refl, fun j => ?_⟩
    rw [if_neg (by omega)]
  | succ n ih =>
    rw [recordLoop] at h
    split at h
    · cases h
    rename_i hmax
    have hpte : s.pte va = s.leaf (base + i) := by rw [hva, pte, page_div]
    rw [hpte, hva, next_page_lt (hva ▸ not_le.mp hmax), Nat.add_assoc] at h
    dsimp only at h
    split at h
    · rename_i hvalid
      have hset : Grows shp (fun _ => False) s (setShmPage shp i (s.leaf (base + i)).pa s) := .setShmPage
      obtain ⟨hgrows, hseg⟩ := ih rfl (by rw [hset.length]; omega) h
      refine ⟨hset.trans hgrows, fun j => ?_⟩
      have hleaf : (setShmPage shp i (s.leaf (base + i)).pa s).leaf = s.leaf := rfl
      rw [hseg, hleaf, segPage_setShmPage (by omega)]
      by_cases heq : j = i
      · subst heq
        rw [if_neg (by omega), if_pos rfl, if_pos ⟨by omega, hvalid⟩]
      · have hiff : (i + 1 ≤ j ∧ j < i + 1 + n) ↔ (i ≤ j ∧ j < i + (n + 1)) := by omega
        rw [if_neg heq]
        simp only [hiff]
    · rename_i hvalid
      obtain ⟨hgrows, hseg⟩ := ih rfl (by omega) h
      refine ⟨hgrows, fun j => ?_⟩
      rw [hseg]
      by_cases heq : j = i
      · subst heq
        rw [if_neg (by omega), if_neg fun hj => hvalid hj.2]
      · have hiff : (i + 1 ≤ j ∧ j < i + 1 + n) ↔ (i ≤ j ∧ j < i + (n + 1)) := by omega
        simp only [hiff]

/-- The loop of a later attachment maps the pages of the segment in their places. -/
theorem attachLoop_maps (hva : va = (v.addr / PGSIZE + i) * PGSIZE)
    (hwrap : (v.addr / PGSIZE + i + n) * PGSIZE < 2 ^ 64) (hshp : v.shmKernel = shp)
    (hb : Backed s.shm s.leaf v) (h : attachLoop arch shp perm n i va s = some s') :
    SameShm s s' ∧ s'.vmas = s.vmas ∧ (∀ vpn, ¬PagesOf v i n vpn → s'.leaf vpn = s.leaf vpn) ∧
      Backed s'.shm s'.leaf v := by
  induction n generalizing i va s with
  | zero =>
    cases h
    exact ⟨.refl, rfl, fun _ _ => rfl, hb⟩
  | succ n ih =>
    have hwrap' : (v.addr / PGSIZE + (i + 1) + n) * PGSIZE < 2 ^ 64 := by
      have hnext : v.addr / PGSIZE + (i + 1) + n = v.addr / PGSIZE + i + (n + 1) := by omega
      rwa [hnext]
    rw [attachLoop, hva, next_page hwrap, Nat.add_assoc] at h
    generalize hpa : (if i < ((s.shm shp).size + PGSIZE - 1) % 2 ^ 64 / PGSIZE then
      ((s.shm shp).shmPages.getD []).getD i 0 else 0) = pa at h
    dsimp only at h
    split at h
    · rename_i hne
      have hseg : segPage s.shm shp i = pa := by
        split at hpa
        · exact hpa
        · exact absurd hpa.symm hne
      obtain ⟨⟨r, t⟩, hmap, hrest⟩ := Option.bind_eq_some_iff.mp h
      have hsame := mappages_sameShm hmap
      obtain ⟨⟨r', leaf⟩, hone, heq⟩ := Option.map_eq_some_iff.mp hmap
      cases heq
      dsimp only at hrest
      split at hrest
      · cases hrest
      rename_i hr
      rcases Leaf.mappages_one page_mod hone with ⟨rfl, -, -⟩ | ⟨-, -, rfl⟩
      · exact absurd (by decide) hr
      rw [page_div] at hrest hsame
      generalize hu : ({ s with leaf := _ } : Space) = u at hrest hsame
      have huleaf : u.leaf = update s.leaf (v.addr / PGSIZE + i) ⟨pa, perm ||| PTE_V⟩ := by rw [← hu]
      have hbacked : Backed u.shm u.leaf v := by
        rw [hsame.shm, huleaf]
        refine hb.map ?_ hne
        rw [hshp, Nat.add_sub_cancel_left]
        exact hseg
      obtain ⟨hsame', hvmas, hout, hfinal⟩ := ih rfl hwrap' hbacked hrest
      refine ⟨hsame.trans hsame', hvmas.trans (by rw [← hu]), fun vpn hp => ?_, hfinal⟩
      rw [hout vpn fun hrest => hp hrest.rest, huleaf, Function.update_of_ne]
      rintro rfl
      exact hp .first
    · obtain ⟨hsame, hvmas, hout, hfinal⟩ := ih rfl hwrap' hb h
      exact ⟨hsame, hvmas, fun vpn hp => hout vpn fun hrest => hp hrest.rest, hfinal⟩

end Loops

/-- The pages of a range, by their numbers. -/
theorem inRange_iff (hrange : PageRange lo hi) {vpn : Nat} :
    InRange lo hi vpn ↔ PagesFrom (lo / PGSIZE) (hi / PGSIZE - lo / PGSIZE) vpn := by
  obtain ⟨hlo, hhi, hlt, -, -⟩ := hrange
  unfold InRange PagesFrom
  simp only [PGSIZE] at *
  omega

/-- `uvmalloc1` for a range of whole pages. -/
theorem uvmalloc1_range (hs : Supplies s) (hrange : PageRange lo hi) (hshort : hi - lo < 2 ^ 62)
    (h : uvmalloc1 arch lo hi perm s = some s') :
    MapsPages s s' ∧ s'.vmas = s.vmas ∧ ∀ vpn, ¬InRange lo hi vpn → s'.leaf vpn = s.leaf vpn := by
  obtain ⟨k, rfl⟩ : ∃ k, lo = k * PGSIZE :=
    ⟨_, (Nat.div_mul_cancel (Nat.dvd_of_mod_eq_zero hrange.lo_mod)).symm⟩
  obtain ⟨m, rfl⟩ : ∃ m, hi = m * PGSIZE :=
    ⟨_, (Nat.div_mul_cancel (Nat.dvd_of_mod_eq_zero hrange.hi_mod)).symm⟩
  have hkm : k < m := Nat.lt_of_mul_lt_mul_right hrange.lt
  have hlen : sub64 (pgRoundUp (m * PGSIZE)) (k * PGSIZE) / PGSIZE * PGSIZE < 2 ^ 62 := by
    rw [pages_between hkm hrange.bound, Nat.sub_mul]
    exact hshort
  -- the rights do not matter here
  have hflags : FlagsWithin arch 6 (Vmem.userPerm arch perm ||| PTE_V) := .of_both (by decide) (by decide)
  have hmaps := uvmalloc1_maps hrange.bound hflags h
  refine ⟨uvmalloc1_pages hs hlen h, hmaps.vmas, fun vpn hp => hmaps.leaf.outside fun hpage => hp ?_⟩
  rw [inRange_iff hrange, page_div, page_div]
  exact hpage

/-- Attaching the pages, for the first time or later. -/
theorem attach_grows (hs : Supplies s) (hrange : PageRange lo hi) (hshort : hi - lo < 2 ^ 62)
    (hunmapped : ∀ vpn, InRange lo hi vpn → (s.leaf vpn).valid = false)
    (haddr : v.addr = lo) (hend : v.end_ = hi) (hshp : v.shmKernel = shp)
    (hlength : ((s.shm shp).shmPages.getD []).length = hi / PGSIZE - lo / PGSIZE)
    (h : (if (s.shm shp).attaches = NULL then
        (uvmalloc1 arch lo hi perm s).bind (recordLoop arch shp (hi / PGSIZE - lo / PGSIZE) 0 lo)
      else attachLoop arch shp perm (hi / PGSIZE - lo / PGSIZE) 0 lo s) = some s') :
    Grows shp (InRange lo hi) s s' ∧ Backed s'.shm s'.leaf v ∧
      ((s.shm shp).attaches ≠ NULL → s'.shm = s.shm) := by
  have hlomod : lo = (lo / PGSIZE + 0) * PGSIZE := by
    rw [Nat.add_zero, Nat.div_mul_cancel (Nat.dvd_of_mod_eq_zero hrange.lo_mod)]
  have hpage : ∀ vpn, v.HasPage vpn → InRange lo hi vpn := fun vpn hp => ⟨haddr ▸ hp.1, hend ▸ hp.2⟩
  split at h
  · rename_i hnull
    obtain ⟨t, hmap, hrecord⟩ := Option.bind_eq_some_iff.mp h
    obtain ⟨hpages, hvmas, hout⟩ := uvmalloc1_range hs hrange hshort hmap
    obtain ⟨hgrows, hseg⟩ := recordLoop_records hlomod (by rw [hpages.shm, Nat.zero_add, hlength]) hrecord
    have hmapped : Grows shp (InRange lo hi) s t := .of_eq hpages.shm hpages.sz hvmas hout
    refine ⟨hmapped.trans (hgrows.mono fun _ => False.elim), fun vpn hp hv => ?_, fun hne => absurd hnull hne⟩
    have hin := hpage vpn hp
    have hleaf : s'.leaf vpn = t.leaf vpn := hgrows.outside vpn id
    rw [hleaf] at hv ⊢
    have hbase : lo / PGSIZE + (vpn - lo / PGSIZE) = vpn := by
      have := ((inRange_iff hrange).mp hin).1
      omega
    have hlt : vpn - lo / PGSIZE < 0 + (hi / PGSIZE - lo / PGSIZE) := by
      obtain ⟨h₁, h₂⟩ := (inRange_iff hrange).mp hin
      omega
    rw [hshp, haddr, hseg, hbase, if_pos ⟨⟨Nat.zero_le _, hlt⟩, hv⟩]
    refine ⟨rfl, ?_⟩
    rcases hpages.pa vpn with heq | hpa
    · rw [heq, hunmapped vpn hin] at hv
      cases hv
    · exact hpa
  · have hb : Backed s.shm s.leaf v := fun vpn hp hv => by
      rw [hunmapped vpn (hpage vpn hp)] at hv
      cases hv
    have hwrap : (v.addr / PGSIZE + 0 + (hi / PGSIZE - lo / PGSIZE)) * PGSIZE < 2 ^ 64 := by
      have hlt := Nat.div_le_div_right (c := PGSIZE) hrange.lt.le
      rw [haddr, Nat.add_zero, Nat.add_sub_cancel' hlt,
        Nat.div_mul_cancel (Nat.dvd_of_mod_eq_zero hrange.hi_mod)]
      exact hrange.bound
    obtain ⟨hsame, hvmas, hout, hbacked⟩ := attachLoop_maps (by rw [haddr]; exact hlomod) hwrap hshp hb h
    refine ⟨.of_eq hsame.shm hsame.sz hvmas fun vpn hp => hout vpn fun hpages => hp ?_, hbacked, fun _ => hsame.shm⟩
    rw [inRange_iff hrange]
    rwa [PagesOf, haddr] at hpages

/-! ## The call -/

/-- Not even the largest length comes close to the size of the address space. -/
theorem rounds_short (hpos : 0 < size) (hint : size < 2 ^ 31) : rounds size * PGSIZE < 2 ^ 62 := by
  simp only [rounds, Vmem.pageCeil, toU64, PGSIZE]
  omega

/-- An `int` comes back from the `size_t` of the segment. -/
theorem toInt32_toU64 (hlo : -2 ^ 31 ≤ size) (hhi : size < 2 ^ 31) : toInt32 (toU64 size) = size := by
  unfold toInt32 toU64
  rw [Int.toNat_of_nonneg (Int.emod_nonneg _ (by decide)), Int.bmod_def, Int.emod_emod_of_dvd _ (by decide)]
  split <;> omega

/-- The segment has an entry for each page of its size. -/
theorem segMade_pages {seg : ShmidKernel} (h : SegMade seg) (hpos : 0 < toInt32 seg.size) :
    seg.size = toU64 (toInt32 seg.size) ∧ (seg.shmPages.getD []).length = rounds (toInt32 seg.size) := by
  obtain ⟨size, hlo, hhi, hsize, hlength⟩ := h
  have hint : toInt32 seg.size = size := by
    rw [hsize]
    exact toInt32_toU64 hlo hhi
  rw [hint] at hpos ⊢
  rw [hlength, newseg_rounds hpos hhi]
  exact ⟨hsize, rfl⟩

theorem allocShareVma_area {addr : Nat} (hsorted : Vma.Sorted s.vmas)
    (hno : ¬Contained (pgRoundUp addr) (pgRoundUp (toU64 (addr + size))) s.vmas)
    (h : allocShareVma addr size perm s = some (z, t)) :
    z.vma = VmaMem.initVma Vma.zero .SHARE (pgRoundUp addr) (pgRoundUp (toU64 (addr + size))) size perm ∧
      z.before ++ z.after = s.vmas ∧ (∀ v ∈ z.before, v.end_ ≤ pgRoundUp addr) ∧
      (∀ v ∈ z.after, pgRoundUp (toU64 (addr + size)) ≤ v.addr) ∧ t.toMm = s.toMm ∧ SameShm s t := by
  rw [allocShareVma] at h
  split at h
  · cases h
  · rename_i z' hslot
    obtain ⟨hmem, hin⟩ := findSlot_inr hslot
    exact absurd ⟨z'.vma, hmem, hin⟩ hno
  · rename_i b a hslot
    obtain ⟨s₁, hnode, heq⟩ := Option.map_eq_some_iff.mp h
    cases heq
    obtain ⟨hb, ha⟩ := findSlot_clear hsorted (fun v hv => by cases hv) hslot
    exact ⟨rfl, findSlot_inl hslot, hb, ha, allocNode_toMm hnode, allocNode_sameShm hnode⟩

end Space

/-- Where no area has a page, nothing was attached. -/
theorem Shares.unattached (h : Shares arch shm origin mm)
    (hno : ∀ v ∈ mm.vmas, ∀ vpn, InRange lo hi vpn → ¬v.HasPage vpn) :
    Shares arch shm (attachedAt lo hi origin) mm :=
  { h with
    shared := fun v hv hsh =>
      { h.shared v hv hsh with
        origin := fun vpn hp => by
          rw [attachedAt, if_neg fun hin => hno v hv vpn hin hp]
          exact (h.shared v hv hsh).origin vpn hp } }

/-- One segment changes, which is in use only if it keeps its pages. -/
theorem ShmKept.segment (hothers : ∀ q, q ≠ shp → shm' q = shm q)
    (hseg : (shm shp).shmPages.isSome = true → (shm shp).attaches ≠ NULL → SegKept (shm shp) (shm' shp))
    (hmade : SegMade (shm shp) → SegMade (shm' shp)) (hsome : (shm shp).shmPages.isSome = true) :
    ShmKept shm shm' where
  kept q hq hne := by
    by_cases heq : q = shp
    · rw [heq] at hq hne ⊢
      exact hseg hq hne
    · rw [hothers q heq]
      exact ShmKept.refl.kept q hq hne
  made h q hq := by
    by_cases heq : q = shp
    · rw [heq]
      exact hmade (h shp hsome)
    · rw [hothers q heq] at hq ⊢
      exact h q hq

namespace Space

variable {s s' t : Space} {z : Focus} {perm addr shmaddr shmflg : Nat} {seg seg' : ShmidKernel} {r : Int}

/-- What `shmat` must be given, once it does not refuse. -/
structure ShmatMeets (arch : Arch) (addr : Nat) (size : Int) (s : Space) : Prop where
  aligned : addr % PGSIZE = 0
  size_pos : 0 < size
  nowrap : addr + size ≤ 2 ^ 64 - PGSIZE
  place : Attachable arch (pgRoundUp addr) (pgRoundUp (toU64 (addr + size))) s

/-- The segment after it was attached. -/
structure GrownFrom (seg seg' : ShmidKernel) : Prop where
  size : seg'.size = seg.size
  some : seg'.shmPages.isSome = seg.shmPages.isSome
  length : (seg'.shmPages.getD []).length = (seg.shmPages.getD []).length
  attaches : seg'.attaches ≠ NULL
  pages : seg.attaches ≠ NULL → seg'.shmPages = seg.shmPages

theorem GrownFrom.kept (h : GrownFrom seg seg')
    (hsome : seg.shmPages.isSome = true) (hne : seg.attaches ≠ NULL) : SegKept seg seg' where
  size := h.size
  some := h.some.trans hsome
  length := h.length
  attaches := h.attaches
  pages i _ := by rw [h.pages hne]

theorem GrownFrom.made (h : GrownFrom seg seg') (hmade : SegMade seg) : SegMade seg' := by
  obtain ⟨size, hlo, hhi, hsize, hlength⟩ := hmade
  exact ⟨size, hlo, hhi, h.size.trans hsize, h.length.trans hlength⟩

/-- `shmat` keeps the pages of the shared mappings together. -/
theorem shmatAt_shares (h : Shares arch s.shm origin s.toMm) (hs : Supplies s)
    (hsome : (s.shm shp).shmPages.isSome = true) (hmade : SegMade (s.shm shp))
    (hmeets : ShmatMeets arch addr (toInt32 (s.shm shp).size) s)
    (hcall : shmatAt arch shp addr perm s = some (r, s')) :
    Shares arch s'.shm
        (attachedAt (pgRoundUp addr) (pgRoundUp (toU64 (addr + toInt32 (s.shm shp).size))) origin) s'.toMm ∧
      ShmKept s.shm s'.shm := by
  obtain ⟨hal, hpos, hwrap, hplace⟩ := hmeets
  obtain ⟨hsegsize, hseglength⟩ := segMade_pages hmade hpos
  have hint : toInt32 (s.shm shp).size < 2 ^ 31 := toInt32_lt
  rw [shmatAt] at hcall
  obtain ⟨⟨z, t⟩, halloc, hcall⟩ := Option.bind_eq_some_iff.mp hcall
  obtain ⟨hvma, hlist, hbefore, hafter, hmm, hsame⟩ := allocShareVma_area h.sorted hplace.not_contained halloc
  generalize hsize : toInt32 (s.shm shp).size = size at *
  obtain ⟨hlo, hhi, hrange⟩ := pageRange_of hal hpos hint hwrap
  rw [hlo, hhi] at hvma hplace ⊢
  rw [hlo] at hbefore
  rw [hhi] at hafter
  have hseg : t.shm shp = s.shm shp := congrFun hsame.shm shp
  dsimp only at hcall
  split at hcall
  · -- there are as many attachments as an `int` can count
    cases hcall
    have hmm' : (t.setVmas (z.before ++ z.after)).toMm = s.toMm := by
      rw [hlist, ← congrArg Mm.vmas hmm]
      exact hmm
    rw [hmm']
    refine ⟨?_, .of_eq hsame.shm⟩
    dsimp only [setVmas]
    rw [hsame.shm]
    exact h.unattached hplace.areas
  obtain ⟨u, hattach, heq⟩ := Option.map_eq_some_iff.mp hcall
  cases heq
  have hpages : ((size + PGSIZE - 1) / PGSIZE).toNat =
      (addr + rounds size * PGSIZE) / PGSIZE - addr / PGSIZE := by
    rw [newseg_rounds hpos hint, Nat.add_mul_div_right _ _ (by decide), Nat.add_sub_cancel_left]
  have hshort : addr + rounds size * PGSIZE - addr < 2 ^ 62 := by
    rw [Nat.add_sub_cancel_left]
    exact rounds_short hpos hint
  rw [hvma] at hattach
  dsimp only [VmaMem.initVma] at hattach
  rw [hpages] at hattach
  have hunmapped : ∀ vpn, InRange addr (addr + rounds size * PGSIZE) vpn → (t.leaf vpn).valid = false :=
    fun vpn hp => by
      rw [congrArg Mm.leaf hmm]
      exact hplace.unmapped vpn hp
  obtain ⟨w, hw⟩ : ∃ w, w = { z.vma with shmKernel := shp } := ⟨_, rfl⟩
  have hwaddr : w.addr = addr := by rw [hw, hvma]; rfl
  have hwend : w.end_ = addr + rounds size * PGSIZE := by rw [hw, hvma]; rfl
  have hwshp : w.shmKernel = shp := by rw [hw]
  have hwsize : w.size = toU64 size := by rw [hw, hvma]; rfl
  have hwflags : w.flags = 0 := by rw [hw, hvma]; rfl
  obtain ⟨hgrows, hbacked, hsameseg⟩ := attach_grows (hs.same hsame) hrange hshort hunmapped hwaddr hwend hwshp
    (by rw [hseg]; exact hseglength.trans ((newseg_rounds hpos hint).symm.trans hpages)) hattach
  rw [← hw]
  generalize hseg' : ({ u.shm shp with attachCount := (u.shm shp).attachCount + 1, attaches := 1 } :
    ShmidKernel) = seg'
  have hsegs : ∀ q, ((u.setShm shp seg').setVmas (z.put w)).shm q = if q = shp then seg' else u.shm q :=
    fun q => Function.update_apply _ _ _ _
  have hself : ((u.setShm shp seg').setVmas (z.put w)).shm shp = seg' := by rw [hsegs, if_pos rfl]
  have hgrown : GrownFrom (s.shm shp) seg' := by
    rw [← hseg', ← hseg]
    exact ⟨hgrows.size, hgrows.some, hgrows.length, Nat.one_ne_zero, fun hne => by rw [hsameseg hne]⟩
  have hkept : ShmKept s.shm ((u.setShm shp seg').setVmas (z.put w)).shm := by
    refine .segment (fun q hq => ?_) (fun _ hne => ?_) (fun hmade => ?_) hsome
    · rw [hsegs, if_neg hq, hgrows.others q hq, hsame.shm]
    · rw [hself]
      exact hgrown.kept hsome hne
    · rw [hself]
      exact hgrown.made hmade
  refine ⟨h.attach hrange hlist rfl (hgrows.sz.trans hsame.sz) hwaddr hwend hbefore hafter (fun vpn hp => ?_)
    hkept (fun _ => ?_), hkept⟩
  · exact (hgrows.outside vpn hp).trans (congrFun (congrArg Mm.leaf hmm) vpn)
  · have hsize' : seg'.size = toU64 size := hgrown.size.trans hsegsize
    have hlength : (seg'.shmPages.getD []).length = rounds size := hgrown.length.trans hseglength
    refine .new hwaddr hwend ?_ ?_ ?_ ?_ ?_ ?_ hwflags ?_ hplace.free fun vpn hp hv => ?_
    · rw [hwsize, Nat.add_sub_cancel_left, Nat.mul_div_cancel _ (by decide)]
      rfl
    · rw [hwshp, hself]
      exact hgrown.some.trans hsome
    · rw [hwshp, hself, hlength, hsize']
      rfl
    · rw [hwshp, hself, hsize']
      exact (toInt32_len hpos hint).1
    · rw [hwshp, hself, hsize', hwsize]
    · rw [hwshp, hself]
      exact hgrown.attaches
    · exact (hgrows.sz.trans hsame.sz).trans_le hplace.heap
    · have hpage := hbacked vpn hp hv
      have hsame' : segPage ((u.setShm shp seg').setVmas (z.put w)).shm shp = segPage u.shm shp := by
        funext i
        rw [segPage, hself, ← hseg', segPage]
      rw [hwshp] at hpage ⊢
      rwa [hsame']

theorem sysShmat_shares {start next : Int} {p : Int} (h : Shares arch s.shm origin s.toMm)
    (hs : Supplies s) (hmade : ∀ q, (s.shm q).shmPages.isSome = true → SegMade (s.shm q))
    (hmeets : ¬ShmatRefuses arch shp p shmaddr shmflg s →
      ShmatMeets arch (shmatAddr shmaddr shmflg start) (toInt32 (s.shm shp).size) s)
    (hcall : sysShmat arch shp p shmaddr shmflg start s = some (r, next, s')) :
    Shares arch s'.shm
        (if ShmatRefuses arch shp p shmaddr shmflg s then origin
        else attachedAt (pgRoundUp (shmatAddr shmaddr shmflg start))
          (pgRoundUp (toU64 (shmatAddr shmaddr shmflg start + toInt32 (s.shm shp).size))) origin) s'.toMm ∧
      ShmKept s.shm s'.shm := by
  rw [sysShmat] at hcall
  split at hcall
  · rename_i hrefuses
    cases hcall
    rw [if_pos hrefuses]
    exact ⟨h, .refl⟩
  · rename_i hrefuses
    obtain ⟨⟨r', t⟩, hat, heq⟩ := Option.map_eq_some_iff.mp hcall
    cases heq
    rw [if_neg hrefuses]
    have hsome : (s.shm shp).shmPages.isSome = true :=
      Option.isSome_iff_ne_none.mpr fun hnone => hrefuses (.inl hnone)
    exact shmatAt_shares h hs hsome (hmade shp hsome) (hmeets hrefuses) hat

end Space

end SC7
