-- SUMMARY: The memory that `uvm_grow` needs: it maps a vacant range exactly if the pages and tables for it can be had.
import SC7.Mem.Uvmcopy

/-!
# The memory of a growth

`uvm_grow` over a vacant range takes one block for the whole range, or its pages one by one if there is no such
block, and the tables that are missing on the way. It maps the range if and only if the allocator has these
pages, and then the pages are new, zero and the user's. A range whose first page is mapped is refused, and
no entry changes.
-/

namespace SC7

open Pmem (SameRegion)

namespace Pmem

/-- The pages of a block that was handed out are no longer free, and the others are. -/
theorem Wf.freeCount_block {s s' : Pmem} {live : List Block} {b : Block} (h : s.Wf live) (h' : s'.Wf (b :: live))
    (hsame : SameRegion s s') : s.freeCount = s'.freeCount + 2 ^ b.order := by
  have hsplit : s.freePages = s'.freePages ∪ Finset.Ico b.page (b.page + 2 ^ b.order) := by
    ext p
    rw [Finset.mem_union, Finset.mem_Ico, h.mem_freePages, h'.mem_freePages, managed_congr hsame]
    simp only [Vmem.LivePage, List.exists_mem_cons_iff, Block.mem_def, not_or]
    constructor
    · rintro ⟨hm, hnot⟩
      by_cases hp : b.page ≤ p ∧ p < b.page + 2 ^ b.order
      · exact .inr hp
      · exact .inl ⟨hm, hp, hnot⟩
    · rintro (⟨hm, -, hnot⟩ | hp)
      · exact ⟨hm, hnot⟩
      · refine ⟨?_, Vmem.wf_not_live h' hp⟩
        rw [← managed_congr hsame]
        exact h'.managed (List.mem_cons_self ..) hp
  have hdisj : Disjoint s'.freePages (Finset.Ico b.page (b.page + 2 ^ b.order)) := by
    rw [Finset.disjoint_left]
    intro p hp hb
    rw [h'.mem_freePages] at hp
    exact hp.2 ⟨b, List.mem_cons_self .., Finset.mem_Ico.mp hb⟩
  unfold freeCount
  rw [hsplit, Finset.card_union_of_disjoint hdisj, Nat.card_Ico, Nat.add_sub_cancel_left]

end Pmem

namespace Vmem

variable {arch : Arch} {s s' s₀ s₁ : Vmem} {live live' live₀ : List Block} {b : Block}
  {pid lo hi k n q perm va newsz : Nat} {R : Finset Nat} {made : Option Bool}

/-! ## What a growth needs -/

/-- The allocator has the pages for a growth over the pages `[lo, hi)`: a block if there is one for the whole
range, else single pages, and a page for each table that is missing. -/
structure Affords (arch : Arch) (pid lo hi : Nat) (s : Vmem) : Prop where
  below : hi * PGSIZE ≤ MAXVA arch
  pages : hi - lo ≤ s.pmem.freeCount
  block : s.HasBlock (hi - lo) →
    2 ^ (getOrder (hi - lo)).toNat + (missing arch pid (Finset.Ico lo hi) s).card ≤ s.pmem.freeCount
  single : ¬s.HasBlock (hi - lo) → needOf arch pid (Finset.Ico lo hi) s ≤ s.pmem.freeCount

/-- The pages `[lo, hi)` were mapped: each entry has a new page, which is zero. -/
structure Fresh (arch : Arch) (pid perm lo hi : Nat) (s s' : Vmem) (live live' : List Block) : Prop where
  grown : Grown arch (inRange pid lo hi) s s' live live'
  entry : ∀ v, lo ≤ v → v < hi → ∃ q, s'.leaf pid v = ⟨s'.pmem.pageAddr q, userPerm arch perm ||| PTE_V⟩ ∧
    LivePage live' q ∧ ¬LivePage live q ∧ ∀ o < PGSIZE, s'.pmem.mem (s'.pmem.pageAddr q + o) = 0

/-- The live pages keep their bytes, and the tables stay where they are. -/
structure Kept (live : List Block) (s s' : Vmem) : Prop where
  same : SameRegion s.pmem s'.pmem
  dir : ∀ pid l i, s.dir pid l i ≠ NULL → s'.dir pid l i = s.dir pid l i
  mem : ∀ q, LivePage live q → ∀ o < PGSIZE,
    s'.pmem.mem (s.pmem.pageAddr q + o) = s.pmem.mem (s.pmem.pageAddr q + o)

theorem Kept.trans (h₁ : Kept live s s₁) (hsub : ∀ b ∈ live, b ∈ live') (h₂ : Kept live' s₁ s') : Kept live s s' where
  same := h₁.same.trans h₂.same
  dir pid l i hne := by
    have h := h₁.dir pid l i hne
    rw [h₂.dir pid l i (by rw [h]; exact hne), h]
  mem q hq o ho := by
    have h := h₂.mem q (hq.mono hsub) o ho
    rw [h₁.same.pageAddr] at h
    rw [h, h₁.mem q hq o ho]

/-- One range behind the other. -/
theorem Fresh.append (h₁ : Fresh arch pid perm lo k s s₁ live live₀) (h₂ : Fresh arch pid perm k hi s₁ s' live₀ live')
    (hlo : lo ≤ k) (hhi : k ≤ hi) : Fresh arch pid perm lo hi s s' live live' where
  grown := by
    have hleft : Grown arch (inRange pid lo hi) s s₁ live live₀ :=
      h₁.grown.mono fun _ _ h => ⟨h.1, h.2.1, h.2.2.trans_le hhi⟩
    have hright : Grown arch (inRange pid lo hi) s₁ s' live₀ live' :=
      h₂.grown.mono fun _ _ h => ⟨h.1, hlo.trans h.2.1, h.2.2⟩
    exact hleft.trans hright
  entry v h1 h2 := by
    by_cases hv : v < k
    · obtain ⟨q, hleaf, hlive, hnew, hzero⟩ := h₁.entry v h1 hv
      refine ⟨q, ?_, hlive.mono h₂.grown.sub, hnew, fun o ho => ?_⟩
      · rw [h₂.grown.leaf pid v fun h => Nat.not_le.mpr hv h.2.1, hleaf, h₂.grown.same.pageAddr]
      · rw [h₂.grown.same.pageAddr, h₂.grown.mem q hlive o ho]
        exact hzero o ho
    · obtain ⟨q, hleaf, hlive, hnew, hzero⟩ := h₂.entry v (Nat.not_lt.mp hv) h2
      exact ⟨q, hleaf, hlive, fun h => hnew (h.mono h₁.grown.sub), hzero⟩

/-- No page was mapped. -/
theorem Fresh.none (h : Grown arch nowhere s s' live live') : Fresh arch pid perm lo lo s s' live live' :=
  ⟨h.mono fun _ _ hout => hout.elim, fun _ h1 h2 => absurd h2 (Nat.not_lt.mpr h1)⟩

theorem Fresh.refl (h : s.Ok arch live) : Fresh arch pid perm lo lo s s live live := .none (Grown.refl h)

/-! ## The loop of `mappages` -/

/-- The loop maps the pages from `q` on, or runs out of addresses or of pages for tables. -/
theorem mappagesLoop_count (h : s.Ok arch live) (hsafe : s.Safe) (hvac : s.Vacant pid lo (lo + k + 1))
    (hpages : ∀ j ≤ k, LivePage live (q + j) ∧ s.Unheld (q + j))
    (hflags : ∀ pa, PTE_FLAGS arch ⟨pa, perm ||| PTE_V⟩ ≠ PTE_V) (hR : ∀ v, lo ≤ v → v < lo + k + 1 → v ∈ R)
    (hn : k < n) :
    (∃ s', mappagesLoop arch pid perm ((lo + k) * PGSIZE) n (lo * PGSIZE) (s.pmem.pageAddr q) s = some (1, s') ∧
        (lo + k) * PGSIZE < MAXVA arch ∧ s'.Safe ∧ Kept live s s' ∧
        (∀ v, lo ≤ v → v < lo + k + 1 → ∀ l < PT_LEVEL arch - 1,
          s'.dir pid (l + 1) (dirIndex (v * PGSIZE) (l + 1)) ≠ NULL) ∧
        s.pmem.freeCount + (missing arch pid R s').card = s'.pmem.freeCount + (missing arch pid R s).card) ∨
      mappagesLoop arch pid perm ((lo + k) * PGSIZE) n (lo * PGSIZE) (s.pmem.pageAddr q) s = none ∧
        (MAXVA arch ≤ (lo + k) * PGSIZE ∨ s.pmem.freeCount < (missing arch pid R s).card) := by
  induction n generalizing s lo live k q with
  | zero => omega
  | succ n ih =>
    have hdiv : lo * PGSIZE / PGSIZE = lo := Nat.mul_div_cancel _ (by decide)
    rw [mappagesLoop, walkAlloc]
    by_cases hva : lo * PGSIZE < MAXVA arch
    · rw [if_neg (Nat.not_le.mpr hva)]
      rcases walkLevels_count pid h hsafe (hR lo (le_refl _) (by omega)) (le_refl (PT_LEVEL arch - 1)) with
        ⟨s₁, live₁, hw, hsafe₁, hgw, hbal⟩ | ⟨⟨s₁, hw⟩, hlt⟩
      · obtain ⟨-, -, htab⟩ := walkLevels_spec h hsafe₁ hw
        have hnot : (s₁.leaf pid lo).valid = false := by
          rw [hgw.leaf_eq]
          exact hvac lo (le_refl _) (by omega)
        obtain ⟨hlive, -⟩ := hpages 0 (Nat.zero_le _)
        -- the state after the entry is written
        obtain ⟨t, ht⟩ : ∃ t, s₁.setLeaf pid lo ⟨s.pmem.pageAddr q, perm ||| PTE_V⟩ = t := ⟨_, rfl⟩
        have hok : t.Ok arch live₁ := by
          rw [← ht]
          exact hgw.ok.setLeaf (hlive.mono hgw.sub) (hgw.same.pageAddr q).symm (hflags _) (htab rfl)
        have hkept : Kept live s t := by
          rw [← ht]
          exact ⟨hgw.same, hgw.dir, hgw.mem⟩
        have hbalt :
            s.pmem.freeCount + (missing arch pid R t).card = t.pmem.freeCount + (missing arch pid R s).card := by
          rw [← ht]
          exact hbal
        have htabt : ∀ l < PT_LEVEL arch - 1, t.dir pid (l + 1) (dirIndex (lo * PGSIZE) (l + 1)) ≠ NULL := by
          rw [← ht]
          exact htab rfl
        have hsafet : t.Safe := by
          rw [← ht]
          exact hsafe₁
        rw [hw, Option.bind_some]
        simp only [hdiv, hnot, ht]
        rw [if_neg (by decide), if_neg (by decide)]
        by_cases hk : k = 0
        · subst hk
          rw [if_pos (by rw [Nat.add_zero])]
          refine .inl ⟨t, rfl, by rwa [Nat.add_zero], hsafet, hkept, ?_, hbalt⟩
          intro v h1 h2
          rw [show v = lo by omega]
          exact htabt
        · obtain ⟨k, rfl⟩ : ∃ k', k = k' + 1 := ⟨k - 1, by omega⟩
          have hne : lo * PGSIZE ≠ (lo + (k + 1)) * PGSIZE := by
            simp only [PGSIZE]
            omega
          have hcur : add64 (lo * PGSIZE) PGSIZE = (lo + 1) * PGSIZE := add64_page hva
          have hpa : add64 (s.pmem.pageAddr q) PGSIZE = t.pmem.pageAddr (q + 1) := by
            obtain ⟨⟨b, hb, hqb⟩, -⟩ := hpages 1 (by omega)
            have hlt := (h.wf.placed hb).mem_lt hqb
            have hend := h.wf.region.end_eq
            have hend' := h.wf.region.end_lt
            rw [hkept.same.pageAddr]
            simp only [add64, Pmem.pageAddr, PGSIZE] at *
            omega
          rw [if_neg hne, hcur, hpa, show lo + (k + 1) = lo + 1 + k by omega]
          have hvac' : t.Vacant pid (lo + 1) (lo + 1 + k + 1) := by
            intro v h1 h2
            rw [← ht, setLeaf_leaf, if_neg (by omega), hgw.leaf_eq]
            exact hvac v (by omega) (by omega)
          have hpages' : ∀ j ≤ k, LivePage live₁ (q + 1 + j) ∧ t.Unheld (q + 1 + j) := by
            intro j hj
            obtain ⟨hlive, hun⟩ := hpages (j + 1) (by omega)
            rw [show q + (j + 1) = q + 1 + j by omega] at hlive hun
            refine ⟨hlive.mono hgw.sub, fun x hx => ?_⟩
            rw [← ht] at hx
            rcases holds_setLeaf hx with ⟨-, heq⟩ | hx
            · have heq' : s₁.pmem.pageAddr (q + 1 + j) = s.pmem.pageAddr q := heq
              rw [hgw.same.pageAddr] at heq'
              have := Pmem.pageAddr_inj heq'
              omega
            · exact hgw.unheld hlive hun x hx
          rcases ih hok hsafet hvac' hpages' (fun v h1 h2 => hR v (by omega) (by omega)) (by omega) with
            ⟨s', hcall, hend, hsafe', hkept', htab', hbal'⟩ | ⟨hcall, hwhy⟩
          · refine .inl ⟨s', hcall, hend, hsafe', hkept.trans hgw.sub hkept', ?_, by omega⟩
            intro v h1 h2 l hl
            by_cases hv : v = lo
            · subst hv
              rw [hkept'.dir pid _ _ (htabt l hl)]
              exact htabt l hl
            · exact htab' v (by omega) (by omega) l hl
          · exact .inr ⟨hcall, hwhy.imp_right fun h => by omega⟩
      · rw [hw, Option.bind_some]
        exact .inr ⟨rfl, .inr hlt⟩
    · rw [if_pos (Nat.not_lt.mp hva)]
      refine .inr ⟨rfl, .inl ((Nat.not_lt.mp hva).trans (Nat.mul_le_mul_right _ (by omega)))⟩

/-! ## The first attempt -/

/-- All tables are there. -/
theorem missing_eq_zero (htab : ∀ v, lo ≤ v → v < hi → ∀ l < PT_LEVEL arch - 1,
    s.dir pid (l + 1) (dirIndex (v * PGSIZE) (l + 1)) ≠ NULL) : (missing arch pid (Finset.Ico lo hi) s).card = 0 := by
  rw [Finset.card_eq_zero, Finset.eq_empty_iff_forall_notMem]
  intro t ht
  obtain ⟨htables, hnull⟩ := mem_missing.mp ht
  obtain ⟨v, hv, l, hl, rfl⟩ := mem_tablesTo.mp htables
  obtain ⟨h1, h2⟩ := Finset.mem_Ico.mp hv
  exact htab v h1 h2 l hl hnull

theorem memset_zero {ptr len a : Nat} (h1 : ptr ≤ a) (h2 : a < ptr + len) : (s.memset ptr len).pmem.mem a = 0 :=
  if_pos ⟨h1, h2⟩

/-- With a block for the whole range the first attempt maps it, or there is a panic. -/
theorem tryBlock_count (perm : Nat) (h : s.Ok arch live) (hsafe : s.Safe) (hreq : s.pmem.AllocSafe (toInt32 n))
    (hlt : n < 2 ^ 31) (hvac : s.Vacant pid lo (lo + n)) (hblock : s.HasBlock n) :
    (∃ s' live', tryBlock arch pid (lo * PGSIZE) n perm s = some (.mapped, s') ∧ s'.Safe ∧
        Fresh arch pid perm lo (lo + n) s s' live live' ∧ (lo + n) * PGSIZE ≤ MAXVA arch ∧
        n ≤ 2 ^ (getOrder n).toNat ∧
        2 ^ (getOrder n).toNat + (missing arch pid (Finset.Ico lo (lo + n)) s).card ≤ s.pmem.freeCount) ∨
      tryBlock arch pid (lo * PGSIZE) n perm s = none ∧ ((lo + n) * PGSIZE ≤ MAXVA arch →
        s.pmem.freeCount < 2 ^ (getOrder n).toNat + (missing arch pid (Finset.Ico lo (lo + n)) s).card) := by
  obtain ⟨hn, ptr, pm, hp, hne⟩ := hblock
  obtain ⟨k, rfl⟩ : ∃ k, n = k + 1 := ⟨n - 1, by omega⟩
  obtain ⟨s₁, ha⟩ : ∃ s₁, s.alloc (toInt32 (k + 1)) = some (ptr, s₁) := by
    rw [Vmem.alloc, hp]
    exact ⟨_, rfl⟩
  have hsafe₁ := alloc_safe hreq ha hsafe
  rw [toInt32_of_lt hlt] at ha
  obtain ⟨hleaf₁, hdir₁, -⟩ := alloc_frame ha
  have hg₀ : Grown arch (inRange pid lo (lo + (k + 1))) s s live live := Grown.refl h
  have hroom : k + 1 ≤ 2 ^ (getOrder (k + 1)).toNat := by
    rcases h.alloc hsafe₁ ha with ⟨hnull, -⟩ | ⟨b, -, -, hroom, hord, -⟩
    · exact absurd hnull hne
    · rw [Int.toNat_natCast] at hord
      rw [hord, Int.toNat_natCast]
      exact_mod_cast hroom
  obtain ⟨b, hptr, hord, hg, hpages⟩ := hg₀.fresh hsafe₁ (le_refl _) hne ha
  -- the state after the block is cleared
  obtain ⟨t, ht⟩ : ∃ t, s₁.memset ptr ((k + 1) * PGSIZE) = t := ⟨_, rfl⟩
  rw [ht] at hptr hg hpages
  have hsafet : t.Safe := by
    rw [← ht]
    exact hsafe₁
  have hvact : t.Vacant pid lo (lo + k + 1) := by
    rw [← ht]
    intro v h1 h2
    rw [memset_leaf, hleaf₁]
    exact hvac v h1 h2
  have hcount : s.pmem.freeCount = t.pmem.freeCount + 2 ^ (getOrder (k + 1)).toNat := by
    rw [h.wf.freeCount_block hg.ok.wf hg.same]
    rw [Int.toNat_natCast] at hord
    rw [hord, Int.toNat_natCast]
  have hmiss : missing arch pid (Finset.Ico lo (lo + (k + 1))) t = missing arch pid (Finset.Ico lo (lo + (k + 1))) s := by
    rw [← ht]
    exact missing_congr hdir₁
  have hzero : ∀ j < k + 1, ∀ o < PGSIZE, t.pmem.mem (t.pmem.pageAddr (b.page + j) + o) = 0 := by
    intro j hj o ho
    have hin : ptr ≤ t.pmem.pageAddr (b.page + j) + o ∧
        t.pmem.pageAddr (b.page + j) + o < ptr + (k + 1) * PGSIZE := by
      rw [hptr]
      simp only [Pmem.pageAddr, PGSIZE] at *
      omega
    generalize t.pmem.pageAddr (b.page + j) + o = a at hin ⊢
    rw [← ht]
    exact memset_zero hin.1 hin.2
  obtain ⟨after, hblockCall, hmapped⟩ : ∃ after, tryBlock arch pid (lo * PGSIZE) (k + 1) perm s =
      (mappages arch pid (lo * PGSIZE) ptr ((k + 1) * PGSIZE) (userPerm arch perm) t).bind after ∧
        ∀ s', after (1, s') = some (.mapped, s') := by
    rw [tryBlock, if_pos hn, toInt32_of_lt hlt, ha, Option.bind_some]
    simp only [if_pos hne, ht]
    exact ⟨_, rfl, fun _ => rfl⟩
  rw [hblockCall]
  by_cases hva : lo * PGSIZE < MAXVA arch
  · have hal : ptr % PGSIZE = 0 := by
      rw [hptr]
      exact hg.ok.pageAddr_aligned
    rw [mappages_range hva hal (by omega), hptr]
    rcases mappagesLoop_count (n := k + 2) hg.ok hsafet hvact
      (fun j hj => ⟨(hpages j (by omega)).2.1, (hpages j (by omega)).2.2⟩)
      (flags_userPerm arch · perm) (fun v h1 h2 => Finset.mem_Ico.mpr ⟨h1, h2⟩) (by omega) with
      ⟨s', hcall, hend, hsafe', hkept, htab, hbal⟩ | ⟨hcall, hwhy⟩
    · rw [hcall, Option.bind_some, hmapped]
      have hmap : mappages arch pid (lo * PGSIZE) ptr ((k + 1) * PGSIZE) (userPerm arch perm) t = some (1, s') := by
        rw [mappages_range hva hal (by omega), hptr]
        exact hcall
      obtain ⟨-, live', hg', hsub, hmaps⟩ := mappages_spec hg hsafe' hptr hn hlt (fun v h1 h2 => ⟨rfl, h1, h2⟩)
        hvact hpages (flags_userPerm arch · perm) hmap
      have hnone : (missing arch pid (Finset.Ico lo (lo + (k + 1))) s').card = 0 := missing_eq_zero htab
      refine .inl ⟨s', live', rfl, hsafe', ⟨hg', ?_⟩, ?_, hroom, ?_⟩
      · intro v h1 h2
        obtain ⟨hnew, hlive, -⟩ := hpages (v - lo) (by omega)
        refine ⟨b.page + (v - lo), ?_, hlive.mono hsub, hnew, fun o ho => ?_⟩
        · rw [hmaps pid v, if_pos ⟨rfl, h1, h2⟩, hkept.same.pageAddr]
        · rw [hkept.same.pageAddr, hkept.mem _ hlive o ho]
          exact hzero _ (by omega) o ho
      · have hmod : MAXVA arch % PGSIZE = 0 := by cases arch <;> decide
        simp only [PGSIZE] at hend hmod ⊢
        omega
      · have hbal' : t.pmem.freeCount + 0 = s'.pmem.freeCount + (missing arch pid (Finset.Ico lo (lo + (k + 1))) s).card := by
          rw [← hnone, ← hmiss]
          exact hbal
        omega
    · rw [hcall]
      refine .inr ⟨rfl, fun hmax => ?_⟩
      have hlast : ¬MAXVA arch ≤ (lo + k) * PGSIZE := by
        simp only [PGSIZE] at hmax ⊢
        omega
      have hless := hwhy.resolve_left hlast
      have hless' : t.pmem.freeCount < (missing arch pid (Finset.Ico lo (lo + (k + 1))) s).card := by
        rw [← hmiss]
        exact hless
      omega
  · have hnone : mappages arch pid (lo * PGSIZE) ptr ((k + 1) * PGSIZE) (userPerm arch perm) t = none := by
      rw [mappages, if_pos (.inl (Nat.not_lt.mp hva))]
    rw [hnone]
    refine .inr ⟨rfl, fun hmax => absurd hmax ?_⟩
    simp only [PGSIZE] at hva ⊢
    omega

/-- Without a block the first attempt changes nothing but the order of the free lists. -/
theorem tryBlock_noMemory (h : s.Ok arch live) (hsafe : s.Safe) (hreq : s.pmem.AllocSafe (toInt32 n))
    (hn : 0 < n) (hblock : ¬s.HasBlock n) :
    ∃ s₁, tryBlock arch pid va n perm s = some (.noMemory, s₁) ∧ s₁.Safe ∧ Grown arch nowhere s s₁ live live ∧
      s₁.dir = s.dir := by
  obtain ⟨ptr, s₁, ha⟩ : ∃ ptr s₁, s.alloc (toInt32 n) = some (ptr, s₁) := by
    rcases h.wf.pmemAllocPages _ hreq with ⟨p, hp, -⟩ | ⟨b, p, hp, -⟩
    · exact ⟨_, _, by rw [Vmem.alloc, hp]; rfl⟩
    · exact ⟨_, _, by rw [Vmem.alloc, hp]; rfl⟩
  have hsafe₁ := alloc_safe hreq ha hsafe
  have hnull : ptr = NULL := by
    by_contra hne
    obtain ⟨⟨ptr', p⟩, hp, heq⟩ := Option.map_eq_some_iff.mp ha
    cases heq
    exact hblock ⟨hn, ptr, p, hp, hne⟩
  subst hnull
  refine ⟨s₁, ?_, hsafe₁, ?_, (alloc_frame ha).2.1⟩
  · rw [tryBlock, if_pos hn, ha, Option.bind_some]
    simp
  · rcases h.alloc hsafe₁ ha with ⟨-, hg⟩ | ⟨b, -, hne, -⟩
    · exact hg
    · exact absurd rfl hne

/-! ## The second attempt -/

/-- A vacant page of `R` is mapped, or there is not enough memory for the pages of `R` and their tables. -/
theorem tryPage_count (perm : Nat) (h : s.Ok arch live) (hsafe : s.Safe) (hvac : (s.leaf pid k).valid = false)
    (hk : k ∈ R) :
    (∃ s' live', tryPage arch pid (k * PGSIZE) perm s = some (some true, s') ∧ k * PGSIZE < MAXVA arch ∧ s'.Safe ∧
        Fresh arch pid perm k (k + 1) s s' live live' ∧
        s.pmem.freeCount + needOf arch pid (R.erase k) s' = s'.pmem.freeCount + needOf arch pid R s) ∨
      (∀ s', tryPage arch pid (k * PGSIZE) perm s ≠ some (some true, s')) ∧ (k * PGSIZE < MAXVA arch →
        s.pmem.freeCount < needOf arch pid R s) := by
  have hRcard := Finset.card_erase_add_one hk
  rw [tryPage]
  rcases h.alloc_count hsafe with ⟨s₁, ha, hcount⟩ | ⟨q, s₁, ha, hne, hsafe₁, hg, hnew, hun, hcount⟩
  · rw [ha, Option.bind_some]
    refine .inr ⟨fun s' => by simp, fun _ => ?_⟩
    unfold needOf
    omega
  · rw [ha, Option.bind_some]
    simp only [if_neg hne]
    obtain ⟨hleaf₁, hdir₁, -⟩ := alloc_frame ha
    -- the state after the page is cleared
    obtain ⟨t, ht⟩ : ∃ t, s₁.memset (s₁.pmem.pageAddr q) PGSIZE = t := ⟨_, rfl⟩
    have hclear : Grown arch nowhere s t live (⟨q, 0⟩ :: live) := by
      rw [← ht]
      refine hg.memset ?_
      rintro p hp o ho ⟨h1, h2⟩
      have hpq : p = q := by
        simp only [Pmem.pageAddr, PGSIZE] at h1 h2 ho
        omega
      rw [hpq] at hp
      exact hnew hp
    have hzero : ∀ o < PGSIZE, t.pmem.mem (t.pmem.pageAddr q + o) = 0 := by
      intro o ho
      rw [← ht]
      exact memset_zero (Nat.le_add_right _ _) (Nat.add_lt_add_left ho _)
    have hcount' : t.pmem.freeCount = s₁.pmem.freeCount := by
      rw [← ht]
      exact hg.ok.wf.freeCount_congr (hg.ok.wf.setMem _) ⟨rfl, rfl, rfl⟩
    have hmiss : missing arch pid R t = missing arch pid R s := by
      rw [← ht]
      exact missing_congr hdir₁
    have hunt : t.Unheld q := by
      rw [← ht]
      exact hun
    have hsafet : t.Safe := by
      rw [← ht]
      exact hsafe₁
    have hpage : s₁.pmem.pageAddr q = t.pmem.pageAddr q := by
      rw [← ht]
      rfl
    rw [ht, hpage]
    by_cases hva : k * PGSIZE < MAXVA arch
    · rw [mappages_page hva hclear.ok.pageAddr_aligned]
      rcases walkLevels_count pid hclear.ok hsafet hk (le_refl (PT_LEVEL arch - 1)) with
        ⟨s₂, live₂, hw, hsafe₂, hgw, hbal⟩ | ⟨⟨s₂, hw⟩, hlt⟩
      · rw [hw, Option.bind_some]
        obtain ⟨-, -, htab⟩ := walkLevels_spec hclear.ok hsafe₂ hw
        have hnot : (s₂.leaf pid k).valid = false := by
          rw [hgw.leaf_eq, ← ht, memset_leaf, hleaf₁]
          exact hvac
        have hlive : LivePage (⟨q, 0⟩ :: live) q := ⟨_, List.mem_cons_self .., Block.page_mem ⟨q, 0⟩⟩
        have hgrown : Grown arch (inRange pid k (k + 1)) s s₂ live live₂ :=
          (hclear.trans hgw).mono fun _ _ h => h.elim
        have hset : Grown arch (inRange pid k (k + 1)) s
            (s₂.setLeaf pid k ⟨s₂.pmem.pageAddr q, userPerm arch perm ||| PTE_V⟩) live live₂ :=
          hgrown.setLeaf ⟨rfl, le_refl _, Nat.lt_succ_self _⟩ hnew (hlive.mono hgw.sub) (hgw.unheld hlive hunt)
            (flags_userPerm arch · perm) (htab rfl)
        rw [hgw.same.pageAddr] at hset
        simp only [hnot]
        refine .inl ⟨_, live₂, rfl, hva, hsafe₂, ⟨hset, fun v h1 h2 => ?_⟩, ?_⟩
        · obtain rfl : v = k := by omega
          refine ⟨q, ?_, hlive.mono hgw.sub, hnew, fun o ho => ?_⟩
          · rw [setLeaf_leaf, if_pos ⟨rfl, rfl⟩]
            exact congrArg (fun pa => Pte.mk pa _) (hgw.same.pageAddr q).symm
          · have hkept := hgw.mem q hlive o ho
            rw [hzero o ho] at hkept
            exact (congrArg (fun a => s₂.pmem.mem (a + o)) (hgw.same.pageAddr q)).trans hkept
        · have herase : missing arch pid (R.erase k) (s₂.setLeaf pid k ⟨t.pmem.pageAddr q,
              userPerm arch perm ||| PTE_V⟩) = missing arch pid R s₂ := missing_erase (htab rfl)
          rw [hmiss, hcount'] at hbal
          unfold needOf
          rw [herase]
          show _ = s₂.pmem.freeCount + _
          omega
      · rw [hw, Option.bind_some]
        refine .inr ⟨fun s' => by simp, fun _ => ?_⟩
        rw [hmiss, hcount'] at hlt
        unfold needOf
        omega
    · have hnone : mappages arch pid (k * PGSIZE) (t.pmem.pageAddr q) PGSIZE (userPerm arch perm) t = none := by
        rw [mappages, if_pos (.inl (Nat.not_lt.mp hva))]
      rw [hnone]
      exact .inr ⟨fun s' => by simp, fun h => absurd h hva⟩

theorem Ico_erase_first (lo hi : Nat) : (Finset.Ico lo hi).erase lo = Finset.Ico (lo + 1) hi := by
  ext v
  rw [Finset.mem_erase, Finset.mem_Ico, Finset.mem_Ico]
  omega

/-- The loop over vacant pages fills them all, or ends in its clean-up or a panic. -/
theorem fillLoop_count {end_ : Nat} (perm : Nat) (done : Int)
    (undo : Nat → Option Bool → Vmem → Option (Int × Vmem)) (h : s.Ok arch live) (hsafe : s.Safe)
    (hvac : s.Vacant pid k (pageCeil end_)) (hk : k ≤ pageCeil end_)
    (hn : pageCeil end_ ≤ k + n) :
    (∃ s' live', fillLoop arch pid end_ perm done undo n (k * PGSIZE) s = some (done, s') ∧ s'.Safe ∧
        Fresh arch pid perm k (pageCeil end_) s s' live live' ∧
        (k < pageCeil end_ → pageCeil end_ * PGSIZE ≤ MAXVA arch) ∧
        needOf arch pid (Finset.Ico k (pageCeil end_)) s ≤ s.pmem.freeCount) ∨
      (∀ r s', fillLoop arch pid end_ perm done undo n (k * PGSIZE) s = some (r, s') →
        ∃ a made t, undo a made t = some (r, s')) ∧
        (pageCeil end_ * PGSIZE ≤ MAXVA arch →
          s.pmem.freeCount < needOf arch pid (Finset.Ico k (pageCeil end_)) s) := by
  induction n generalizing s live k with
  | zero =>
    obtain rfl : k = pageCeil end_ := by omega
    have hge : ¬pageCeil end_ * PGSIZE < end_ := fun hlt => Nat.lt_irrefl _ (lt_pageCeil.mpr hlt)
    rw [fillLoop, if_neg hge]
    refine .inl ⟨s, live, rfl, hsafe, Fresh.refl h, fun hlt => absurd hlt (Nat.lt_irrefl _), ?_⟩
    rw [Finset.Ico_self]
    exact Nat.zero_le _
  | succ n ih =>
    rw [fillLoop]
    by_cases hlt : k * PGSIZE < end_
    · have hceil : k < pageCeil end_ := lt_pageCeil.mpr hlt
      rw [if_pos hlt]
      rcases tryPage_count perm h hsafe (hvac k (le_refl _) hceil)
        (Finset.mem_Ico.mpr ⟨le_refl _, hceil⟩) with
        ⟨s₁, live₁, hpage, hva, hsafe₁, hfresh, hbal⟩ | ⟨hnot, hwhy⟩
      · rw [hpage, Option.bind_some]
        simp only [if_true]
        rw [add64_page hva]
        rw [Ico_erase_first] at hbal
        have hvac₁ : s₁.Vacant pid (k + 1) (pageCeil end_) := by
          intro v h1 h2
          rw [hfresh.grown.leaf pid v fun hin => by have := hin.2.2; omega]
          exact hvac v (by omega) h2
        rcases ih hfresh.grown.ok hsafe₁ hvac₁ hceil (by omega) with
          ⟨s', live', hcall, hsafe', hfresh', hmax, hneed⟩ | ⟨hcall, hwhy⟩
        · refine .inl ⟨s', live', hcall, hsafe', hfresh.append hfresh' (Nat.le_succ k) hceil, fun _ => ?_, by omega⟩
          by_cases hlast : k + 1 < pageCeil end_
          · exact hmax hlast
          · have hmod : MAXVA arch % PGSIZE = 0 := by cases arch <;> decide
            rw [show pageCeil end_ = k + 1 by omega]
            simp only [PGSIZE] at hva hmod ⊢
            omega
        · exact .inr ⟨hcall, fun hmax => by have := hwhy hmax; omega⟩
      · refine .inr ⟨fun r s' hcall => ?_, fun hmax => hwhy (lt_of_lt_of_le ?_ hmax)⟩
        · obtain ⟨⟨made, s₁⟩, hpage, hcall⟩ := Option.bind_eq_some_iff.mp hcall
          simp only at hcall
          split at hcall
          · rename_i hmade
            subst hmade
            exact absurd hpage (hnot s₁)
          · exact ⟨_, _, _, hcall⟩
        · exact Nat.mul_lt_mul_of_pos_right hceil (by decide)
    · have hnot : ¬k < pageCeil end_ := fun hlt' => hlt (lt_pageCeil.mp hlt')
      obtain rfl : k = pageCeil end_ := by omega
      rw [if_neg hlt]
      refine .inl ⟨s, live, rfl, hsafe, Fresh.refl h, fun hlt => absurd hlt (Nat.lt_irrefl _), ?_⟩
      rw [Finset.Ico_self]
      exact Nat.zero_le _

/-! ## `uvm_grow` -/

theorem pgRoundUp_page (hlo : lo * PGSIZE < 2 ^ 64) : pgRoundUp (lo * PGSIZE) = lo * PGSIZE := by
  simp only [pgRoundUp, alignUp, add64, PGSIZE] at *
  omega

/-- The number of pages that `uvm_grow` computes. -/
theorem growPages (hlt : lo * PGSIZE < newsz) (hnew : newsz < 2 ^ 64)
    (hsmall : pageCeil newsz - lo < 2 ^ 31) : sub64 (pgRoundUp newsz) (lo * PGSIZE) / PGSIZE = pageCeil newsz - lo := by
  simp only [pgRoundUp, alignUp, add64, sub64, pageCeil, PGSIZE] at *
  omega

theorem uvmGrow_eq (hlt : lo * PGSIZE < newsz) (hnew : newsz < 2 ^ 64) (hsmall : pageCeil newsz - lo < 2 ^ 31) :
    uvmGrow arch pid (lo * PGSIZE) newsz perm s =
      (tryBlock arch pid (lo * PGSIZE) (pageCeil newsz - lo) perm s).bind fun
        | (.mapped, s) => some ((newsz : Int), s)
        | (_, s) => fillLoop arch pid newsz perm newsz (undoGrow arch pid (lo * PGSIZE)) (pageCeil newsz)
            (lo * PGSIZE) s := by
  rw [uvmGrow, if_neg (Nat.not_le.mpr hlt)]
  simp only [pgRoundUp_page (hlt.trans hnew), growPages hlt hnew hsmall] <;> rfl

/-- A growth over a vacant range maps it if the memory for it can be had, and else does not come back or
leaves its first page unmapped. -/
theorem uvmGrow_vacant (h : s.Ok arch live) (hsafe : s.Safe) (hpages : s.pmem.totalPages < 2 ^ 31)
    (hreq : s.pmem.AllocSafe (toInt32 (pageCeil newsz - lo))) (hlt : lo * PGSIZE < newsz) (hnew : newsz < 2 ^ 64)
    (hsmall : pageCeil newsz - lo < 2 ^ 31) (hvac : s.Vacant pid lo (pageCeil newsz)) :
    (Affords arch pid lo (pageCeil newsz) s ∧ ∃ s' live', uvmGrow arch pid (lo * PGSIZE) newsz perm s =
        some ((newsz : Int), s') ∧ s'.Safe ∧ Fresh arch pid perm lo (pageCeil newsz) s s' live live') ∨
      ¬Affords arch pid lo (pageCeil newsz) s ∧ ∀ r s', uvmGrow arch pid (lo * PGSIZE) newsz perm s = some (r, s') →
        (s'.leaf pid lo).valid = false := by
  have hceil : lo < pageCeil newsz := lt_pageCeil.mpr hlt
  have hhi : lo + (pageCeil newsz - lo) = pageCeil newsz := by omega
  rw [uvmGrow_eq hlt hnew hsmall]
  by_cases hblock : s.HasBlock (pageCeil newsz - lo)
  · have hvac' : s.Vacant pid lo (lo + (pageCeil newsz - lo)) := by rwa [hhi]
    have hcount := tryBlock_count perm h hsafe hreq hsmall hvac' hblock
    rw [hhi] at hcount
    rcases hcount with ⟨s', live', hcall, hsafe', hfresh, hmax, hroom, hneed⟩ | ⟨hcall, hwhy⟩
    · rw [hcall, Option.bind_some]
      exact .inl ⟨⟨hmax, by omega, fun _ => hneed, fun hnot => absurd hblock hnot⟩, s', live', rfl, hsafe', hfresh⟩
    · rw [hcall, Option.bind_none]
      refine .inr ⟨fun haff => ?_, fun r s' hcall => by cases hcall⟩
      have := hwhy haff.below
      have := haff.block hblock
      omega
  · obtain ⟨s₁, hcall, hsafe₁, hg, hdir⟩ : ∃ s₁, tryBlock arch pid (lo * PGSIZE) (pageCeil newsz - lo) perm s =
        some (.noMemory, s₁) ∧ s₁.Safe ∧ Grown arch nowhere s s₁ live live ∧ s₁.dir = s.dir :=
      tryBlock_noMemory h hsafe hreq (by omega) hblock
    have hvac₁ : s₁.Vacant pid lo (pageCeil newsz) := by
      rw [Vacant, hg.leaf_eq]
      exact hvac
    have hfree : s₁.pmem.freeCount = s.pmem.freeCount := h.wf.freeCount_congr hg.ok.wf hg.same
    have hneed₁ : needOf arch pid (Finset.Ico lo (pageCeil newsz)) s₁ =
        needOf arch pid (Finset.Ico lo (pageCeil newsz)) s := by
      rw [needOf, needOf, missing_congr hdir]
    rw [hcall, Option.bind_some]
    rcases fillLoop_count perm newsz (undoGrow arch pid (lo * PGSIZE)) (n := pageCeil newsz) hg.ok hsafe₁ hvac₁
      hceil.le (by omega) with ⟨s', live', hloop, hsafe', hfresh, hmax, hneed⟩ | ⟨hloop, hwhy⟩
    · refine .inl ⟨⟨hmax hceil, ?_, fun hhas => absurd hhas hblock, fun _ => by omega⟩, s', live', hloop, hsafe', ?_⟩
      · have hcard : (Finset.Ico lo (pageCeil newsz)).card = pageCeil newsz - lo := Nat.card_Ico lo (pageCeil newsz)
        unfold needOf at hneed
        omega
      · have hstart : Fresh arch pid perm lo lo s s₁ live live := .none hg
        exact hstart.append hfresh (le_refl _) hceil.le
    · refine .inr ⟨fun haff => ?_, fun r s' hrun => ?_⟩
      · have := hwhy haff.below
        have := haff.single hblock
        omega
      · obtain ⟨a, made, t, hundo⟩ := hloop r s' hrun
        obtain ⟨u, -, heq⟩ := Option.map_eq_some_iff.mp hundo
        obtain rfl : (0 : Int) = r := (Prod.mk.inj heq).1
        have hgrow : uvmGrow arch pid (lo * PGSIZE) newsz perm s = some (0, s') := by
          rw [uvmGrow_eq hlt hnew hsmall, hcall, Option.bind_some]
          exact hrun
        have hround : pgRoundUp (lo * PGSIZE) = lo * PGSIZE := pgRoundUp_page (hlt.trans hnew)
        have hnotrace :=
          uvmGrow_noTrace_iff h hsafe hpages (by rw [hround, growPages hlt hnew hsmall]; exact hreq) hgrow (le_refl 0)
        rw [hround, growPages hlt hnew hsmall] at hnotrace
        have htrace : NoTrace s s' := hnotrace.mpr (.inr hblock)
        by_contra hv
        have hvalid := htrace.valid (eq_true_of_ne_false hv)
        rw [hvac lo (le_refl _) hceil] at hvalid
        cases hvalid

/-! ## A first page that is mapped -/

/-- The first attempt is refused at a first page that is mapped, and changes no entry. -/
theorem tryBlock_first {tr : Tried} (hv : (s.leaf pid lo).valid = true)
    (hcall : tryBlock arch pid (lo * PGSIZE) n perm s = some (tr, s')) : tr ≠ .mapped ∧ s'.leaf = s.leaf := by
  unfold tryBlock at hcall
  split at hcall
  · obtain ⟨⟨mem, s₁⟩, ha, hcall⟩ := Option.bind_eq_some_iff.mp hcall
    have hleaf := (alloc_frame ha).1
    simp only at hcall
    split at hcall
    · obtain ⟨⟨r, s₂⟩, hmap, hcall⟩ := Option.bind_eq_some_iff.mp hcall
      have hv₁ : ((s₁.memset mem (n * PGSIZE)).leaf pid lo).valid = true := by
        rw [memset_leaf, hleaf]
        exact hv
      obtain ⟨rfl, hwalk⟩ := (mappages_first hmap).2.2 hv₁
      simp only at hcall
      rw [if_neg (by decide)] at hcall
      obtain ⟨s₃, hf, heq⟩ := Option.map_eq_some_iff.mp hcall
      cases heq
      refine ⟨by decide, ?_⟩
      rw [free_leaf hf, walkAlloc_leaf hwalk]
      exact hleaf
    · cases hcall
      exact ⟨by decide, hleaf⟩
  · cases hcall
    exact ⟨by decide, rfl⟩

theorem tryPage_first (hv : (s.leaf pid lo).valid = true)
    (hcall : tryPage arch pid (lo * PGSIZE) perm s = some (made, s')) : made ≠ some true ∧ s'.leaf = s.leaf := by
  refine ⟨(tryPage_keeps hv hcall).1, ?_⟩
  rcases tryPage_cases hcall with ⟨-, ha⟩ | ⟨mem, s₁, s₂, r, -, ha, hmap, hres⟩
  · exact (alloc_frame ha).1
  · have hleaf : (s₁.memset mem PGSIZE).leaf = s.leaf := (alloc_frame ha).1
    obtain ⟨rfl, hwalk⟩ := (mappages_first hmap).2.2 (by rw [hleaf]; exact hv)
    have hleaf₂ := walkAlloc_leaf hwalk
    rw [hleaf] at hleaf₂
    rcases hres with ⟨-, hr, -⟩ | ⟨-, -, hfree⟩
    · exact absurd hr (by decide)
    · rw [free_leaf hfree, hleaf₂]

/-- The clean-up at the first page has nothing to do. -/
theorem undoGrow_first : undoGrow arch pid (lo * PGSIZE) (lo * PGSIZE) made s = some (0, s) := by
  rw [undoGrow, uvmdealloc, if_pos (le_refl _)]
  rfl

/-- A growth whose first page is mapped changes no entry. -/
theorem uvmGrow_first {r : Int} (hround : pgRoundUp (lo * PGSIZE) = lo * PGSIZE)
    (hv : (s.leaf pid lo).valid = true) (hcall : uvmGrow arch pid (lo * PGSIZE) newsz perm s = some (r, s')) :
    s'.leaf = s.leaf := by
  have hfill : ∀ {s₁ n}, (s₁.leaf pid lo).valid = true → fillLoop arch pid newsz perm newsz
      (undoGrow arch pid (lo * PGSIZE)) n (lo * PGSIZE) s₁ = some (r, s') → s'.leaf = s₁.leaf := by
    intro s₁ n hv hloop
    cases n with
    | zero =>
      rw [fillLoop] at hloop
      split at hloop
      · cases hloop
      · cases hloop
        rfl
    | succ n =>
      rw [fillLoop] at hloop
      split at hloop
      · obtain ⟨⟨made, s₂⟩, hpage, hloop⟩ := Option.bind_eq_some_iff.mp hloop
        obtain ⟨hmade, hleaf⟩ := tryPage_first hv hpage
        simp only [if_neg hmade] at hloop
        rw [undoGrow_first] at hloop
        cases hloop
        exact hleaf
      · cases hloop
        rfl
  unfold uvmGrow at hcall
  split at hcall
  · cases hcall
    rfl
  · simp only [hround] at hcall
    obtain ⟨⟨tr, s₁⟩, hblock, hcall⟩ := Option.bind_eq_some_iff.mp hcall
    obtain ⟨hne, hleaf⟩ := tryBlock_first hv hblock
    have hv₁ : (s₁.leaf pid lo).valid = true := by
      rw [hleaf]
      exact hv
    rw [← hleaf]
    cases tr with
    | mapped => exact absurd rfl hne
    | refused => exact hfill hv₁ hcall
    | noMemory => exact hfill hv₁ hcall

/-- The attempt to map a page that is mapped already comes back, and takes nothing. -/
theorem tryPage_mapped (perm : Nat) (h : s.Ok arch live) (hsafe : s.Safe) (hva : lo * PGSIZE < MAXVA arch)
    (hv : (s.leaf pid lo).valid = true) :
    ∃ made s' live', tryPage arch pid (lo * PGSIZE) perm s = some (made, s') ∧ made ≠ some true ∧ s'.Safe ∧
      Grown arch nowhere s s' live live' := by
  obtain ⟨made, s', hcall⟩ : ∃ made s', tryPage arch pid (lo * PGSIZE) perm s = some (made, s') := by
    rw [tryPage]
    rcases h.alloc_count hsafe with ⟨s₁, ha, -⟩ | ⟨q, s₁, ha, hne, -, hg, -⟩
    · rw [ha]
      exact ⟨none, s₁, rfl⟩
    · rw [ha, Option.bind_some]
      simp only [if_neg hne]
      have hok : (s₁.memset (s₁.pmem.pageAddr q) PGSIZE).Ok arch (⟨q, 0⟩ :: live) := hg.ok.withMem _
      have hleaf : (s₁.memset (s₁.pmem.pageAddr q) PGSIZE).leaf = s.leaf := (alloc_frame ha).1
      have hwalk : walkLevels pid (lo * PGSIZE) (PT_LEVEL arch - 1) (s₁.memset (s₁.pmem.pageAddr q) PGSIZE) =
          some (true, s₁.memset (s₁.pmem.pageAddr q) PGSIZE) :=
        walkLevels_of_dir (hok.tables pid lo (by rw [hleaf]; exact hv))
      rw [mappages_page hva hg.ok.pageAddr_aligned, hwalk, Option.bind_some]
      simp only [hleaf, hv]
      have herror : (-EINVAL : Int) ≠ 1 := by decide
      rw [if_neg (by decide), if_pos trivial, Option.bind_some, if_neg herror]
      obtain ⟨p, hfree, -⟩ := hok.wf.pmemFreePages (List.mem_cons_self ..) (Block.page_mem ⟨q, 0⟩) Int.one_pos (le_refl 1)
      refine ⟨some false, { s₁.memset (s₁.pmem.pageAddr q) PGSIZE with pmem := p }, ?_⟩
      rw [Vmem.free]
      exact (congrArg (Option.map _) (congrArg (Option.map _) hfree))
  obtain ⟨hne, live', hg, htook⟩ := tryPage_refused h hsafe hv hcall
  exact ⟨made, s', live', hcall, hne, htook.safe hsafe, hg⟩

/-- A block of one page is tried as a single page is. -/
theorem tryBlock_one : tryBlock arch pid va 1 perm s = (tryPage arch pid va perm s).map fun
    | (some true, s) => (.mapped, s)
    | (some false, s) => (.refused, s)
    | (none, s) => (.noMemory, s) := by
  rw [tryBlock, if_pos Nat.one_pos, tryPage, toInt32_of_lt (by decide), Nat.one_mul]
  cases s.alloc ((1 : Nat) : Int) with
  | none => rfl
  | some r =>
    obtain ⟨mem, s₁⟩ := r
    rw [Option.bind_some, Option.bind_some]
    dsimp only
    by_cases hnull : mem = NULL
    · rw [if_neg (not_not.mpr hnull), if_pos hnull]
      rfl
    · rw [if_pos hnull, if_neg hnull]
      cases mappages arch pid va mem PGSIZE (userPerm arch perm) (s₁.memset mem PGSIZE) with
      | none => rfl
      | some r =>
        obtain ⟨r, s₂⟩ := r
        rw [Option.bind_some, Option.bind_some]
        dsimp only
        by_cases hr : r = 1
        · rw [if_pos hr, if_pos hr]
          rfl
        · rw [if_neg hr, if_neg hr, Option.map_map]
          rfl

/-- A growth over one page that is mapped already comes back with the failure value, and takes nothing. -/
theorem uvmGrow_mapped (perm : Nat) (h : s.Ok arch live) (hsafe : s.Safe)
    (hva : lo * PGSIZE < MAXVA arch) (hv : (s.leaf pid lo).valid = true) (hlt : lo * PGSIZE < newsz)
    (hone : pageCeil newsz = lo + 1) (hnew : newsz < 2 ^ 64) :
    ∃ s' live', uvmGrow arch pid (lo * PGSIZE) newsz perm s = some (0, s') ∧ s'.Safe ∧
      Grown arch nowhere s s' live live' := by
  obtain ⟨made, s₁, live₁, hpage, hmade, hsafe₁, hg₁⟩ := tryPage_mapped perm h hsafe hva hv
  have hv₁ : (s₁.leaf pid lo).valid = true := by
    rw [hg₁.leaf_eq]
    exact hv
  obtain ⟨made', s', live', hpage', hmade', hsafe', hg'⟩ := tryPage_mapped perm hg₁.ok hsafe₁ hva hv₁
  have hfill : fillLoop arch pid newsz perm newsz (undoGrow arch pid (lo * PGSIZE)) (pageCeil newsz) (lo * PGSIZE) s₁ =
      some (0, s') := by
    rw [hone, fillLoop, if_pos hlt, hpage', Option.bind_some]
    simp only [if_neg hmade']
    exact undoGrow_first
  refine ⟨s', live', ?_, hsafe', hg₁.trans hg'⟩
  rw [uvmGrow_eq hlt hnew (by omega), show pageCeil newsz - lo = 1 by omega, tryBlock_one, hpage, Option.map_some,
    Option.bind_some]
  cases made with
  | none => exact hfill
  | some made =>
    cases made with
    | false => exact hfill
    | true => exact absurd rfl hmade

end Vmem

end SC7
