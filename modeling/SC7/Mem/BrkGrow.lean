-- SUMMARY: The parts of `growproc`: which pages `uvmalloc` maps, how it fails, and what `uvmdealloc` unmaps.
import SC7.Mem.Brk
import SC7.Mem.VmemInv

/-!
# Growth and shrinking

`uvmalloc` over a range of pages ends in one of three ways, and which one depends on the pages that are
mapped already and on the answers of the allocator only: the range is filled, the call is refused and what
it had mapped is unmapped again, or it goes wrong, either by a panic or with a page left behind.
-/

namespace SC7

open Function (update update_of_ne)

variable {arch : Arch} {perm lo hi k n : Nat}

/-! ## Entries -/

namespace Leaf

variable {leaf leaf' leaf₁ : Nat → Pte} {pa e : Nat}

/-- The pages `[lo, hi)` are mapped with the flags, and no other entry changes. -/
structure Filled (perm lo hi : Nat) (leaf leaf' : Nat → Pte) : Prop where
  inside : ∀ v, lo ≤ v → v < hi → (leaf' v).flags = perm ||| PTE_V
  outside : ∀ v, ¬(lo ≤ v ∧ v < hi) → leaf' v = leaf v

namespace Filled

theorem refl (hle : hi ≤ lo) : Filled perm lo hi leaf leaf :=
  ⟨fun _ h1 h2 => absurd (h1.trans_lt h2) (Nat.not_lt.mpr hle), fun _ _ => rfl⟩

theorem one : Filled perm k (k + 1) leaf (update leaf k ⟨pa, perm ||| PTE_V⟩) where
  inside v h1 h2 := by
    rw [show v = k by omega, Function.update_self]
  outside v hv := update_of_ne (by omega) _ _

/-- One range behind the other. -/
theorem append (h₁ : Filled perm lo k leaf leaf₁) (h₂ : Filled perm k hi leaf₁ leaf') (hlo : lo ≤ k) (hhi : k ≤ hi) :
    Filled perm lo hi leaf leaf' where
  inside v h1 h2 := by
    by_cases hv : v < k
    · rw [h₂.outside v (by omega)]
      exact h₁.inside v h1 hv
    · exact h₂.inside v (Nat.not_lt.mp hv) h2
  outside v hv := by
    rw [h₂.outside v (by omega), h₁.outside v (by omega)]

end Filled

/-- The next page of a loop that stays below `MAXVA`. -/
theorem next_below (hk : (k + 1) * PGSIZE ≤ MAXVA arch) : add64 (k * PGSIZE) PGSIZE = (k + 1) * PGSIZE := by
  have hmax := maxva_lt arch
  simp only [add64, PGSIZE] at *
  omega

/-- The loop of `mappages` over vacant pages. -/
theorem mappagesLoop_fills (hmax : (e + 1) * PGSIZE ≤ MAXVA arch) (hk : k ≤ e)
    (hvac : ∀ v, k ≤ v → v ≤ e → (leaf v).valid = false) (hn : e - k < n) :
    ∃ leaf', mappagesLoop arch perm (e * PGSIZE) n (k * PGSIZE) pa leaf = some (1, leaf') ∧
      Filled perm k (e + 1) leaf leaf' := by
  induction n generalizing k pa leaf with
  | zero => omega
  | succ n ih =>
    have hlt : k * PGSIZE < MAXVA arch :=
      lt_of_lt_of_le (Nat.mul_lt_mul_of_pos_right (by omega) (by decide)) hmax
    have hnext : (k + 1) * PGSIZE ≤ MAXVA arch := (Nat.mul_le_mul_right _ (by omega)).trans hmax
    rw [mappagesLoop, if_neg (Nat.not_le.mpr hlt), Nat.mul_div_cancel _ (by decide : 0 < PGSIZE),
      if_neg (by rw [hvac k (le_refl k) hk]; simp)]
    simp only
    by_cases hke : k = e
    · subst hke
      rw [if_pos rfl]
      exact ⟨_, rfl, .one⟩
    · have hne : k * PGSIZE ≠ e * PGSIZE := fun h => hke (Nat.eq_of_mul_eq_mul_right (by decide) h)
      rw [if_neg hne, next_below hnext]
      have hvac' : ∀ v, k + 1 ≤ v → v ≤ e → (update leaf k ⟨pa, perm ||| PTE_V⟩ v).valid = false := by
        intro v h1 h2
        rw [update_of_ne (by omega)]
        exact hvac v (by omega) h2
      obtain ⟨leaf', hcall, hfill⟩ : ∃ leaf', mappagesLoop arch perm (e * PGSIZE) n ((k + 1) * PGSIZE)
          (add64 pa PGSIZE) (update leaf k ⟨pa, perm ||| PTE_V⟩) = some (1, leaf') ∧
          Filled perm (k + 1) (e + 1) (update leaf k ⟨pa, perm ||| PTE_V⟩) leaf' :=
        ih (by omega) hvac' (by omega)
      exact ⟨leaf', hcall, Filled.one.append hfill (Nat.le_succ k) (by omega)⟩

/-- The loop over pages of which one is mapped already. -/
theorem mappagesLoop_refuses {j : Nat} (hmax : (e + 1) * PGSIZE ≤ MAXVA arch) (hkj : k ≤ j) (hj : j ≤ e)
    (hv : (leaf j).valid = true) (hn : e - k < n) :
    ∃ leaf', mappagesLoop arch perm (e * PGSIZE) n (k * PGSIZE) pa leaf = some (-EINVAL, leaf') ∧
      ((leaf k).valid = true → leaf' = leaf) := by
  induction n generalizing k pa leaf with
  | zero => omega
  | succ n ih =>
    have hlt : k * PGSIZE < MAXVA arch :=
      lt_of_lt_of_le (Nat.mul_lt_mul_of_pos_right (by omega) (by decide)) hmax
    have hnext : (k + 1) * PGSIZE ≤ MAXVA arch := (Nat.mul_le_mul_right _ (by omega)).trans hmax
    rw [mappagesLoop, if_neg (Nat.not_le.mpr hlt), Nat.mul_div_cancel _ (by decide : 0 < PGSIZE)]
    by_cases hfirst : (leaf k).valid = true
    · rw [if_pos hfirst]
      exact ⟨leaf, rfl, fun _ => rfl⟩
    · have hjk : j ≠ k := by
        rintro rfl
        exact hfirst hv
      have hke : k ≠ e := by omega
      have hne : k * PGSIZE ≠ e * PGSIZE := fun h => hke (Nat.eq_of_mul_eq_mul_right (by decide) h)
      rw [if_neg hfirst]
      simp only
      rw [if_neg hne, next_below hnext]
      have hv' : (update leaf k ⟨pa, perm ||| PTE_V⟩ j).valid = true := by
        rw [update_of_ne hjk]
        exact hv
      have hrest : e - (k + 1) < n := by omega
      have hkj' : k + 1 ≤ j := by omega
      obtain ⟨leaf', hcall, -⟩ : ∃ leaf', mappagesLoop arch perm (e * PGSIZE) n ((k + 1) * PGSIZE)
          (add64 pa PGSIZE) (update leaf k ⟨pa, perm ||| PTE_V⟩) = some (-EINVAL, leaf') ∧
          ((update leaf k ⟨pa, perm ||| PTE_V⟩ (k + 1)).valid = true →
            leaf' = update leaf k ⟨pa, perm ||| PTE_V⟩) := ih hkj' hv' hrest
      exact ⟨leaf', hcall, fun h => absurd h hfirst⟩

/-- The last page that `mappages` goes to. -/
theorem mappages_eq (hlo : lo < hi) (hmax : hi * PGSIZE ≤ MAXVA arch) (hpa : pa % PGSIZE = 0) :
    mappages arch (lo * PGSIZE) pa ((hi - lo) * PGSIZE) perm leaf =
      mappagesLoop arch perm ((hi - 1) * PGSIZE) (hi - lo + 1) (lo * PGSIZE) pa leaf := by
  have hlt : lo * PGSIZE < MAXVA arch := lt_of_lt_of_le (Nat.mul_lt_mul_of_pos_right hlo (by decide)) hmax
  have hcond : ¬(lo * PGSIZE ≥ MAXVA arch ∨ pa % PGSIZE ≠ 0) := by omega
  have hlast : pgRoundDown (sub64 (add64 (lo * PGSIZE) ((hi - lo) * PGSIZE)) 1) = (hi - 1) * PGSIZE := by
    have hmax' := maxva_lt arch
    simp only [pgRoundDown, sub64, add64, PGSIZE] at *
    omega
  have hfirst : pgRoundDown (lo * PGSIZE) = lo * PGSIZE := by
    rw [pgRoundDown, Nat.mul_div_cancel _ (by decide)]
  rw [mappages, if_neg hcond, hlast, hfirst, Nat.mul_div_cancel _ (by decide)]

end Leaf

namespace Space

variable {s s' s₀ : Space} {mem i newsz va a end_ start oldsz r e : Nat} {doFree : Bool}

/-! ## Mapping a range -/

/-- A vacant range is mapped. -/
theorem mappages_fills (hlo : lo < hi) (hmax : hi * PGSIZE ≤ MAXVA arch) (hmem : mem % PGSIZE = 0)
    (hvac : s.Vacant lo hi) :
    ∃ leaf', s.mappages arch (lo * PGSIZE) mem ((hi - lo) * PGSIZE) perm = some (1, { s with leaf := leaf' }) ∧
      Leaf.Filled perm lo hi s.leaf leaf' := by
  obtain ⟨e, rfl⟩ : ∃ e, hi = e + 1 := ⟨hi - 1, by omega⟩
  obtain ⟨leaf', hcall, hfill⟩ : ∃ leaf', Leaf.mappagesLoop arch perm (e * PGSIZE) (e + 1 - lo + 1) (lo * PGSIZE) mem
      s.leaf = some (1, leaf') ∧ Leaf.Filled perm lo (e + 1) s.leaf leaf' :=
    Leaf.mappagesLoop_fills hmax (by omega) (fun v h1 h2 => hvac v h1 (by omega)) (by omega)
  refine ⟨leaf', ?_, hfill⟩
  rw [mappages, Leaf.mappages_eq hlo hmax hmem, Nat.add_sub_cancel, hcall]
  rfl

/-- A range in which a page is mapped already is refused. -/
theorem mappages_refuses (hlo : lo < hi) (hmax : hi * PGSIZE ≤ MAXVA arch) (hmem : mem % PGSIZE = 0)
    (hnot : ¬s.Vacant lo hi) :
    ∃ leaf', s.mappages arch (lo * PGSIZE) mem ((hi - lo) * PGSIZE) perm =
        some (-EINVAL, { s with leaf := leaf' }) ∧ ((s.leaf lo).valid = true → leaf' = s.leaf) := by
  obtain ⟨e, rfl⟩ : ∃ e, hi = e + 1 := ⟨hi - 1, by omega⟩
  obtain ⟨j, h1, h2, hv⟩ : ∃ j, lo ≤ j ∧ j < e + 1 ∧ (s.leaf j).valid = true := by
    simpa [Vacant] using hnot
  obtain ⟨leaf', hcall, hsame⟩ : ∃ leaf', Leaf.mappagesLoop arch perm (e * PGSIZE) (e + 1 - lo + 1)
      (lo * PGSIZE) mem s.leaf = some (-EINVAL, leaf') ∧ ((s.leaf lo).valid = true → leaf' = s.leaf) :=
    Leaf.mappagesLoop_refuses hmax h1 (by omega) hv (by omega)
  refine ⟨leaf', ?_, hsame⟩
  rw [mappages, Leaf.mappages_eq hlo hmax hmem, Nat.add_sub_cancel, hcall]
  rfl

theorem vacant_one (hvac : (s.leaf k).valid = false) : s.Vacant k (k + 1) := by
  intro v h1 h2
  rw [show v = k by omega]
  exact hvac

theorem one_page : (k + 1 - k) * PGSIZE = PGSIZE := by
  rw [Nat.add_sub_cancel_left, Nat.one_mul]

/-- One page that is not mapped. -/
theorem mappages_one (hmax : (k + 1) * PGSIZE ≤ MAXVA arch) (hmem : mem % PGSIZE = 0)
    (hvac : (s.leaf k).valid = false) :
    ∃ leaf', s.mappages arch (k * PGSIZE) mem PGSIZE perm = some (1, { s with leaf := leaf' }) ∧
      Leaf.Filled perm k (k + 1) s.leaf leaf' := by
  have h : ∃ leaf', s.mappages arch (k * PGSIZE) mem ((k + 1 - k) * PGSIZE) perm =
      some (1, { s with leaf := leaf' }) ∧ Leaf.Filled perm k (k + 1) s.leaf leaf' :=
    mappages_fills (Nat.lt_succ_self k) hmax hmem (vacant_one hvac)
  rwa [one_page] at h

/-- One page that is mapped. -/
theorem mappages_one_refuses (hmax : (k + 1) * PGSIZE ≤ MAXVA arch) (hmem : mem % PGSIZE = 0)
    (hv : (s.leaf k).valid = true) : s.mappages arch (k * PGSIZE) mem PGSIZE perm = some (-EINVAL, s) := by
  have hnot : ¬s.Vacant k (k + 1) := fun h => by
    rw [h k (le_refl k) (Nat.lt_succ_self k)] at hv
    cases hv
  obtain ⟨leaf', hcall, hsame⟩ : ∃ leaf', s.mappages arch (k * PGSIZE) mem ((k + 1 - k) * PGSIZE) perm =
      some (-EINVAL, { s with leaf := leaf' }) ∧ ((s.leaf k).valid = true → leaf' = s.leaf) :=
    mappages_refuses (Nat.lt_succ_self k) hmax hmem hnot
  rw [one_page, hsame hv] at hcall
  exact hcall

/-! ## What does not depend on the page table -/

/-- What of an address space does not depend on its page table. -/
structure SameBounds (s s' : Space) : Prop where
  vmas : s'.vmas = s.vmas
  sz : s'.sz = s.sz

namespace SameBounds

theorem refl : SameBounds s s := ⟨rfl, rfl⟩

theorem trans (h₁ : SameBounds s s₀) (h₂ : SameBounds s₀ s') : SameBounds s s' :=
  ⟨h₂.vmas.trans h₁.vmas, h₂.sz.trans h₁.sz⟩

end SameBounds

theorem mappages_bounds {len : Nat} {r : Int} (h : s.mappages arch va mem len perm = some (r, s')) :
    SameBounds s s' := by
  obtain ⟨⟨r', leaf'⟩, -, heq⟩ := Option.map_eq_some_iff.mp h
  cases heq
  exact ⟨rfl, rfl⟩

theorem unmapPage_bounds (h : unmapPage arch doFree a s = some s') : SameBounds s s' := by
  unfold unmapPage at h
  dsimp only at h
  split at h
  · cases h
  split at h
  · cases h
    exact .refl
  split at h
  · cases h
  cases h
  constructor
  · rw [setLeaf]
    split <;> rfl
  · rw [setLeaf]
    split <;> rfl

theorem vmunmapLoop_bounds (h : vmunmapLoop arch doFree end_ n a s = some s') : SameBounds s s' := by
  induction n generalizing a s with
  | zero =>
    unfold vmunmapLoop at h
    split at h
    · cases h
    · cases h
      exact .refl
  | succ n ih =>
    unfold vmunmapLoop at h
    split at h
    · obtain ⟨s₁, hpage, hrest⟩ := Option.bind_eq_some_iff.mp h
      exact (unmapPage_bounds hpage).trans (ih hrest)
    · cases h
      exact .refl

theorem vmunmap_bounds (h : vmunmap arch va n doFree s = some s') : SameBounds s s' := by
  unfold vmunmap at h
  split at h
  · cases h
  · exact vmunmapLoop_bounds h

/-! ## Giving memory back -/

/-- No area meets the range. -/
def Clear (s : Space) (start end_ : Nat) : Prop := ∀ v ∈ s.vmas, ¬(v.end_ > start ∧ v.addr < end_)

/-- No area meets the range: `free_vma` changes nothing. -/
theorem freeVma_clear (hclear : s.Clear start end_) : freeVma start end_ s = some s := by
  have hloop : ∀ L : List Vma, (∀ v ∈ L, ¬(v.end_ > start ∧ v.addr < end_)) →
      freeVmaLoop start end_ L s = some (L, s) := by
    intro L
    induction L with
    | nil => exact fun _ => rfl
    | cons v vs ih =>
      intro hnone
      rw [freeVmaLoop, if_neg (hnone v (List.mem_cons_self ..)),
        ih fun w hw => hnone w (List.mem_cons_of_mem _ hw)]
      rfl
  rw [freeVma, hloop s.vmas hclear]
  rfl

/-- A range that no area meets: `uvmdealloc` unmaps its pages. -/
theorem uvmdealloc_clear (hclear : s.Clear newsz oldsz) (hlt : newsz < oldsz)
    (hround : pgRoundUp newsz < pgRoundUp oldsz) :
    uvmdealloc arch oldsz newsz s = (vmunmap arch (pgRoundUp newsz)
      (toU64 (toInt32 ((pgRoundUp oldsz - pgRoundUp newsz) / PGSIZE))) true s).map fun s => (newsz, s) := by
  rw [uvmdealloc, if_neg (Nat.not_le.mpr hlt), if_pos hround, freeVma_clear hclear]
  rfl

theorem uvmdealloc_bounds (hclear : s.Clear newsz oldsz)
    (h : uvmdealloc arch oldsz newsz s = some (r, s')) : SameBounds s s' := by
  by_cases hlt : newsz < oldsz
  · by_cases hround : pgRoundUp newsz < pgRoundUp oldsz
    · rw [uvmdealloc_clear hclear hlt hround] at h
      obtain ⟨s₁, hunmap, heq⟩ := Option.map_eq_some_iff.mp h
      cases heq
      exact vmunmap_bounds hunmap
    · rw [uvmdealloc, if_neg (Nat.not_le.mpr hlt), if_neg hround] at h
      cases h
      exact .refl
  · rw [uvmdealloc, if_pos (Nat.not_lt.mp hlt)] at h
    cases h
    exact .refl

theorem uvmdealloc_self : uvmdealloc arch a a s = some (a, s) := by
  rw [uvmdealloc, if_pos (le_refl a)]

/-! ## `uvmalloc`, page by page -/

/-- The state after a successful growth: the table, and the answers of the allocator that are left. -/
def grown (s : Space) (leaf : Nat → Pte) (k : Nat) : Space :=
  { s with leaf, supply := fun j => s.supply (j + k) }

theorem grown_grown {leaf leaf' : Nat → Pte} {i j : Nat} :
    (s.grown leaf i).grown leaf' j = s.grown leaf' (j + i) := by
  simp only [grown, Nat.add_assoc]

theorem le_pageCeil : a ≤ Vmem.pageCeil a * PGSIZE := by
  simp only [Vmem.pageCeil, PGSIZE]
  omega

theorem pageCeil_lt : a * PGSIZE < e ↔ a < Vmem.pageCeil e := by
  unfold Vmem.pageCeil
  rw [Nat.lt_iff_add_one_le, Nat.lt_iff_add_one_le, Nat.le_div_iff_mul_le (by decide), Nat.add_mul]
  simp only [PGSIZE]
  omega

theorem uvmallocLoop_fills (hmax : Vmem.pageCeil e * PGSIZE ≤ MAXVA arch)
    (hsupply : ∀ j, s.supply j % PGSIZE = 0) (hvac : s.Vacant k (Vmem.pageCeil e))
    (hmem : ∀ j < Vmem.pageCeil e - k, s.supply j ≠ NULL) (hn : Vmem.pageCeil e - k ≤ n) :
    ∃ leaf', uvmallocLoop arch oldsz e perm n (k * PGSIZE) s = some (e, s.grown leaf' (Vmem.pageCeil e - k)) ∧
      Leaf.Filled (Vmem.userPerm arch perm) k (Vmem.pageCeil e) s.leaf leaf' := by
  induction n generalizing k s with
  | zero =>
    have hge : ¬k * PGSIZE < e := by
      rw [pageCeil_lt]
      omega
    rw [uvmallocLoop, if_neg hge, Nat.eq_zero_of_le_zero hn]
    exact ⟨s.leaf, rfl, .refl (by omega)⟩
  | succ n ih =>
    by_cases hlt : k < Vmem.pageCeil e
    · have hnext : (k + 1) * PGSIZE ≤ MAXVA arch := (Nat.mul_le_mul_right _ hlt).trans hmax
      obtain ⟨leaf₁, hmap, hfill⟩ : ∃ leaf₁, s.alloc.2.mappages arch (k * PGSIZE) (s.supply 0) PGSIZE
          (Vmem.userPerm arch perm) = some (1, s.grown leaf₁ 1) ∧
          Leaf.Filled (Vmem.userPerm arch perm) k (k + 1) s.leaf leaf₁ :=
        mappages_one hnext (hsupply 0) (hvac k (le_refl k) hlt)
      have hvac₁ : (s.grown leaf₁ 1).Vacant (k + 1) (Vmem.pageCeil e) := by
        intro v h1 h2
        have hkept : (s.grown leaf₁ 1).leaf v = s.leaf v := hfill.outside v (by omega)
        rw [hkept]
        exact hvac v (Nat.le_of_succ_le h1) h2
      have hmem₁ : ∀ j < Vmem.pageCeil e - (k + 1), (s.grown leaf₁ 1).supply j ≠ NULL :=
        fun j hj => hmem (j + 1) (by omega)
      obtain ⟨leaf', hloop, hrest⟩ := ih (fun j => hsupply (j + 1)) hvac₁ hmem₁ (by omega)
      refine ⟨leaf', ?_, hfill.append hrest (Nat.le_succ k) hlt⟩
      have hone : s.alloc.1 ≠ NULL := hmem 0 (by omega)
      rw [uvmallocLoop, if_pos (pageCeil_lt.mpr hlt)]
      simp only
      rw [if_neg hone, show s.alloc.1 = s.supply 0 from rfl, hmap, Option.bind_some, if_pos rfl,
        Leaf.next_below hnext, hloop, grown_grown, show Vmem.pageCeil e - (k + 1) + 1 = Vmem.pageCeil e - k by omega]
    · have hge : ¬k * PGSIZE < e := fun h => hlt (pageCeil_lt.mp h)
      rw [uvmallocLoop, if_neg hge, Nat.sub_eq_zero_of_le (Nat.not_lt.mp hlt)]
      exact ⟨s.leaf, rfl, .refl (Nat.not_lt.mp hlt)⟩

theorem Clear.mono {end' : Nat} (h : s.Clear start end_) (hle : end' ≤ end_) : s.Clear start end' :=
  fun v hv hmeet => h v hv ⟨hmeet.1, hmeet.2.trans_le hle⟩

theorem supplied_of_ge (hge : ¬k < hi) : s.Vacant k hi ∧ ∀ j < hi - k, s.supply j ≠ NULL :=
  ⟨fun _ h1 h2 => absurd (h1.trans_lt h2) hge, fun _ hj => absurd (Nat.lt_of_sub_pos (Nat.zero_lt_of_lt hj)) hge⟩

/-- The clean-up of the loop. -/
theorem giveBack_bounds (hclear : s.Clear oldsz a)
    (h : ((uvmdealloc arch a oldsz s).map fun (_, s) => (0, s)) = some (r, s')) : r = 0 ∧ SameBounds s s' := by
  obtain ⟨⟨_, t⟩, hdealloc, heq⟩ := Option.map_eq_some_iff.mp h
  cases heq
  exact ⟨rfl, uvmdealloc_bounds hclear hdealloc⟩

/-- However the loop ends, only the table has changed, and it returns 0 unless every page could be had and
was free. -/
theorem uvmallocLoop_cases (hmax : Vmem.pageCeil e * PGSIZE ≤ MAXVA arch)
    (hsupply : ∀ j, s.supply j % PGSIZE = 0) (hclear : s.Clear oldsz e)
    (h : uvmallocLoop arch oldsz e perm n (k * PGSIZE) s = some (r, s')) :
    SameBounds s s' ∧
      (r = 0 ∨ s.Vacant k (Vmem.pageCeil e) ∧ ∀ j < Vmem.pageCeil e - k, s.supply j ≠ NULL) := by
  induction n generalizing k s with
  | zero =>
    rw [uvmallocLoop] at h
    split at h
    · cases h
    · rename_i hge
      cases h
      exact ⟨.refl, .inr (supplied_of_ge fun hlt => hge (pageCeil_lt.mpr hlt))⟩
  | succ n ih =>
    rw [uvmallocLoop] at h
    split at h
    · rename_i hlt
      have hclear' : ∀ t : Space, t.vmas = s.vmas → t.Clear oldsz (k * PGSIZE) := fun t heq v hv =>
        (hclear.mono hlt.le) v (heq ▸ hv)
      simp only at h
      split at h
      · -- no memory: the pages so far are given back
        have hend : r = 0 ∧ SameBounds s.alloc.2 s' := giveBack_bounds (hclear' _ rfl) h
        exact ⟨⟨hend.2.vmas, hend.2.sz⟩, .inl hend.1⟩
      · rename_i hmem
        have hlt' : k < Vmem.pageCeil e := pageCeil_lt.mp hlt
        have hnext : (k + 1) * PGSIZE ≤ MAXVA arch := (Nat.mul_le_mul_right _ hlt').trans hmax
        obtain ⟨⟨q, t⟩, hmap, hrest⟩ := Option.bind_eq_some_iff.mp h
        by_cases hv : (s.leaf k).valid = true
        · -- a page that is mapped already
          have hfail : s.alloc.2.mappages arch (k * PGSIZE) (s.supply 0) PGSIZE (Vmem.userPerm arch perm) =
              some (-EINVAL, s.alloc.2) := mappages_one_refuses hnext (hsupply 0) hv
          rw [show s.alloc.1 = s.supply 0 from rfl, hfail] at hmap
          cases hmap
          simp only at hrest
          rw [if_neg (by decide)] at hrest
          split at hrest
          · cases hrest
          · have hend : r = 0 ∧ SameBounds (s.alloc.2.free s.alloc.1) s' := giveBack_bounds (hclear' _ rfl) hrest
            exact ⟨⟨hend.2.vmas, hend.2.sz⟩, .inl hend.1⟩
        · have hfree : (s.leaf k).valid = false := Bool.eq_false_of_not_eq_true hv
          obtain ⟨leaf₁, hok, hfill⟩ : ∃ leaf₁, s.alloc.2.mappages arch (k * PGSIZE) (s.supply 0) PGSIZE
              (Vmem.userPerm arch perm) = some (1, s.grown leaf₁ 1) ∧
              Leaf.Filled (Vmem.userPerm arch perm) k (k + 1) s.leaf leaf₁ :=
            mappages_one hnext (hsupply 0) hfree
          rw [show s.alloc.1 = s.supply 0 from rfl, hok] at hmap
          cases hmap
          simp only at hrest
          rw [if_pos trivial, Leaf.next_below hnext] at hrest
          have hsupply₁ : ∀ j, (s.grown leaf₁ 1).supply j % PGSIZE = 0 := fun j => hsupply (j + 1)
          have hclear₁ : (s.grown leaf₁ 1).Clear oldsz e := hclear
          obtain ⟨hb, hres⟩ := ih hsupply₁ hclear₁ hrest
          refine ⟨⟨hb.vmas, hb.sz⟩, hres.imp_right fun ⟨hvac, hmems⟩ => ⟨fun v h1 h2 => ?_, fun j hj => ?_⟩⟩
          · by_cases hvk : v = k
            · rw [hvk]
              exact hfree
            · have hkept : (s.grown leaf₁ 1).leaf v = s.leaf v := hfill.outside v (by omega)
              rw [← hkept]
              exact hvac v (by omega) h2
          · cases j with
            | zero => exact hmem
            | succ j => exact hmems j (by omega)
    · rename_i hge
      cases h
      exact ⟨.refl, .inr (supplied_of_ge fun hlt => hge (pageCeil_lt.mpr hlt))⟩

/-! ## `uvmalloc` -/

theorem pgRoundUp_ceil (ha : a < 2 ^ 63) : pgRoundUp a = Vmem.pageCeil a * PGSIZE := by
  simp only [pgRoundUp, alignUp, add64, Vmem.pageCeil, PGSIZE]
  omega

theorem uvmallocLoop_done (hge : ¬a < e) : uvmallocLoop arch oldsz e perm n a s = some (e, s) := by
  cases n <;> rw [uvmallocLoop, if_neg hge]

/-- The range of pages of a growth, and what `uvmalloc` does with it. -/
theorem uvmalloc_eq {old : Nat} (hle : old ≤ e) (hmax : Vmem.pageCeil e * PGSIZE ≤ MAXVA arch) :
    uvmalloc arch old e perm s =
      if Vmem.pageCeil old < Vmem.pageCeil e then
        if s.supply 0 ≠ NULL then
          (s.alloc.2.mappages arch (Vmem.pageCeil old * PGSIZE) (s.supply 0)
            ((Vmem.pageCeil e - Vmem.pageCeil old) * PGSIZE) (Vmem.userPerm arch perm)).map fun (r, t) =>
              if r = 1 then (e, t) else (toU64 (-EINVAL), t.free (s.supply 0))
        else uvmallocLoop arch (Vmem.pageCeil old * PGSIZE) e perm (Vmem.pageCeil e)
          (Vmem.pageCeil old * PGSIZE) s.alloc.2
      else some (e, s) := by
  have hmax' := hmax.trans_lt (Leaf.maxva_lt arch)
  have he : e < 2 ^ 63 := le_pageCeil.trans_lt hmax'
  have hpages : sub64 (Vmem.pageCeil e * PGSIZE) (Vmem.pageCeil old * PGSIZE) / PGSIZE =
      Vmem.pageCeil e - Vmem.pageCeil old := by
    have hmono : Vmem.pageCeil old ≤ Vmem.pageCeil e := by
      simp only [Vmem.pageCeil, PGSIZE]
      omega
    simp only [sub64, PGSIZE] at *
    omega
  rw [uvmalloc, if_neg (Nat.not_lt.mpr hle)]
  simp only
  rw [pgRoundUp_ceil (hle.trans_lt he), pgRoundUp_ceil he, hpages]
  by_cases hlt : Vmem.pageCeil old < Vmem.pageCeil e
  · have hpos : Vmem.pageCeil e - Vmem.pageCeil old > 0 := Nat.sub_pos_of_lt hlt
    rw [if_pos hpos, if_pos hlt]
    rfl
  · have hnpos : ¬Vmem.pageCeil e - Vmem.pageCeil old > 0 := by omega
    have hdone : ¬Vmem.pageCeil old * PGSIZE < e := fun h => hlt (pageCeil_lt.mp h)
    rw [if_neg hnpos, if_neg hlt, uvmallocLoop_done hdone]

section Uvmalloc

variable {old e r : Nat} (hle : old ≤ e) (hmax : Vmem.pageCeil e * PGSIZE ≤ MAXVA arch)
  (hsupply : ∀ j, s.supply j % PGSIZE = 0)

include hle hmax hsupply

/-- A range that can be filled is filled. -/
theorem uvmalloc_fills (hfills : s.Fillable (Vmem.pageCeil old) (Vmem.pageCeil e)) :
    ∃ leaf', uvmalloc arch old e perm s =
        some (e, s.grown leaf' (s.answers (Vmem.pageCeil old) (Vmem.pageCeil e))) ∧
      Leaf.Filled (Vmem.userPerm arch perm) (Vmem.pageCeil old) (Vmem.pageCeil e) s.leaf leaf' := by
  rw [uvmalloc_eq hle hmax, answers]
  by_cases hlt : Vmem.pageCeil old < Vmem.pageCeil e
  · rw [if_pos hlt, if_neg (Nat.not_le.mpr hlt)]
    by_cases hblock : s.supply 0 ≠ NULL
    · rw [if_pos hblock, if_pos hblock]
      obtain ⟨leaf', hmap, hfill⟩ : ∃ leaf', s.alloc.2.mappages arch (Vmem.pageCeil old * PGSIZE) (s.supply 0)
          ((Vmem.pageCeil e - Vmem.pageCeil old) * PGSIZE) (Vmem.userPerm arch perm) = some (1, s.grown leaf' 1) ∧
          Leaf.Filled (Vmem.userPerm arch perm) (Vmem.pageCeil old) (Vmem.pageCeil e) s.leaf leaf' :=
        mappages_fills hlt hmax (hsupply 0) hfills.vacant
      rw [hmap]
      exact ⟨leaf', rfl, hfill⟩
    · rw [if_neg hblock, if_neg hblock]
      have hmem : ∀ j < Vmem.pageCeil e - Vmem.pageCeil old, s.alloc.2.supply j ≠ NULL :=
        (hfills.supplied.resolve_left (Nat.not_le.mpr hlt)).resolve_left hblock
      have hvac : s.alloc.2.Vacant (Vmem.pageCeil old) (Vmem.pageCeil e) := hfills.vacant
      exact uvmallocLoop_fills hmax (fun j => hsupply (j + 1)) hvac hmem (Nat.sub_le ..)
  · rw [if_neg hlt, if_pos (Nat.not_lt.mp hlt)]
    exact ⟨s.leaf, rfl, .refl (Nat.not_lt.mp hlt)⟩

/-- A growth that is refused changes nothing. -/
theorem uvmalloc_refuses (hrefuses : s.Refuses (Vmem.pageCeil old) (Vmem.pageCeil e)) :
    ∃ s', uvmalloc arch old e perm s = some (0, s') ∧ s'.leaf = s.leaf ∧ SameBounds s s' := by
  obtain ⟨hlt, hblock, hfirst⟩ := hrefuses
  obtain ⟨m, hm⟩ : ∃ m, Vmem.pageCeil e = m + 1 := ⟨Vmem.pageCeil e - 1, by omega⟩
  have hnext : (Vmem.pageCeil old + 1) * PGSIZE ≤ MAXVA arch := (Nat.mul_le_mul_right _ hlt).trans hmax
  rw [uvmalloc_eq hle hmax, if_pos hlt, if_neg (not_not.mpr hblock), hm, uvmallocLoop, if_pos (pageCeil_lt.mpr hlt)]
  simp only
  by_cases hpage : s.supply 1 = NULL
  · rw [if_pos (show s.alloc.2.alloc.1 = NULL from hpage), uvmdealloc_self]
    exact ⟨_, rfl, rfl, rfl, rfl⟩
  · have hv : (s.leaf (Vmem.pageCeil old)).valid = true := hfirst.resolve_right hpage
    have hfail : s.alloc.2.alloc.2.mappages arch (Vmem.pageCeil old * PGSIZE) (s.supply 1) PGSIZE
        (Vmem.userPerm arch perm) = some (-EINVAL, s.alloc.2.alloc.2) :=
      mappages_one_refuses hnext (hsupply 1) hv
    rw [if_neg (show s.alloc.2.alloc.1 ≠ NULL from hpage), show s.alloc.2.alloc.1 = s.supply 1 from rfl, hfail,
      Option.bind_some]
    simp only
    rw [if_neg (by decide), if_neg (fun h => lt_irrefl _ h.1), uvmdealloc_self]
    exact ⟨_, rfl, rfl, rfl, rfl⟩

/-- A growth that returns keeps the areas and the size, and unless it fails the range could be filled. -/
theorem uvmalloc_cases (hclear : s.Clear old e) (h : uvmalloc arch old e perm s = some (r, s')) :
    SameBounds s s' ∧ (r = 0 ∨ r = toU64 (-EINVAL) ∨ s.Fillable (Vmem.pageCeil old) (Vmem.pageCeil e)) := by
  rw [uvmalloc_eq hle hmax] at h
  split at h
  · rename_i hlt
    split at h
    · rename_i hblock
      obtain ⟨⟨q, t⟩, hmap, heq⟩ := Option.map_eq_some_iff.mp h
      have hb : SameBounds s.alloc.2 t := mappages_bounds hmap
      by_cases hvac : s.Vacant (Vmem.pageCeil old) (Vmem.pageCeil e)
      · simp only at heq
        split at heq
        · cases heq
          exact ⟨⟨hb.vmas, hb.sz⟩, .inr (.inr ⟨hvac, .inr (.inl hblock)⟩)⟩
        · cases heq
          exact ⟨⟨hb.vmas, hb.sz⟩, .inr (.inl rfl)⟩
      · obtain ⟨leaf', hfail, -⟩ : ∃ leaf', s.alloc.2.mappages arch (Vmem.pageCeil old * PGSIZE) (s.supply 0)
            ((Vmem.pageCeil e - Vmem.pageCeil old) * PGSIZE) (Vmem.userPerm arch perm) =
              some (-EINVAL, s.grown leaf' 1) ∧ ((s.leaf (Vmem.pageCeil old)).valid = true → leaf' = s.leaf) :=
          mappages_refuses hlt hmax (hsupply 0) hvac
        rw [hfail] at hmap
        cases hmap
        simp only at heq
        rw [if_neg (by decide)] at heq
        cases heq
        exact ⟨⟨rfl, rfl⟩, .inr (.inl rfl)⟩
    · rename_i hblock
      have hsupply₁ : ∀ j, s.alloc.2.supply j % PGSIZE = 0 := fun j => hsupply (j + 1)
      have hclear₁ : s.alloc.2.Clear (Vmem.pageCeil old * PGSIZE) e := fun v hv hmeet =>
        hclear v hv ⟨(le_pageCeil).trans_lt hmeet.1, hmeet.2⟩
      obtain ⟨hb, hres⟩ := uvmallocLoop_cases hmax hsupply₁ hclear₁ h
      exact ⟨⟨hb.vmas, hb.sz⟩, hres.imp_right fun hfills => .inr ⟨hfills.1, .inr (.inr hfills.2)⟩⟩
  · rename_i hge
    cases h
    exact ⟨.refl, .inr (.inr ⟨(supplied_of_ge hge).1, .inl (Nat.not_lt.mp hge)⟩)⟩

end Uvmalloc

end Space

end SC7
