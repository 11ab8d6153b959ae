-- SUMMARY: `munmap` and page faults at shared mappings.
import SC7.Mem.Shm

/-!
# `munmap` and faults at shared mappings

`munmap` may cut pages off the back of a shared mapping. If it leaves a piece that starts elsewhere,
the pages of that piece are counted from the wrong address from then on; `CutsBack` rules that out.
A fault takes the page from the segment, and enters a new one where there is none.
-/

namespace SC7

open Function (update)

theorem Pte.valid_or (pa perm : Nat) : (⟨pa, perm ||| PTE_V⟩ : Pte).valid = true := by
  have hv : Bits.has (perm ||| PTE_V) PTE_V = true := by
    rw [Bits.has_or, Bool.or_eq_true]
    exact .inr (by decide)
  exact hv

/-- What `mappages` does to a single page. -/
theorem Leaf.mappages_one {arch : Arch} {va pa perm : Nat} {r : Int} {leaf leaf' : Nat → Pte}
    (hal : va % PGSIZE = 0) (h : Leaf.mappages arch va pa PGSIZE perm leaf = some (r, leaf')) :
    (r = -EINVAL ∧ (leaf (va / PGSIZE)).valid = true ∧ leaf' = leaf) ∨
      (r = 1 ∧ (leaf (va / PGSIZE)).valid = false ∧
        leaf' = update leaf (va / PGSIZE) ⟨pa, perm ||| PTE_V⟩) := by
  have hround : pgRoundDown va = va := Nat.div_mul_cancel (Nat.dvd_of_mod_eq_zero hal)
  rw [mappages] at h
  split at h
  · cases h
  rename_i hmax
  have hlast : pgRoundDown (sub64 (add64 va PGSIZE) 1) = va := by
    have hva := maxva_lt arch
    rw [not_or, not_le] at hmax
    have hlt := hmax.1
    simp only [pgRoundDown, sub64, add64, PGSIZE] at hal hlt ⊢
    omega
  have hone : PGSIZE / PGSIZE + 1 = 2 := by decide
  rw [hround, hlast, hone, mappagesLoop] at h
  split at h
  · cases h
  split at h
  · rename_i hv
    cases h
    exact .inl ⟨rfl, hv, rfl⟩
  · rename_i hv
    dsimp only at h
    rw [if_pos rfl] at h
    cases h
    exact .inr ⟨rfl, Bool.eq_false_iff.mpr hv, rfl⟩

namespace Space

variable {arch : Arch} {s s' t : Space} {origin : Nat → Nat} {v w : Vma} {start end_ addr va : Nat} {r : Int}
  {doFree : Bool} {l L : List Vma} {sig : Option Sig} {env : FileEnv} {access : Access}

/-! ## What leaves the segments and the break alone -/

/-- Neither a segment nor the break changes, and pages are taken from the supply in their order. -/
structure SameShm (s s' : Space) : Prop where
  shm : s'.shm = s.shm
  sz : s'.sz = s.sz
  supply : ∃ k, ∀ n, s'.supply n = s.supply (n + k)

namespace SameShm

theorem of_eq (hshm : s'.shm = s.shm) (hsz : s'.sz = s.sz) (hsupply : s'.supply = s.supply) :
    SameShm s s' :=
  ⟨hshm, hsz, 0, fun n => by rw [hsupply, Nat.add_zero]⟩

theorem refl : SameShm s s := of_eq rfl rfl rfl

theorem alloc : SameShm s s.alloc.2 := ⟨rfl, rfl, 1, fun _ => rfl⟩

theorem trans (h₁ : SameShm s s') (h₂ : SameShm s' t) : SameShm s t := by
  obtain ⟨hshm, hsz, k, hk⟩ := h₁
  obtain ⟨hshm', hsz', k', hk'⟩ := h₂
  refine ⟨hshm'.trans hshm, hsz'.trans hsz, k' + k, fun n => ?_⟩
  rw [hk', hk, Nat.add_assoc]

theorem setVmas {vmas : List Vma} (h : SameShm s s') : SameShm s (s'.setVmas vmas) := ⟨h.shm, h.sz, h.supply⟩

theorem kept (h : SameShm s s') : ShmKept s.shm s'.shm := .of_eq h.shm

end SameShm

theorem allocNode_sameShm (h : s.allocNode = some s') : SameShm s s' := by
  rw [allocNode] at h
  split at h
  · cases h
  · cases h
    exact .alloc

theorem mappages_sameShm {pa len perm : Nat} (h : s.mappages arch va pa len perm = some (r, s')) : SameShm s s' := by
  obtain ⟨⟨r', leaf⟩, -, heq⟩ := Option.map_eq_some_iff.mp h
  cases heq
  exact .of_eq rfl rfl rfl

theorem unmapPage_sameShm {a : Nat} (h : unmapPage arch doFree a s = some s') : SameShm s s' := by
  rw [unmapPage] at h
  dsimp only at h
  split at h
  · cases h
  split at h
  · cases h
    exact .refl
  split at h
  · cases h
  · cases h
    apply SameShm.of_eq <;> dsimp only [setLeaf] <;> split <;> rfl

theorem vmunmap_sameShm {n : Nat} (h : vmunmap arch va n doFree s = some s') : SameShm s s' := by
  rw [vmunmap] at h
  split at h
  · cases h
  generalize add64 va (n * PGSIZE % 2 ^ 64) = e at h
  induction n generalizing va s with
  | zero =>
    rw [vmunmapLoop] at h
    split at h
    · cases h
    · cases h
      exact .refl
  | succ n ih =>
    rw [vmunmapLoop] at h
    split at h
    · obtain ⟨t, hpage, hrest⟩ := Option.bind_eq_some_iff.mp h
      have hal : ¬add64 va PGSIZE % PGSIZE ≠ 0 := by
        simp only [add64, PGSIZE] at *
        omega
      exact (unmapPage_sameShm hpage).trans (ih hal hrest)
    · cases h
      exact .refl

theorem munmapVma_sameShm (h : munmapVma arch start end_ v s = some (l, s')) : SameShm s s' := by
  rw [munmapVma] at h
  split at h
  · split at h
    · split at h
      · cases h
        exact .refl
      · obtain ⟨t, hun, heq⟩ := Option.map_eq_some_iff.mp h
        cases heq
        exact vmunmap_sameShm hun
    · obtain ⟨s₁, h₁, h⟩ := Option.bind_eq_some_iff.mp h
      obtain ⟨s₂, h₂, h⟩ := Option.bind_eq_some_iff.mp h
      obtain ⟨s₃, h₃, heq⟩ := Option.map_eq_some_iff.mp h
      cases heq
      have hnode : ∀ {c : Prop} [Decidable c] {x y : Space},
          (if c then x.allocNode else some x) = some y → SameShm x y := by
        intro c _ x y hxy
        split at hxy
        · exact allocNode_sameShm hxy
        · cases hxy
          exact .refl
      refine ((hnode h₁).trans (hnode h₂)).trans ?_
      generalize (if v.addr > start then v.addr else start) = lo at h₃
      generalize (if v.end_ < end_ then v.end_ else end_) = hi at h₃
      split at h₃
      · exact vmunmap_sameShm h₃
      · cases h₃
        exact .refl
  · cases h
    exact .refl

theorem munmapLoop_sameShm {found : Bool}
    (h : munmapLoop arch start end_ L s = some (found, l, s')) : SameShm s s' := by
  induction L generalizing s found l with
  | nil =>
    cases h
    exact .refl
  | cons v vs ih =>
    rw [munmapLoop] at h
    obtain ⟨⟨l₁, t⟩, hv, h⟩ := Option.bind_eq_some_iff.mp h
    obtain ⟨⟨found', l₂, t'⟩, hvs, heq⟩ := Option.map_eq_some_iff.mp h
    cases heq
    exact (munmapVma_sameShm hv).trans (ih hvs)

/-! ## `munmap` -/

/-- `munmap` leaves no piece of the area that starts behind the start of the area. -/
def CutsBack (start end_ : Nat) (v : Vma) : Prop := ¬(start < v.end_ ∧ v.addr < end_ ∧ end_ < v.end_)

instance (start end_ : Nat) (v : Vma) : Decidable (CutsBack start end_ v) :=
  inferInstanceAs (Decidable (¬_))

/-- The pieces of an area are of its kind, and lie on page boundaries like it. -/
theorem unmap_kind (hal : v.addr % PGSIZE = 0 ∧ v.end_ % PGSIZE = 0) (hstart : start % PGSIZE = 0)
    (hend : end_ % PGSIZE = 0) (hw : w ∈ v.unmap start end_) :
    (w.type = v.type ∧ w.shmKernel = v.shmKernel) ∧ w.addr % PGSIZE = 0 ∧ w.end_ % PGSIZE = 0 := by
  by_cases htouched : v.Touched start end_
  · by_cases hheld : v.Held start end_
    · rw [Vma.unmap_held hheld] at hw
      rw [List.mem_singleton.mp hw]
      exact ⟨⟨rfl, rfl⟩, hal⟩
    · rcases Vma.mem_pieces.mp (Vma.unmap_touched htouched hheld hw) with ⟨-, rfl⟩ | ⟨-, rfl⟩
      · exact ⟨⟨rfl, rfl⟩, hal.1, hstart⟩
      · exact ⟨⟨rfl, rfl⟩, hend, hal.2⟩
  · rw [Vma.unmap_untouched htouched] at hw
    rw [List.mem_singleton.mp hw]
    exact ⟨⟨rfl, rfl⟩, hal⟩

/-- What `munmap` leaves of a shared mapping is a shared mapping from the same address on, which has
no page that the mapping did not have. -/
theorem unmap_shared (hok : v.Ok) (hal : v.addr % PGSIZE = 0 ∧ v.end_ % PGSIZE = 0)
    (hstart : start % PGSIZE = 0) (hcut : CutsBack start end_ v)
    (hcount : Vmem.pageCeil v.size = (v.end_ - v.addr) / PGSIZE) (hw : w ∈ v.unmap start end_) :
    w.addr = v.addr ∧ w.end_ ≤ v.end_ ∧ w.shmKernel = v.shmKernel ∧ w.flags = v.flags ∧
      Vmem.pageCeil w.size = (w.end_ - w.addr) / PGSIZE ∧ Vmem.pageCeil w.size ≤ Vmem.pageCeil v.size := by
  obtain ⟨hle, hlt, -⟩ := hok
  obtain ⟨ha, he⟩ := hal
  by_cases htouched : v.Touched start end_
  · by_cases hheld : v.Held start end_
    · rw [Vma.unmap_held hheld] at hw
      rw [List.mem_singleton.mp hw]
      exact ⟨rfl, le_rfl, rfl, rfl, hcount, le_rfl⟩
    · rcases Vma.mem_pieces.mp (Vma.unmap_touched htouched hheld hw) with ⟨hlo, rfl⟩ | ⟨hhi, rfl⟩
      · have hend : start < v.end_ := htouched.1
        refine ⟨rfl, hend.le, rfl, rfl, ?_, ?_⟩ <;>
          simp only [Vma.front, sub64, Vmem.pageCeil, PGSIZE] at * <;> omega
      · have heq : end_ = v.addr := by
          obtain ⟨h₁, h₂⟩ := htouched
          unfold CutsBack at hcut
          omega
        refine ⟨heq, le_rfl, rfl, rfl, ?_, ?_⟩ <;>
          simp only [Vma.back, sub64, Vmem.pageCeil, PGSIZE] at * <;> omega
  · rw [Vma.unmap_untouched htouched] at hw
    rw [List.mem_singleton.mp hw]
    exact ⟨rfl, le_rfl, rfl, rfl, hcount, le_rfl⟩

theorem pgRoundDown_mod_page (a : Nat) : pgRoundDown a % PGSIZE = 0 := Nat.mul_mod_left _ _

/-- `munmap` keeps the pages of the shared mappings together. -/
theorem munmap_shares {len : Int} (h : Shares arch s.shm origin s.toMm) (hlen : len < 2 ^ 31)
    (hcut : ∀ v ∈ s.vmas, TakesShared v → CutsBack (pgRoundDown start) (munmapEnd start len) v)
    (hcall : munmap arch start len s = some (r, s')) :
    Shares arch s'.shm origin s'.toMm ∧ SameShm s s' ∧
      ∀ w ∈ s'.vmas, TakesShared w → ∃ v ∈ s.vmas, TakesShared v ∧ w.addr = v.addr ∧ w.end_ ≤ v.end_ := by
  rw [munmap] at hcall
  dsimp only at hcall
  split at hcall
  · cases hcall
    exact ⟨h, .refl, fun w hw hsh => ⟨w, hw, hsh, rfl, le_rfl⟩⟩
  rename_i hpos
  obtain ⟨⟨found, l, t⟩, hloop, heq⟩ := Option.map_eq_some_iff.mp hcall
  cases heq
  have hsame : SameShm s t := munmapLoop_sameShm hloop
  obtain ⟨rfl, -, -, hclears⟩ := munmapLoop_clears h.sorted.2 hloop
  have hend : pgRoundDown (toU64 (start + len)) = munmapEnd start len := rfl
  rw [hend] at hclears ⊢
  have hapart : Vma.Apart (pgRoundDown start) (munmapEnd start len) := by
    simp only [Vma.Apart, munmapEnd, pgRoundDown, toU64, PGSIZE] at *
    omega
  have hleaf : ∀ vpn, (t.leaf vpn).valid = true → t.leaf vpn = s.leaf vpn := fun vpn hv =>
    hclears.kept vpn fun hgone => by
      rw [hclears.gone vpn hgone] at hv
      cases hv
  have hpart : ∀ w ∈ s.vmas.flatMap (Vma.unmap (pgRoundDown start) (munmapEnd start len)), TakesShared w →
      ∃ v ∈ s.vmas, TakesShared v ∧ w ∈ v.unmap (pgRoundDown start) (munmapEnd start len) := by
    intro w hw hsh
    obtain ⟨v, hv, hw⟩ := List.mem_flatMap.mp hw
    obtain ⟨⟨htype, hshm⟩, -⟩ := unmap_kind (h.aligned v hv) (pgRoundDown_mod_page _) munmapEnd_mod hw
    exact ⟨v, hv, ⟨htype ▸ hsh.1, hshm ▸ hsh.2⟩, hw⟩
  have hkeeps : ∀ v ∈ s.vmas, TakesShared v → ∀ w ∈ v.unmap (pgRoundDown start) (munmapEnd start len), _ :=
    fun v hv hsh w hw => unmap_shared (h.sorted.2 v hv) (h.aligned v hv) (pgRoundDown_mod_page _)
      (hcut v hv hsh) (h.shared v hv hsh).count hw
  refine ⟨⟨?_, ?_, ?_⟩, hsame.setVmas, fun w hw hsh => ?_⟩
  · exact h.sorted.flatMap fun v hv => (h.sorted.2 v hv).unmap hapart
  · intro w hw
    obtain ⟨v, hv, hw⟩ := List.mem_flatMap.mp hw
    exact (unmap_kind (h.aligned v hv) (pgRoundDown_mod_page _) munmapEnd_mod hw).2
  · intro w hw hsh
    obtain ⟨v, hv, hshv, hw⟩ := hpart w hw hsh
    obtain ⟨haddr, hle, hshm, hflags, hcount, hfits⟩ := hkeeps v hv hshv w hw
    dsimp only [setVmas]
    rw [hsame.shm]
    exact (h.shared v hv hshv).part haddr hle hshm hflags hcount hfits hsame.sz hleaf
  · obtain ⟨v, hv, hshv, hw⟩ := hpart w hw hsh
    obtain ⟨haddr, hle, -⟩ := hkeeps v hv hshv w hw
    exact ⟨v, hv, hshv, haddr, hle⟩

/-! ## Faults -/

theorem findVma_has (h : findVma addr L = some v) : v.Has addr := by
  induction L with
  | nil => cases h
  | cons w ws ih =>
    rw [findVma] at h
    split at h
    · exact ih h
    rename_i hlt
    split at h
    · rename_i hle
      cases h
      exact ⟨hle, not_le.mp hlt⟩
    · cases h

/-- The search finds the area of an address. -/
theorem findVma_eq (hs : Vma.Sorted L) (hv : v ∈ L) (ha : v.Has addr) : findVma addr L = some v := by
  obtain ⟨hle, hlt⟩ := ha
  induction L with
  | nil => cases hv
  | cons w ws ih =>
    rw [findVma]
    rcases List.mem_cons.mp hv with rfl | hv'
    · rw [if_neg (not_le.mpr hlt), if_pos hle]
    · have hw := (List.pairwise_cons.mp hs.1).1 v hv'
      rw [if_pos (hw.trans hle)]
      exact ih hs.tail hv'

theorem handleCowWrite_sameShm : SameShm s (handleCowWrite arch va s).2 := by
  unfold handleCowWrite
  split
  · exact .refl
  dsimp only
  split
  · split
    · exact .alloc
    · exact ⟨rfl, rfl, 1, fun _ => rfl⟩
  · exact .refl

theorem faultGeneric_sameShm (h : faultGeneric arch va s = some (sig, s')) : SameShm s s' := by
  rw [faultGeneric] at h
  dsimp only at h
  split at h
  · cases h
  split at h
  · cases h
    exact ⟨rfl, rfl, 1, fun _ => rfl⟩
  split at h
  · cases h
    exact ⟨rfl, rfl, 1, fun _ => rfl⟩
  · obtain ⟨⟨r, t⟩, hmap, hrest⟩ := Option.bind_eq_some_iff.mp h
    have ht : SameShm s.alloc.2 t := mappages_sameShm hmap
    dsimp only at hrest
    split at hrest
    · cases hrest
    · cases hrest
      exact SameShm.alloc.trans ht

theorem faultFile_sameShm (h : faultFile arch env va s = some (sig, s')) : SameShm s s' := by
  rw [faultFile] at h
  split at h
  · cases h
    exact .refl
  · obtain ⟨pa, -, heq⟩ := Option.map_eq_some_iff.mp h
    split at heq <;> cases heq
    · exact .of_eq rfl rfl rfl
    · exact .refl

/-- A fault changes the entry of its page at most. -/
theorem pagefaultHandler_outside (h : pagefaultHandler arch env addr s = some (sig, s')) :
    s'.vmas = s.vmas ∧ ∀ vpn, vpn ≠ addr / PGSIZE → s'.leaf vpn = s.leaf vpn := by
  -- with all rights, the conditions on the rights are met
  have hmaps : Maps arch (6 : Int) (fun vpn => vpn = addr / PGSIZE) s s' :=
    pagefaultHandler_maps rfl (fun _ => by decide) (fun _ _ _ => by decide) (fun _ _ _ => by decide)
      (fun _ _ _ _ _ => .of_both (by decide) (by decide)) h
  exact ⟨hmaps.vmas, fun vpn hne => hmaps.leaf.outside hne⟩

/-- A fault outside the shared mappings. -/
theorem pagefaultHandler_elsewhere (hno : ∀ v ∈ s.vmas, TakesShared v → ¬v.Has addr)
    (h : pagefaultHandler arch env addr s = some (sig, s')) : SameShm s s' := by
  rw [pagefaultHandler] at h
  dsimp only at h
  split at h
  · split at h
    · exact faultGeneric_sameShm h
    · cases h
      exact .refl
  rename_i v hfind
  split at h
  · cases h
    exact .refl
  generalize hcow : (if hasBits v.flags MAP_PRIVATE = true ∧ (s.pte (pgRoundDown addr)).valid = true ∧
    ¬Bits.has (s.pte (pgRoundDown addr)).flags (PTE_W arch) = true then
      handleCowWrite arch (pgRoundDown addr) s else (false, s)) = p at h
  have hp : SameShm s p.2 := by
    rw [← hcow]
    split
    · exact handleCowWrite_sameShm
    · exact .refl
  split at h
  · cases h
    exact hp
  split at h
  · exact hp.trans (faultFile_sameShm h)
  split at h
  · rename_i hsh
    exact absurd (findVma_has hfind) (hno v (findVma_mem hfind) hsh)
  · exact hp.trans (faultGeneric_sameShm h)

/-- `shp->shm_pages[i] = pa` at an entry that was `0`. -/
theorem setShmPage_kept {shp i : Nat} (pa : Nat) (hsome : (s.shm shp).shmPages.isSome = true)
    (hlt : i < ((s.shm shp).shmPages.getD []).length) (hfree : segPage s.shm shp i = 0) :
    ShmKept s.shm (setShmPage shp i pa s).shm ∧ segPage (setShmPage shp i pa s).shm shp i = pa := by
  obtain ⟨pages, hpages⟩ := Option.isSome_iff_exists.mp hsome
  unfold segPage at *
  rw [hpages, Option.getD_some] at hlt hfree
  have hshm : (setShmPage shp i pa s).shm =
      update s.shm shp { s.shm shp with shmPages := some (pages.set i pa) } := by
    simp only [setShmPage, setShm, hpages, Option.map_some]
  rw [hshm]
  refine ⟨.setPage hpages hfree, ?_⟩
  rw [Function.update_self, Option.getD_some, List.getD_eq_getElem?_getD, List.getElem?_set_self hlt]
  rfl

/-- The number of the page that the handler computes. -/
theorem fault_index (hok : v.Ok) (hal : v.addr % PGSIZE = 0 ∧ v.end_ % PGSIZE = 0) (ha : v.Has addr) :
    sub64 (pgRoundDown addr) v.addr / PGSIZE = addr / PGSIZE - v.addr / PGSIZE := by
  obtain ⟨hle, hlt, -⟩ := hok
  obtain ⟨h₁, h₂⟩ := ha
  obtain ⟨ha, he⟩ := hal
  simp only [sub64, pgRoundDown, PGSIZE] at *
  omega

theorem has_page (hal : v.addr % PGSIZE = 0 ∧ v.end_ % PGSIZE = 0) :
    v.HasPage (addr / PGSIZE) ↔ v.Has addr := by
  obtain ⟨ha, he⟩ := hal
  unfold Vma.HasPage Vma.Has
  simp only [PGSIZE] at *
  omega

/-- A fault in a shared mapping. -/
theorem faultShared_page (hok : SharedOk arch s.shm origin s.toMm v) (hbounds : v.Ok)
    (hal : v.addr % PGSIZE = 0 ∧ v.end_ % PGSIZE = 0) (ha : v.Has addr)
    (h : faultShared arch addr (pgRoundDown addr) v s = some (sig, s')) :
    ShmKept s.shm s'.shm ∧ s'.sz = s.sz ∧ Backed s'.shm s'.leaf v ∧
      (sig = none → (s'.leaf (addr / PGSIZE)).valid = true) := by
  have hpage : v.HasPage (addr / PGSIZE) := (has_page hal).mpr ha
  have hlt := hok.index_lt hal hpage
  rw [faultShared] at h
  dsimp only at h
  rw [fault_index hbounds hal ha, hok.numPages] at h
  split at h
  · cases h
    exact ⟨.refl, rfl, hok.backed, by simp⟩
  rw [if_neg (not_le.mpr hlt)] at h
  obtain ⟨⟨pa, t⟩, hget, h⟩ := Option.bind_eq_some_iff.mp h
  -- the page that is in the segment now
  obtain ⟨hkept, hsz, hleaf, hseg, hne⟩ : ShmKept s.shm t.shm ∧ t.sz = s.sz ∧ t.leaf = s.leaf ∧
      segPage t.shm v.shmKernel (addr / PGSIZE - v.addr / PGSIZE) = pa ∧ pa ≠ 0 := by
    split at hget
    · rename_i hfree
      obtain ⟨s₁, hnode, heq⟩ := Option.map_eq_some_iff.mp hget
      cases heq
      have hne : s.alloc.1 ≠ NULL := by
        intro hnull
        rw [allocNode, if_pos hnull] at hnode
        cases hnode
      have hsame := allocNode_sameShm hnode
      have hleaf : s₁.leaf = s.leaf := allocNode_leaf hnode
      obtain ⟨hkept, hseg⟩ := setShmPage_kept s.alloc.1 (by rw [hsame.shm]; exact hok.some)
        (by rw [hsame.shm]; exact hlt) (by rw [hsame.shm]; exact hfree)
      exact ⟨hsame.kept.trans hkept, hsame.sz, hleaf, hseg, hne⟩
    · rename_i hused
      cases hget
      exact ⟨.refl, rfl, rfl, rfl, hused⟩
  have hbacked : Backed t.shm t.leaf v := by
    rw [hleaf]
    exact hok.backed.kept (hkept.kept _ hok.some hok.attached)
  dsimp only at h
  split at h
  · cases h
    exact ⟨hkept, hsz, hbacked, by simp⟩
  obtain ⟨⟨r, u⟩, hmap, hrest⟩ := Option.bind_eq_some_iff.mp h
  dsimp only at hrest
  split at hrest
  · cases hrest
  rename_i hr
  cases hrest
  have hsame := mappages_sameShm hmap
  obtain ⟨⟨r', leaf⟩, hone, heq⟩ := Option.map_eq_some_iff.mp hmap
  cases heq
  rcases Leaf.mappages_one pgRoundDown_mod hone with ⟨rfl, -, -⟩ | ⟨-, -, rfl⟩
  · exact absurd (by decide) hr
  · rw [pgRoundDown_div]
    refine ⟨hkept.trans hsame.kept, hsz, hbacked.map hseg hne, fun _ => ?_⟩
    dsimp only
    rw [Function.update_self]
    exact Pte.valid_or _ _

/-- A fault keeps the pages of the shared mappings together, and if it goes well in one of them, the
page is mapped. -/
theorem pagefaultHandler_shares (h : Shares arch s.shm origin s.toMm)
    (hcall : pagefaultHandler arch env addr s = some (sig, s')) :
    Shares arch s'.shm origin s'.toMm ∧ ShmKept s.shm s'.shm ∧
      (sig = none → ∀ v ∈ s.vmas, TakesShared v → v.Has addr → (s'.leaf (addr / PGSIZE)).valid = true) := by
  obtain ⟨hvmas, houtside⟩ := pagefaultHandler_outside hcall
  by_cases hin : ∃ v ∈ s.vmas, TakesShared v ∧ v.Has addr
  · obtain ⟨v, hv, hsh, ha⟩ := hin
    have hok := h.shared v hv hsh
    have hal := h.aligned v hv
    obtain ⟨hkept, hsz, hbacked, hmapped⟩ : ShmKept s.shm s'.shm ∧ s'.sz = s.sz ∧
        Backed s'.shm s'.leaf v ∧ (sig = none → (s'.leaf (addr / PGSIZE)).valid = true) := by
      rw [pagefaultHandler, findVma_eq h.sorted hv ha] at hcall
      dsimp only at hcall
      split at hcall
      · cases hcall
        exact ⟨.refl, rfl, hok.backed, by simp⟩
      simp only [hok.shared, Bool.false_eq_true, false_and, if_false] at hcall
      unfold TakesShared at hsh
      rw [if_pos hsh] at hcall
      exact faultShared_page hok (h.sorted.2 v hv) hal ha hcall
    refine ⟨(h.kept hkept).remap hvmas hsz fun w hw hwsh => ?_, hkept, fun hsig w hw hwsh _ => hmapped hsig⟩
    by_cases heq : w = v
    · rw [heq]
      exact hbacked
    · have hok' := (h.kept hkept).shared w hw hwsh
      refine hok'.backed.outside fun vpn hp => houtside vpn ?_
      rintro rfl
      exact heq (h.unique hw hv hp ((has_page hal).mpr ha))
  · push Not at hin
    have hsame := pagefaultHandler_elsewhere hin hcall
    refine ⟨(h.kept hsame.kept).remap hvmas hsame.sz fun w hw hwsh => ?_, hsame.kept,
      fun _ w hw hwsh ha => absurd ha (hin w hw hwsh)⟩
    refine ((h.kept hsame.kept).shared w hw hwsh).backed.outside fun vpn hp => houtside vpn ?_
    rintro rfl
    exact hin w hw hwsh ((has_page (h.aligned w hw)).mp hp)

theorem usertrapFault_resumed (h : usertrapFault arch env access addr s = some (.resumed, s')) :
    pagefaultHandler arch env addr s = some (none, s') := by
  have hhandled {g : _ → Outcome × Space} (hnone : ∀ t, g (none, t) = (.resumed, t))
      (hsome : ∀ sig t, g (some sig, t) = (.signalled sig, t))
      (hmap : (pagefaultHandler arch env addr s).map g = some (.resumed, s')) :
      pagefaultHandler arch env addr s = some (none, s') := by
    obtain ⟨⟨sig, t⟩, heq, hpair⟩ := Option.map_eq_some_iff.mp hmap
    cases sig with
    | none =>
      rw [hnone] at hpair
      cases hpair
      exact heq
    | some sig =>
      rw [hsome] at hpair
      cases hpair
  cases arch with
  | riscv =>
    cases access with
    | fetch => cases h
    | load => exact hhandled (fun _ => rfl) (fun _ _ => rfl) h
    | store => exact hhandled (fun _ => rfl) (fun _ _ => rfl) h
  | loongarch =>
    cases access with
    | fetch => cases h
    | load =>
      dsimp only [usertrapFault] at h
      split at h
      · cases h
      · exact hhandled (fun _ => rfl) (fun _ _ => rfl) h
    | store => exact hhandled (fun _ => rfl) (fun _ _ => rfl) h

/-- The same for a fault as it comes from the user. -/
theorem usertrapFault_shares {o : Outcome}
    (h : Shares arch s.shm origin s.toMm) (hcall : usertrapFault arch env access addr s = some (o, s')) :
    Shares arch s'.shm origin s'.toMm ∧ ShmKept s.shm s'.shm := by
  rcases usertrapFault_cases hcall with rfl | ⟨sig, hhandler⟩
  · exact ⟨h, .refl⟩
  · obtain ⟨hs, hkept, -⟩ := pagefaultHandler_shares h hhandler
    exact ⟨hs, hkept⟩

end Space

end SC7
