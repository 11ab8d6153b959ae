-- SUMMARY: What `vmunmap`, `mappages` and the routines that map fresh memory do to the pages in use.
import SC7.Mem.VmemInv

/-!
# Mapping and unmapping

`vmunmap` clears the entries of a range and gives back every block that has a page mapped there.
The mapping routines only add pages, as long as the range is not mapped: `Vmem.Grown` collects from
round to round of their loops what was added since the call began.
-/

namespace SC7

open Pmem (SameRegion)

namespace Vmem

variable {arch : Arch} {s s' s₀ s₁ : Vmem} {live live' live₀ live₁ : List Block}
  {pid vpn q va len perm end_ current pa k ptr a oldsz newsz : Nat} {b : Block} {doFree ok : Bool} {lo mid hi n : Nat}
  {P : Nat → Nat → Prop} {r m : Int} {undo : Nat → Option Bool → Vmem → Option (Int × Vmem)}

/-! ## `vmunmap` -/

theorem Touched.congr (hleaf : ∀ v, lo ≤ v → v < hi → s'.leaf pid v = s.leaf pid v)
    (hsame : SameRegion s.pmem s'.pmem) : s'.Touched pid lo hi b ↔ s.Touched pid lo hi b := by
  constructor
  · rintro ⟨v, h1, h2, hv, q, hq, hpa⟩
    rw [hleaf v h1 h2] at hv hpa
    exact ⟨v, h1, h2, hv, q, hq, by rw [hpa, hsame.pageAddr]⟩
  · rintro ⟨v, h1, h2, hv, q, hq, hpa⟩
    rw [← hleaf v h1 h2] at hv hpa
    exact ⟨v, h1, h2, hv, q, hq, by rw [hpa, hsame.pageAddr]⟩

theorem touched_append (h1 : lo ≤ mid) (h2 : mid ≤ hi) :
    s.Touched pid lo hi b ↔ s.Touched pid lo mid b ∨ s.Touched pid mid hi b := by
  constructor
  · rintro ⟨v, hlo, hhi, h⟩
    by_cases hv : v < mid
    · exact .inl ⟨v, hlo, hv, h⟩
    · exact .inr ⟨v, by omega, hhi, h⟩
  · rintro (⟨v, hlo, hhi, h⟩ | ⟨v, hlo, hhi, h⟩)
    · exact ⟨v, hlo, by omega, h⟩
    · exact ⟨v, by omega, hhi, h⟩

namespace Unmapped

theorem refl (hwf : s.pmem.Wf live) (hle : hi ≤ lo) : Unmapped doFree s s pid lo hi live live where
  wf := hwf
  leaf := by
    intro pid' v
    rw [if_neg]
    rintro ⟨⟨-, h1, h2⟩, -⟩
    omega
  dir := rfl
  asked := rfl
  same := SameRegion.refl _
  mem := rfl
  live := by
    intro b
    refine ⟨fun hb => ⟨hb, ?_⟩, fun hb => hb.1⟩
    rintro ⟨-, v, h1, h2, -⟩
    omega

/-- An entry outside the range is untouched. -/
theorem leaf_off (h : Unmapped doFree s s' pid lo hi live live') {pid' v : Nat}
    (hoff : ¬(pid' = pid ∧ lo ≤ v ∧ v < hi)) : s'.leaf pid' v = s.leaf pid' v := by
  rw [h.leaf, if_neg fun hin => hoff hin.1]

/-- No page is mapped in the range afterwards. -/
theorem leaf_on (h : Unmapped doFree s s' pid lo hi live live') (h1 : lo ≤ vpn) (h2 : vpn < hi) :
    (s'.leaf pid vpn).valid = false := by
  rw [h.leaf]
  split
  · exact valid_zero
  · rename_i hv
    simpa [h1, h2] using hv

theorem append (h₁ : Unmapped doFree s s₁ pid lo mid live live₁)
    (h₂ : Unmapped doFree s₁ s' pid mid hi live₁ live') (hlo : lo ≤ mid) (hhi : mid ≤ hi) :
    Unmapped doFree s s' pid lo hi live live' where
  wf := h₂.wf
  leaf := by
    intro pid' v
    by_cases hlow : pid' = pid ∧ lo ≤ v ∧ v < mid
    · rw [h₂.leaf_off (by omega), h₁.leaf]
      have hin : pid' = pid ∧ lo ≤ v ∧ v < hi := by omega
      simp only [hlow, hin, true_and, and_self]
    · rw [h₂.leaf, h₁.leaf_off hlow]
      by_cases hhigh : pid' = pid ∧ mid ≤ v ∧ v < hi
      · have hin : pid' = pid ∧ lo ≤ v ∧ v < hi := by omega
        simp only [hhigh, hin, true_and, and_self]
      · have hout : ¬(pid' = pid ∧ lo ≤ v ∧ v < hi) := by omega
        rw [if_neg fun h => hhigh h.1, if_neg fun h => hout h.1]
  dir := h₂.dir.trans h₁.dir
  asked := h₂.asked.trans h₁.asked
  same := h₁.same.trans h₂.same
  mem := h₂.mem.trans h₁.mem
  live := by
    intro b
    have hrest : s₁.Touched pid mid hi b ↔ s.Touched pid mid hi b :=
      Touched.congr (fun v h1 _ => h₁.leaf_off (by omega)) h₁.same
    rw [h₂.live, h₁.live, hrest, touched_append hlo hhi]
    tauto

/-- Nobody holds a page that he did not hold before. -/
theorem holds (h : Unmapped doFree s s' pid lo hi live live') {x : Holder} {a : Nat}
    (hx : s'.Holds x a) : s.Holds x a ∧ ∀ v, lo ≤ v → v < hi → x ≠ .leaf pid v := by
  cases x with
  | leaf pid' v =>
    by_cases hin : pid' = pid ∧ lo ≤ v ∧ v < hi
    · obtain ⟨rfl, h1, h2⟩ := hin
      rw [Holds, h.leaf_on h1 h2] at hx
      cases hx.1
    · simp only [Holds, h.leaf_off hin] at hx
      refine ⟨hx, ?_⟩
      rintro v' h1 h2 heq
      cases heq
      exact hin ⟨rfl, h1, h2⟩
  | dir pid' level i =>
    simp only [Holds, h.dir] at hx
    refine ⟨hx, ?_⟩
    intro v _ _ heq
    cases heq

theorem excl (h : Unmapped doFree s s' pid lo hi live live') (hx : s.Exclusive) : s'.Exclusive :=
  fun x y a hxa hya => hx x y a (h.holds hxa).1 (h.holds hya).1

end Unmapped

theorem Readable.rest (hr : Readable arch s pid lo hi)
    (h : Unmapped doFree s s' pid lo mid live live') (hlo : lo ≤ mid) :
    Readable arch s' pid mid hi := by
  intro v h1 h2 hv
  have hleaf : s'.leaf pid v = s.leaf pid v := h.leaf_off (by omega)
  have hdiv : v * PGSIZE / PGSIZE = v := Nat.mul_div_cancel _ (by decide)
  rw [hleaf] at hv ⊢
  obtain ⟨hpte, hflags, q, hq, hmeta, hpa⟩ := hr v (by omega) h2 hv
  refine ⟨?_, hflags, q, ?_, ?_, ?_⟩
  · simp only [pteAt, hasTables, hdiv, h.dir, hleaf] at hpte ⊢
    exact hpte
  · rw [h.same.totalPages]
    exact hq
  · rw [h.same.totalPages]
    exact hmeta
  · rw [h.same.pageAddr]
    exact hpa

/-- The loop unmaps the whole range, or runs into the end of the address space. -/
theorem vmunmapLoop_spec (doFree : Bool) (hwf : s.pmem.Wf live) (hr : Readable arch s pid lo hi)
    (hn : hi ≤ lo + n) (hhi : hi * PGSIZE < 2 ^ 64) :
    (MAXVA arch < hi * PGSIZE ∧
      vmunmapLoop arch pid doFree (hi * PGSIZE) n (lo * PGSIZE) s = none) ∨
    ∃ s' live', vmunmapLoop arch pid doFree (hi * PGSIZE) n (lo * PGSIZE) s = some s' ∧
      Unmapped doFree s s' pid lo hi live live' := by
  induction n generalizing s lo live with
  | zero =>
    have hle : hi * PGSIZE ≤ lo * PGSIZE := Nat.mul_le_mul_right _ (by omega)
    refine .inr ⟨s, live, ?_, Unmapped.refl hwf (by omega)⟩
    rw [vmunmapLoop, if_neg (Nat.not_lt.mpr hle)]
  | succ n ih =>
    rw [vmunmapLoop]
    by_cases hlt : lo < hi
    · have hlt' : lo * PGSIZE < hi * PGSIZE := Nat.mul_lt_mul_of_pos_right hlt (by decide)
      rw [if_pos hlt']
      by_cases hva : lo * PGSIZE < MAXVA arch
      · have hone : Readable arch s pid lo (lo + 1) := fun v h1 h2 => hr v h1 (by omega)
        obtain ⟨s₁, live₁, hcall, hun⟩ := unmapPage_spec doFree hwf hone hva
        have hnext : add64 (lo * PGSIZE) PGSIZE = (lo + 1) * PGSIZE := by
          simp only [add64, PGSIZE] at *
          omega
        rw [hcall, Option.bind_some, hnext]
        rcases ih hun.wf (hr.rest hun (by omega)) (by omega) with hnone | ⟨s', live', hrest, hun'⟩
        · exact .inl hnone
        · exact .inr ⟨s', live', hrest, hun.append hun' (by omega) (by omega)⟩
      · have hnone : unmapPage arch pid doFree (lo * PGSIZE) s = none := by
          rw [unmapPage, if_pos (Nat.not_lt.mp hva)]
        rw [hnone]
        exact .inl ⟨by omega, rfl⟩
    · have hle : hi * PGSIZE ≤ lo * PGSIZE := Nat.mul_le_mul_right _ (by omega)
      rw [if_neg (Nat.not_lt.mpr hle)]
      exact .inr ⟨s, live, rfl, Unmapped.refl hwf (by omega)⟩

/-- The page after the range of `vmunmap`, whose end can wrap. -/
def endPage (va npages : Nat) : Nat := add64 va (npages * PGSIZE % 2 ^ 64) / PGSIZE

theorem vmunmap_spec (doFree : Bool) (hwf : s.pmem.Wf live) (hva : va % PGSIZE = 0)
    (hr : Readable arch s pid (va / PGSIZE) (endPage va n)) :
    (MAXVA arch < endPage va n * PGSIZE ∧ vmunmap arch pid va n doFree s = none) ∨
    ∃ s' live', vmunmap arch pid va n doFree s = some s' ∧
      Unmapped doFree s s' pid (va / PGSIZE) (endPage va n) live live' := by
  have hend : add64 va (n * PGSIZE % 2 ^ 64) = endPage va n * PGSIZE := by
    simp only [endPage, add64, PGSIZE] at *
    omega
  have hstart : va = va / PGSIZE * PGSIZE := by
    simp only [PGSIZE] at *
    omega
  have hn : endPage va n ≤ va / PGSIZE + n := by
    simp only [endPage, add64, PGSIZE] at *
    omega
  have hlt : endPage va n * PGSIZE < 2 ^ 64 := by
    rw [← hend, add64]
    exact Nat.mod_lt _ (by decide)
  rw [vmunmap, if_neg (by omega), hend]
  have hloop := vmunmapLoop_spec doFree hwf hr hn hlt
  rwa [← hstart] at hloop

/-- Nobody outside the range holds a page of a block that has a page mapped in the range. -/
def Apart (s : Vmem) (live : List Block) (pid lo hi : Nat) : Prop :=
  ∀ b ∈ live, s.Touched pid lo hi b → ∀ q ∈ b, ∀ x, s.Holds x (s.pmem.pageAddr q) →
    ∃ v, lo ≤ v ∧ v < hi ∧ x = .leaf pid v

theorem Ok.unmapped (h : s.Ok arch live) (hu : Unmapped doFree s s' pid lo hi live live')
    (hapart : doFree = true → s.Apart live pid lo hi) : s'.Ok arch live' where
  wf := hu.wf
  held := by
    intro x a hx
    obtain ⟨hx, hout⟩ := hu.holds hx
    obtain ⟨q, rfl, b, hb, hq⟩ := h.held x a hx
    refine ⟨q, (hu.same.pageAddr q).symm, b, (hu.live b).mpr ⟨hb, ?_⟩, hq⟩
    rintro ⟨hfree, ht⟩
    obtain ⟨v, h1, h2, rfl⟩ := hapart hfree b hb ht q hq x hx
    exact hout v h1 h2 rfl
  alone := by
    intro pid' l i hne
    rw [hu.dir] at hne ⊢
    obtain ⟨q, hq, hb⟩ := h.alone pid' l i hne
    refine ⟨q, by rw [hq, hu.same.pageAddr], (hu.live _).mpr ⟨hb, ?_⟩⟩
    rintro ⟨hfree, ht⟩
    obtain ⟨v, -, -, hx⟩ := hapart hfree _ hb ht q (Block.page_mem _) (.dir pid' l i) ⟨hne, hq⟩
    cases hx
  tables := by
    intro pid' v hv
    rw [hu.dir]
    exact h.tables pid' v (hu.holds (x := .leaf pid' v) ⟨hv, rfl⟩).1.1
  flags := by
    intro pid' v hv
    have hold := (hu.holds (x := .leaf pid' v) ⟨hv, rfl⟩).1
    have hleaf : s'.leaf pid' v = s.leaf pid' v := by
      rw [hu.leaf, if_neg]
      rintro ⟨⟨rfl, h1, h2⟩, -⟩
      rw [hu.leaf_on h1 h2] at hv
      cases hv
    rw [hleaf]
    exact h.flags pid' v hold.1

/-! ## `mappages` -/

/-- A part of memory that holds no live page is written. -/
theorem Grown.memset (hg : Grown arch P s₀ s live₀ live) {addr : Nat}
    (hoff : ∀ q, LivePage live₀ q → ∀ o < PGSIZE,
      ¬(addr ≤ s.pmem.pageAddr q + o ∧ s.pmem.pageAddr q + o < addr + len)) :
    Grown arch P s₀ (s.memset addr len) live₀ live where
  ok := ⟨hg.ok.wf.setMem _, hg.ok.held, hg.ok.alone, hg.ok.tables, hg.ok.flags⟩
  leaf := hg.leaf
  dir := hg.dir
  new := hg.new
  one := hg.one
  same := ⟨hg.same.memStart, hg.same.memEnd, hg.same.totalPages⟩
  sub := hg.sub
  mem := by
    intro q hq o ho
    rw [← hg.mem q hq o ho]
    have hnot := hoff q hq o ho
    rw [hg.same.pageAddr] at hnot
    exact if_neg hnot

theorem walkAlloc_spec (h : s.Ok arch live) (hsafe : s'.Safe) (hw : walkAlloc arch pid va s = some (ok, s')) :
    va < MAXVA arch ∧ ∃ live', Grown arch nowhere s s' live live' ∧
      (ok = true → ∀ l < PT_LEVEL arch - 1,
        s'.dir pid (l + 1) (dirIndex (va / PGSIZE * PGSIZE) (l + 1)) ≠ NULL) := by
  unfold walkAlloc at hw
  split at hw
  · cases hw
  · rename_i hva
    obtain ⟨live', hg, htab⟩ := walkLevels_spec h hsafe hw
    refine ⟨Nat.not_le.mp hva, live', hg, fun hok l hl => ?_⟩
    rw [dirIndex_page]
    exact htab hok l hl

theorem MAXVA_le (arch : Arch) : MAXVA arch ≤ 2 ^ 46 := by cases arch <;> decide

/-- The entries `[lo, hi)` map the pages from `q` on, with the given flags. -/
def MapsRange (s' s : Vmem) (pid lo hi q flags : Nat) : Prop :=
  ∀ pid' v, s'.leaf pid' v =
    if pid' = pid ∧ lo ≤ v ∧ v < hi then ⟨s.pmem.pageAddr (q + (v - lo)), flags⟩ else s.leaf pid' v

/-- A page of the range is mapped: its tables exist, and it was nobody's. -/
theorem Grown.setLeaf (hg : Grown arch P s₀ s live₀ live) (hP : P pid vpn) {flags : Nat}
    (hnew : ¬LivePage live₀ q) (hlive : LivePage live q) (hun : s.Unheld q)
    (hflags : ∀ pa, PTE_FLAGS arch ⟨pa, flags⟩ ≠ PTE_V)
    (htab : ∀ l < PT_LEVEL arch - 1, s.dir pid (l + 1) (dirIndex (vpn * PGSIZE) (l + 1)) ≠ NULL) :
    Grown arch P s₀ (s.setLeaf pid vpn ⟨s.pmem.pageAddr q, flags⟩) live₀ live := by
  refine hg.add (hg.ok.setLeaf hlive rfl (hflags _) htab) rfl hnew hun ?_ (fun _ _ _ _ => rfl)
    fun _ _ hx => holds_setLeaf hx
  intro pid' v hv
  rw [setLeaf_leaf, if_neg]
  rintro ⟨rfl, rfl⟩
  exact hv hP

theorem walkAlloc_asked (hw : walkAlloc arch pid va s = some (ok, s')) : s.asked <:+ s'.asked := by
  unfold walkAlloc at hw
  split at hw
  · cases hw
  · exact walkLevels_asked hw

/-- One round of `mappages`. -/
theorem mappagesLoop_succ (hcall : mappagesLoop arch pid perm end_ (n + 1) current pa s = some (r, s')) :
    ∃ s₁, walkAlloc arch pid current s = some (true, s₁) ∧
      (((s₁.leaf pid (current / PGSIZE)).valid = true ∧ r = -EINVAL ∧ s' = s₁) ∨
        (s₁.leaf pid (current / PGSIZE)).valid = false ∧
          ((current = end_ ∧ r = 1 ∧
              s' = s₁.setLeaf pid (current / PGSIZE) ⟨pa, perm ||| PTE_V⟩) ∨
            current ≠ end_ ∧ mappagesLoop arch pid perm end_ n (add64 current PGSIZE) (add64 pa PGSIZE)
                (s₁.setLeaf pid (current / PGSIZE) ⟨pa, perm ||| PTE_V⟩) = some (r, s'))) := by
  rw [mappagesLoop] at hcall
  obtain ⟨⟨ok, s₁⟩, hwalk, hcall⟩ := Option.bind_eq_some_iff.mp hcall
  simp only at hcall
  split at hcall
  · cases hcall
  · rename_i hok
    have hok' : ok = true := by simpa using hok
    refine ⟨s₁, by rw [hwalk, hok'], ?_⟩
    split at hcall
    · rename_i hv
      cases hcall
      exact .inl ⟨hv, rfl, rfl⟩
    · rename_i hv
      refine .inr ⟨by simpa using hv, ?_⟩
      split at hcall
      · rename_i heq
        cases hcall
        exact .inl ⟨heq, rfl, rfl⟩
      · rename_i hne
        exact .inr ⟨hne, hcall⟩

theorem mappagesLoop_asked (hcall : mappagesLoop arch pid perm end_ n current pa s = some (r, s')) :
    s.asked <:+ s'.asked := by
  induction n generalizing s current pa with
  | zero => cases hcall
  | succ n ih =>
    obtain ⟨s₁, hwalk, ⟨-, -, rfl⟩ | ⟨-, ⟨-, -, rfl⟩ | ⟨-, hrest⟩⟩⟩ := mappagesLoop_succ hcall
    · exact walkAlloc_asked hwalk
    · have hs₁ : s.asked <:+ s₁.asked := walkAlloc_asked hwalk
      exact hs₁
    · have hs₁ : s₁.asked <:+ s'.asked := by simpa using ih hrest
      exact (walkAlloc_asked hwalk).trans hs₁

/-- The loop of `mappages` maps the pages from `q` on, which are nobody's, into a free range. -/
theorem mappagesLoop_spec (hg : Grown arch P s₀ s live₀ live)
    (hsafe : s'.Safe) (hP : ∀ v, lo ≤ v → v < lo + k + 1 → P pid v)
    (hfree : ∀ v, lo ≤ v → v < lo + k + 1 → (s.leaf pid v).valid = false)
    (hpages : ∀ j ≤ k, ¬LivePage live₀ (q + j) ∧ LivePage live (q + j) ∧ s.Unheld (q + j))
    (hflags : ∀ pa, PTE_FLAGS arch ⟨pa, perm ||| PTE_V⟩ ≠ PTE_V)
    (hcall : mappagesLoop arch pid perm ((lo + k) * PGSIZE) n (lo * PGSIZE) (s.pmem.pageAddr q) s =
      some (r, s')) :
    r = 1 ∧ ∃ live', Grown arch P s₀ s' live₀ live' ∧ (∀ b ∈ live, b ∈ live') ∧
      MapsRange s' s pid lo (lo + k + 1) q (perm ||| PTE_V) := by
  induction n generalizing s lo live k q with
  | zero => cases hcall
  | succ n ih =>
    have hdiv : lo * PGSIZE / PGSIZE = lo := Nat.mul_div_cancel _ (by decide)
    obtain ⟨s₁, hwalk, hround⟩ := mappagesLoop_succ hcall
    simp only [hdiv] at hround
    have hs₁ : s₁.asked <:+ s'.asked := by
      rcases hround with ⟨-, -, rfl⟩ | ⟨-, ⟨-, -, rfl⟩ | ⟨-, hrest⟩⟩
      · exact List.suffix_rfl
      · exact List.suffix_rfl
      · simpa using mappagesLoop_asked hrest
    obtain ⟨hva, live₁, hw, htab⟩ := walkAlloc_spec hg.ok (hsafe.of_suffix hs₁) hwalk
    have hgw : Grown arch P s₀ s₁ live₀ live₁ := hg.trans (hw.mono fun _ _ h => h.elim)
    have hleaf := hw.leaf_eq
    rw [hdiv] at htab
    obtain ⟨hnew, hlive, hun⟩ := hpages 0 (Nat.zero_le _)
    have hset := hgw.setLeaf (hP lo (le_refl _) (by omega)) hnew (hlive.mono hw.sub)
      (hw.unheld hlive hun) hflags (htab rfl)
    rw [hw.same.pageAddr, Nat.add_zero] at hset
    have hone : MapsRange (s₁.setLeaf pid lo ⟨s.pmem.pageAddr q, perm ||| PTE_V⟩) s pid lo (lo + 1) q
        (perm ||| PTE_V) := by
      intro pid' v
      have hv : pid' = pid ∧ lo ≤ v ∧ v < lo + 1 ↔ pid' = pid ∧ v = lo := by omega
      rw [setLeaf_leaf, hleaf]
      simp only [hv]
      split
      · rename_i heq
        rw [heq.2, Nat.sub_self, Nat.add_zero]
      · rfl
    rcases hround with ⟨hv, -, -⟩ | ⟨-, ⟨heq, hr, rfl⟩ | ⟨hne, hrest⟩⟩
    · rw [hleaf, hfree lo (le_refl _) (by omega)] at hv
      cases hv
    · obtain rfl : k = 0 := by
        simp only [PGSIZE] at heq
        omega
      exact ⟨hr, live₁, hset, hw.sub, hone⟩
    · obtain ⟨k, rfl⟩ : ∃ k', k = k' + 1 := by
        refine ⟨k - 1, ?_⟩
        simp only [PGSIZE] at hne
        omega
      have hcur : add64 (lo * PGSIZE) PGSIZE = (lo + 1) * PGSIZE := by
        have := MAXVA_le arch
        simp only [add64, PGSIZE] at *
        omega
      have hpa : add64 (s.pmem.pageAddr q) PGSIZE = s.pmem.pageAddr (q + 1) := by
        obtain ⟨-, ⟨b, hb, hqb⟩, -⟩ := hpages 1 (by omega)
        have hlt := (hg.ok.wf.placed hb).mem_lt hqb
        have hend := hg.ok.wf.region.end_eq
        have hend' := hg.ok.wf.region.end_lt
        simp only [add64, Pmem.pageAddr, PGSIZE] at *
        omega
      have hnext : (s₁.setLeaf pid lo ⟨s.pmem.pageAddr q, perm ||| PTE_V⟩).pmem.pageAddr (q + 1) =
          s.pmem.pageAddr (q + 1) := hw.same.pageAddr _
      rw [hcur, hpa, ← hnext, show lo + (k + 1) = lo + 1 + k by omega] at hrest
      have hfree' : ∀ v, lo + 1 ≤ v → v < lo + 1 + k + 1 →
          ((s₁.setLeaf pid lo ⟨s.pmem.pageAddr q, perm ||| PTE_V⟩).leaf pid v).valid = false := by
        intro v h1 h2
        have hv := hone pid v
        rw [if_neg (by omega)] at hv
        rw [hv]
        exact hfree v (by omega) (by omega)
      have hpages' : ∀ j ≤ k, ¬LivePage live₀ (q + 1 + j) ∧ LivePage live₁ (q + 1 + j) ∧
          (s₁.setLeaf pid lo ⟨s.pmem.pageAddr q, perm ||| PTE_V⟩).Unheld (q + 1 + j) := by
        intro j hj
        obtain ⟨hnew, hlive, hun⟩ := hpages (j + 1) (by omega)
        rw [show q + (j + 1) = q + 1 + j by omega] at hnew hlive hun
        refine ⟨hnew, hlive.mono hw.sub, fun x hx => ?_⟩
        rcases holds_setLeaf hx with ⟨-, heq⟩ | hx
        · have heq' : s₁.pmem.pageAddr (q + 1 + j) = s.pmem.pageAddr q := heq
          rw [hw.same.pageAddr] at heq'
          have := Pmem.pageAddr_inj heq'
          omega
        · exact hw.unheld hlive hun x hx
      obtain ⟨hr, live', hg', hsub, hmaps⟩ :=
        ih hset (fun v h1 h2 => hP v (by omega) (by omega)) hfree' hpages' hrest
      refine ⟨hr, live', hg', fun b hb => hsub b (hw.sub b hb), ?_⟩
      intro pid' v
      rw [hmaps pid' v, hone pid' v]
      by_cases hv : pid' = pid ∧ lo + 1 ≤ v ∧ v < lo + 1 + k + 1
      · rw [if_pos hv, if_pos (by omega)]
        have hpage : (s₁.setLeaf pid lo ⟨s.pmem.pageAddr q, perm ||| PTE_V⟩).pmem.pageAddr
            (q + 1 + (v - (lo + 1))) = s.pmem.pageAddr (q + 1 + (v - (lo + 1))) := hw.same.pageAddr _
        rw [hpage, show q + 1 + (v - (lo + 1)) = q + (v - lo) by omega]
      · rw [if_neg hv]
        exact if_congr (by omega) rfl rfl

theorem mappages_asked (hcall : mappages arch pid va pa len perm s = some (r, s')) : s.asked <:+ s'.asked := by
  unfold mappages at hcall
  split at hcall
  · cases hcall
  · exact mappagesLoop_asked hcall

/-- `mappages` of whole pages runs the loop from the first page to the last. -/
theorem mappages_range {pa : Nat} (hva : lo * PGSIZE < MAXVA arch) (hpa : pa % PGSIZE = 0) (hk : k < 2 ^ 31) :
    mappages arch pid (lo * PGSIZE) pa ((k + 1) * PGSIZE) perm s =
      mappagesLoop arch pid perm ((lo + k) * PGSIZE) (k + 2) (lo * PGSIZE) pa s := by
  have hmax := MAXVA_le arch
  have hlast : pgRoundDown (sub64 (add64 (lo * PGSIZE) ((k + 1) * PGSIZE)) 1) = (lo + k) * PGSIZE := by
    simp only [pgRoundDown, sub64, add64, PGSIZE] at *
    omega
  have hfirst : pgRoundDown (lo * PGSIZE) = lo * PGSIZE := by
    rw [pgRoundDown, Nat.mul_div_cancel _ (by decide)]
  have hcond : ¬(lo * PGSIZE ≥ MAXVA arch ∨ pa % PGSIZE ≠ 0) := by omega
  rw [mappages, if_neg hcond, hlast, hfirst, Nat.mul_div_cancel _ (by decide)]

/-- `mappages` of pages that are nobody's into a free range. -/
theorem mappages_spec (hg : Grown arch P s₀ s live₀ live) (hsafe : s'.Safe)
    (hpa : pa = s.pmem.pageAddr q) (hn : 0 < n) (hlt : n < 2 ^ 31) (hP : ∀ v, lo ≤ v → v < lo + n → P pid v)
    (hfree : ∀ v, lo ≤ v → v < lo + n → (s.leaf pid v).valid = false)
    (hpages : ∀ j < n, ¬LivePage live₀ (q + j) ∧ LivePage live (q + j) ∧ s.Unheld (q + j))
    (hflags : ∀ pa, PTE_FLAGS arch ⟨pa, perm ||| PTE_V⟩ ≠ PTE_V)
    (hcall : mappages arch pid (lo * PGSIZE) pa (n * PGSIZE) perm s = some (r, s')) :
    (lo * PGSIZE < MAXVA arch ∧ r = 1) ∧ ∃ live', Grown arch P s₀ s' live₀ live' ∧
      (∀ b ∈ live, b ∈ live') ∧ MapsRange s' s pid lo (lo + n) q (perm ||| PTE_V) := by
  subst hpa
  obtain ⟨k, rfl⟩ : ∃ k, n = k + 1 := ⟨n - 1, by omega⟩
  have hcond : ¬(lo * PGSIZE ≥ MAXVA arch ∨ s.pmem.pageAddr q % PGSIZE ≠ 0) := by
    intro hbad
    rw [mappages, if_pos hbad] at hcall
    cases hcall
  rw [mappages_range (by omega) (by omega) (by omega)] at hcall
  obtain ⟨hr, hmap⟩ := mappagesLoop_spec hg hsafe hP hfree (fun j hj => hpages j (by omega)) hflags hcall
  exact ⟨⟨by omega, hr⟩, hmap⟩

/-! ## Fresh memory -/

/-- A block just handed out, after its first pages were zeroed. -/
theorem Grown.fresh (hg : Grown arch P s₀ s live₀ live) (hsafe : s₁.Safe)
    (hle : (n : Int) ≤ m) (hne : ptr ≠ NULL) (ha : s.alloc m = some (ptr, s₁)) :
    ∃ b, ptr = (s₁.memset ptr (n * PGSIZE)).pmem.pageAddr b.page ∧ getOrder m.toNat = b.order ∧
      Grown arch P s₀ (s₁.memset ptr (n * PGSIZE)) live₀ (b :: live) ∧
      ∀ j < n, ¬LivePage live₀ (b.page + j) ∧ LivePage (b :: live) (b.page + j) ∧
        (s₁.memset ptr (n * PGSIZE)).Unheld (b.page + j) := by
  rcases hg.ok.alloc hsafe ha with ⟨hnull, -⟩ | ⟨b, hptr, -, hroom, hord, hga, hb⟩
  · exact absurd hnull hne
  · have hin : ∀ j < n, b.page + j ∈ b := by
      intro j hj
      have : (n : Int) ≤ ((2 ^ b.order : Nat) : Int) := by
        push_cast
        omega
      rw [Block.mem_def]
      omega
    have hold : ∀ q ∈ b, ¬LivePage live₀ q := fun q hq hlive => (hb q hq).1 (hlive.mono hg.sub)
    refine ⟨b, hptr, hord, ?_, ?_⟩
    · refine (hg.trans (hga.mono fun _ _ h => h.elim)).memset ?_
      rintro q hq o ho ⟨h1, h2⟩
      -- the written pages are pages of the block
      obtain ⟨j, hj, rfl⟩ : ∃ j < n, q = b.page + j := by
        refine ⟨q - b.page, ?_, ?_⟩ <;> simp only [hptr, Pmem.pageAddr, PGSIZE] at h1 h2 ho <;> omega
      exact hold _ (hin j hj) hq
    · intro j hj
      exact ⟨hold _ (hin j hj), ⟨b, List.mem_cons_self .., hin j hj⟩, (hb _ (hin j hj)).2⟩

/-- No page of `[lo, hi)` is mapped. -/
def Vacant (s : Vmem) (pid lo hi : Nat) : Prop := ∀ v, lo ≤ v → v < hi → (s.leaf pid v).valid = false

/-- The entries of `[lo, hi)`. -/
def inRange (pid lo hi : Nat) (pid' v : Nat) : Prop := pid' = pid ∧ lo ≤ v ∧ v < hi

/-- A freed page does not show in the record. -/
theorem Safe.of_free (h : s'.Safe) (hf : s.free ptr m = some s') : s.Safe := by
  intro req hreq
  rw [← free_asked hf] at hreq
  exact h req hreq

/-- What comes after the mapping of a block leaves a safe record only if the mapping did: the block is freed
again where it was not mapped. -/
theorem Safe.of_undo {α : Type*} {ret : Int} {a b : α} {r : α × Vmem} (hsafe : r.2.Safe)
    (h : (if ret = 1 then some (a, s) else (s.free ptr m).map fun s => (b, s)) = some r) : s.Safe := by
  split at h
  · cases h
    exact hsafe
  · obtain ⟨s₃, hf, heq⟩ := Option.map_eq_some_iff.mp h
    cases heq
    exact hsafe.of_free hf

/-- The block for the whole range is mapped, or there was no memory for it. -/
theorem tryBlock_spec {r : Tried} (h : s.Ok arch live) (hsafe : s'.Safe)
    (hlt : n < 2 ^ 31) (hvac : s.Vacant pid lo (lo + n))
    (hcall : tryBlock arch pid (lo * PGSIZE) n perm s = some (r, s')) :
    ∃ live', Grown arch (inRange pid lo (lo + n)) s s' live live' ∧
      (r = .mapped ∨ r = .noMemory ∧ s'.leaf = s.leaf) := by
  unfold tryBlock at hcall
  split at hcall
  · rename_i hn
    obtain ⟨⟨mem, s₁⟩, ha, hcall⟩ := Option.bind_eq_some_iff.mp hcall
    rw [toInt32_of_lt hlt] at ha hcall
    simp only at hcall
    split at hcall
    · rename_i hne
      obtain ⟨⟨ret, s₂⟩, hmap, hcall⟩ := Option.bind_eq_some_iff.mp hcall
      have hs₂ : s₂.Safe := Safe.of_undo hsafe hcall
      have hs₁ : s₁.Safe := hs₂.of_suffix (by simpa using mappages_asked hmap)
      have hvac₁ : ∀ v, lo ≤ v → v < lo + n → ((s₁.memset mem (n * PGSIZE)).leaf pid v).valid = false := by
        rw [memset_leaf, (alloc_frame ha).1]
        exact hvac
      have hg₀ : Grown arch (inRange pid lo (lo + n)) s s live live := Grown.refl h
      obtain ⟨b, hptr, -, hg, hpages⟩ := hg₀.fresh hs₁ (le_refl _) hne ha
      obtain ⟨⟨-, rfl⟩, live', hg', -, -⟩ := mappages_spec hg hs₂ hptr hn hlt
        (fun v h1 h2 => ⟨rfl, h1, h2⟩) hvac₁ hpages (flags_userPerm arch · perm) hmap
      simp only [if_true] at hcall
      cases hcall
      exact ⟨live', hg', .inl rfl⟩
    · rename_i hnull
      cases hcall
      obtain ⟨-, hg⟩ | ⟨b, -, hne, -⟩ := h.alloc hsafe ha
      · exact ⟨live, hg.mono fun _ _ h => h.elim, .inr ⟨rfl, hg.leaf_eq⟩⟩
      · exact absurd hne hnull
  · cases hcall
    exact ⟨live, Grown.refl h, .inr ⟨rfl, rfl⟩⟩

theorem unmapPage_asked (hcall : unmapPage arch pid doFree a s = some s') : s'.asked = s.asked := by
  unfold unmapPage at hcall
  split at hcall
  · cases hcall
  · simp only at hcall
    split at hcall
    · cases hcall
      rfl
    · split at hcall
      · cases hcall
      · obtain ⟨s₁, hf, rfl⟩ := Option.map_eq_some_iff.mp hcall
        split at hf
        · rw [setLeaf_asked, free_asked hf]
        · cases hf
          rfl

theorem vmunmapLoop_asked (hcall : vmunmapLoop arch pid doFree end_ n a s = some s') : s'.asked = s.asked := by
  induction n generalizing s a with
  | zero =>
    rw [vmunmapLoop] at hcall
    split at hcall
    · cases hcall
    · cases hcall
      rfl
  | succ n ih =>
    rw [vmunmapLoop] at hcall
    split at hcall
    · obtain ⟨s₁, hpage, hrest⟩ := Option.bind_eq_some_iff.mp hcall
      rw [ih hrest, unmapPage_asked hpage]
    · cases hcall
      rfl

theorem uvmdealloc_asked {r : Nat}
    (hcall : uvmdealloc arch pid oldsz newsz s = some (r, s')) : s'.asked = s.asked := by
  unfold uvmdealloc at hcall
  split at hcall
  · cases hcall
    rfl
  · split at hcall
    · obtain ⟨s₁, hun, heq⟩ := Option.map_eq_some_iff.mp hcall
      cases heq
      unfold vmunmap at hun
      split at hun
      · cases hun
      · exact vmunmapLoop_asked hun
    · cases hcall
      rfl

theorem tryPage_asked {r : Option Bool}
    (hcall : tryPage arch pid a perm s = some (r, s')) : s.asked <:+ s'.asked := by
  unfold tryPage at hcall
  obtain ⟨⟨mem, s₁⟩, ha, hcall⟩ := Option.bind_eq_some_iff.mp hcall
  simp only at hcall
  split at hcall
  · cases hcall
    exact alloc_asked ha
  · obtain ⟨⟨ret, s₂⟩, hmap, hcall⟩ := Option.bind_eq_some_iff.mp hcall
    have hs₂ : s.asked <:+ s₂.asked := (alloc_asked ha).trans (by simpa using mappages_asked hmap)
    simp only at hcall
    split at hcall
    · cases hcall
      exact hs₂
    · obtain ⟨s₃, hf, heq⟩ := Option.map_eq_some_iff.mp hcall
      cases heq
      rw [free_asked hf]
      exact hs₂

/-- The second attempt has filled `[lo, k)` of `[lo, hi)`, each page with a block of its own. -/
structure Filling (arch : Arch) (pid : Nat) (s₀ : Vmem) (live₀ : List Block) (lo hi k : Nat) (s : Vmem)
    (live : List Block) : Prop where
  grown : Grown arch (inRange pid lo hi) s₀ s live₀ live
  le : lo ≤ k
  single : ∀ v, lo ≤ v → v < k →
    ∃ q, (s.leaf pid v).pa = s.pmem.pageAddr q ∧ ⟨q, 0⟩ ∈ live ∧ ¬LivePage live₀ q
  vacant : s.Vacant pid k hi
  /-- a page beyond the end of the address space is a panic -/
  top : lo < k → k * PGSIZE < MAXVA arch + PGSIZE

namespace Filling

variable {k perm : Nat}

theorem start (hg : Grown arch (inRange pid lo hi) s₀ s live₀ live)
    (hvac : s.Vacant pid lo hi) : Filling arch pid s₀ live₀ lo hi lo s live where
  grown := hg
  le := le_refl _
  single := fun _ h1 h2 => absurd h2 (Nat.not_lt.mpr h1)
  vacant := hvac
  top := fun h => absurd h (Nat.lt_irrefl _)

/-- One page of the second attempt. -/
theorem tryPage {r : Option Bool} (h : Filling arch pid s₀ live₀ lo hi k s live) (hk : k < hi)
    (hsafe : s'.Safe) (hcall : tryPage arch pid (k * PGSIZE) perm s = some (r, s')) :
    (r = none ∧ ∃ live', Filling arch pid s₀ live₀ lo hi k s' live') ∨
      (r = some true ∧ k * PGSIZE < MAXVA arch ∧
        ∃ live', Filling arch pid s₀ live₀ lo hi (k + 1) s' live') := by
  unfold Vmem.tryPage at hcall
  obtain ⟨⟨mem, s₁⟩, ha, hcall⟩ := Option.bind_eq_some_iff.mp hcall
  simp only at hcall
  split at hcall
  · rename_i hnull
    cases hcall
    obtain ⟨-, hga⟩ | ⟨b, -, hne, -⟩ := h.grown.ok.alloc hsafe ha
    · refine .inl ⟨rfl, live, h.grown.trans (hga.mono fun _ _ h => h.elim), h.le, ?_, ?_, h.top⟩
      · intro v h1 h2
        rw [hga.leaf_eq]
        obtain ⟨q, hpa, hq⟩ := h.single v h1 h2
        exact ⟨q, by rw [hpa, hga.same.pageAddr], hq⟩
      · intro v h1 h2
        rw [hga.leaf_eq]
        exact h.vacant v h1 h2
    · exact absurd hnull hne
  · rename_i hne
    obtain ⟨⟨ret, s₂⟩, hmap, hcall⟩ := Option.bind_eq_some_iff.mp hcall
    have hs₂ : s₂.Safe := Safe.of_undo hsafe hcall
    have hs₁ : s₁.Safe := hs₂.of_suffix (by simpa using mappages_asked hmap)
    have hmap' : mappages arch pid (k * PGSIZE) mem (1 * PGSIZE) (userPerm arch perm)
        (s₁.memset mem (1 * PGSIZE)) = some (ret, s₂) := by simpa only [Nat.one_mul] using hmap
    have hleaf : (s₁.memset mem (1 * PGSIZE)).leaf = s.leaf := (alloc_frame ha).1
    obtain ⟨b, hptr, hord, hg, hpages⟩ := h.grown.fresh hs₁ (le_refl (1 : Int)) hne ha
    obtain ⟨⟨hva, rfl⟩, live', hg', hsub, hmaps⟩ := mappages_spec hg hs₂ hptr Nat.one_pos (by decide)
      (fun v h1 h2 => ⟨rfl, by have := h.le; omega, by omega⟩)
      (fun v h1 h2 => by rw [hleaf]; exact h.vacant v h1 (by omega)) hpages
      (flags_userPerm arch · perm) hmap'
    simp only [if_true] at hcall
    cases hcall
    refine .inr ⟨rfl, hva, live', hg', by have := h.le; omega, ?_, ?_, by simp only [PGSIZE] at *; omega⟩
    · intro v h1 h2
      rw [hmaps pid v]
      by_cases hv : v < k
      · rw [if_neg (by omega), hleaf]
        obtain ⟨q, hpa, hq, hnew⟩ := h.single v h1 hv
        refine ⟨q, ?_, hsub _ (List.mem_cons_of_mem _ hq), hnew⟩
        rw [hpa, hg'.same.pageAddr, h.grown.same.pageAddr]
      · obtain rfl : v = k := by omega
        rw [if_pos (by omega), Nat.sub_self, Nat.add_zero]
        have hzero : b = ⟨b.page, 0⟩ := block_of_getOrder_one hord
        refine ⟨b.page, ?_, ?_, (hpages 0 Nat.one_pos).1⟩
        · rw [hg.same.pageAddr, hg'.same.pageAddr]
        · rw [← hzero]
          exact hsub _ (List.mem_cons_self ..)
    · intro v h1 h2
      rw [hmaps pid v, if_neg (by omega), hleaf]
      exact h.vacant v (by omega) h2

/-- The pages filled so far are unmapped again, and their blocks are free. -/
theorem unmapped (h₀ : s₀.Ok arch live₀) (h : Filling arch pid s₀ live₀ lo hi k s live) (hk : k ≤ hi)
    (hu : Unmapped true s s' pid lo k live live') :
    Grown arch (inRange pid lo hi) s₀ s' live₀ live' := by
  have hg := h.grown
  -- a block with a page in the range is the block of that page, which is new
  have htouch : ∀ b ∈ live, s.Touched pid lo k b →
      ∃ q v, lo ≤ v ∧ v < k ∧ b = ⟨q, 0⟩ ∧ ¬LivePage live₀ q ∧ s.Holds (.leaf pid v) (s.pmem.pageAddr q) := by
    rintro b hb ⟨v, h1, h2, hv, q, hq, hpa⟩
    obtain ⟨q', hpa', hlive, hnew⟩ := h.single v h1 h2
    obtain rfl : q = q' := Pmem.pageAddr_inj (hpa.symm.trans hpa')
    exact ⟨q, v, h1, h2, hg.ok.wf.eq_of_mem hb hlive hq (Block.page_mem _), hnew, hv, hpa⟩
  refine ⟨hg.ok.unmapped hu ?_, ?_, ?_, ?_, ?_, hg.same.trans hu.same, ?_, ?_⟩
  · rintro - b hb ht q hq x hx
    obtain ⟨q', v, h1, h2, rfl, hnew, hold⟩ := htouch b hb ht
    obtain rfl : q = q' := by
      simp only [Block.mem_def, pow_zero] at hq
      omega
    rcases hg.one x (.leaf pid v) _ hx hold with heq | ⟨hx₀, -⟩
    · exact ⟨v, h1, h2, heq⟩
    · obtain ⟨q'', heq, hlive⟩ := h₀.held x _ hx₀
      rw [hg.same.pageAddr] at heq
      rw [Pmem.pageAddr_inj heq] at hnew
      exact absurd hlive hnew
  · intro pid' v hv
    rw [hu.leaf_off, hg.leaf pid' v hv]
    rintro ⟨rfl, h1, h2⟩
    exact hv ⟨rfl, h1, by omega⟩
  · intro pid' l i hne
    rw [hu.dir]
    exact hg.dir pid' l i hne
  · intro x q hx hq
    exact hg.new x q (hu.holds hx).1 hq
  · intro x y a hx hy
    exact hg.one x y a (hu.holds hx).1 (hu.holds hy).1
  · intro b hb
    refine (hu.live b).mpr ⟨hg.sub b hb, ?_⟩
    rintro ⟨-, ht⟩
    obtain ⟨q, v, -, -, rfl, hnew, -⟩ := htouch b (hg.sub b hb) ht
    exact hnew ⟨_, hb, Block.page_mem _⟩
  · rw [hu.mem]
    exact hg.mem

/-- The clean-up after a failure unmaps what was filled. -/
theorem uvmdealloc_unmapped {r : Nat} (h : Filling arch pid s₀ live₀ lo hi k s live)
    (hsmall : k - lo < 2 ^ 31)
    (hcall : Vmem.uvmdealloc arch pid (k * PGSIZE) (lo * PGSIZE) s = some (r, s')) :
    ∃ live', Unmapped true s s' pid lo k live live' := by
  have hwf := h.grown.ok.wf
  unfold Vmem.uvmdealloc at hcall
  split at hcall
  · rename_i hge
    cases hcall
    refine ⟨live, Unmapped.refl hwf ?_⟩
    simp only [PGSIZE] at hge
    omega
  · rename_i hlt
    have hmax := MAXVA_le arch
    have hlk : lo < k := by
      simp only [PGSIZE] at hlt
      omega
    have htop := h.top hlk
    have hup : ∀ v, v ≤ k → pgRoundUp (v * PGSIZE) = v * PGSIZE := by
      intro v hv
      simp only [pgRoundUp, alignUp, add64, PGSIZE] at *
      omega
    rw [hup lo h.le, hup k (le_refl _), if_pos (Nat.not_le.mp hlt)] at hcall
    obtain ⟨s₁, hun, heq⟩ := Option.map_eq_some_iff.mp hcall
    cases heq
    have hlo : lo * PGSIZE / PGSIZE = lo := Nat.mul_div_cancel _ (by decide)
    have hcount : (k * PGSIZE - lo * PGSIZE) / PGSIZE = k - lo := by
      simp only [PGSIZE]
      omega
    have hend : endPage (lo * PGSIZE) (k - lo) = k := by
      simp only [endPage, add64, PGSIZE] at *
      omega
    rw [hcount, toU64_toInt32_of_lt hsmall] at hun
    rcases vmunmap_spec true hwf (Nat.mul_mod_left _ _) (h.grown.ok.readable pid _ _) with
      ⟨-, hnone⟩ | ⟨s₂, live', hsome, hu⟩
    · rw [hnone] at hun
      cases hun
    · rw [hsome] at hun
      cases hun
      rw [hlo, hend] at hu
      exact ⟨live', hu⟩

theorem uvmdealloc {r : Nat} (h₀ : s₀.Ok arch live₀) (h : Filling arch pid s₀ live₀ lo hi k s live)
    (hk : k ≤ hi) (hsmall : hi - lo < 2 ^ 31)
    (hcall : uvmdealloc arch pid (k * PGSIZE) (lo * PGSIZE) s = some (r, s')) :
    ∃ live', Grown arch (inRange pid lo hi) s₀ s' live₀ live' := by
  obtain ⟨live', hu⟩ := h.uvmdealloc_unmapped (by omega) hcall
  exact ⟨live', h.unmapped h₀ hk hu⟩

end Filling

theorem lt_pageCeil : k < pageCeil a ↔ k * PGSIZE < a := by
  simp only [pageCeil, PGSIZE]
  omega

theorem add64_page (h : k * PGSIZE < MAXVA arch) : add64 (k * PGSIZE) PGSIZE = (k + 1) * PGSIZE := by
  have := MAXVA_le arch
  simp only [add64, PGSIZE] at *
  omega

theorem tryPage_lt (hcall : tryPage arch pid a perm s = some (some true, s')) : a < MAXVA arch := by
  unfold tryPage at hcall
  obtain ⟨⟨mem, s₁⟩, -, hcall⟩ := Option.bind_eq_some_iff.mp hcall
  simp only at hcall
  split at hcall
  · cases hcall
  · obtain ⟨⟨ret, s₂⟩, hmap, -⟩ := Option.bind_eq_some_iff.mp hcall
    unfold mappages at hmap
    split at hmap
    · cases hmap
    · rename_i hva
      omega

/-- The clean-up leaves nothing of the second attempt behind that was not there before. -/
def Undoes (arch : Arch) (pid : Nat) (s₀ : Vmem) (live₀ : List Block) (lo end_ : Nat)
    (undo : Nat → Option Bool → Vmem → Option (Int × Vmem)) : Prop :=
  ∀ k made t t' r, k ≤ pageCeil end_ → undo (k * PGSIZE) made t = some (r, t') →
    t'.asked = t.asked ∧ ∀ live, Filling arch pid s₀ live₀ lo (pageCeil end_) k t live →
      ∃ live', Grown arch (inRange pid lo (pageCeil end_)) s₀ t' live₀ live'

theorem undoGrow_undoes {start : Nat} (h₀ : s₀.Ok arch live₀)
    (hsmall : pageCeil end_ - lo < 2 ^ 31) (hstart : lo * PGSIZE = start) :
    Undoes arch pid s₀ live₀ lo end_ (undoGrow arch pid start) := by
  subst hstart
  intro k made t t' r hk hcall
  obtain ⟨⟨m, t₁⟩, hun, heq⟩ := Option.map_eq_some_iff.mp hcall
  cases heq
  exact ⟨uvmdealloc_asked hun, fun live h => h.uvmdealloc h₀ hk hsmall hun⟩

theorem undoAlloc_undoes {start : Nat} (h₀ : s₀.Ok arch live₀)
    (hsmall : pageCeil end_ - lo < 2 ^ 31) (hstart : lo * PGSIZE = start) :
    Undoes arch pid s₀ live₀ lo end_ (undoAlloc arch pid start) := by
  intro k made t t' r hk hcall
  unfold undoAlloc at hcall
  split at hcall
  · cases hcall
  · exact undoGrow_undoes h₀ hsmall hstart k made t t' r hk hcall

theorem undoAlloc1_undoes : Undoes arch pid s₀ live₀ lo end_ undoAlloc1 := by
  intro k made t t' r hk hcall
  cases hcall

/-- The second attempt fills the range, or its clean-up undoes what it did. -/
theorem fillLoop_spec {done : Int} (hundo : Undoes arch pid s₀ live₀ lo end_ undo)
    (hcall : fillLoop arch pid end_ perm done undo n (k * PGSIZE) s = some (r, s')) :
    s.asked <:+ s'.asked ∧
      ∀ live, s'.Safe → Filling arch pid s₀ live₀ lo (pageCeil end_) k s live →
        ∃ live', Grown arch (inRange pid lo (pageCeil end_)) s₀ s' live₀ live' := by
  induction n generalizing s k with
  | zero =>
    rw [fillLoop] at hcall
    split at hcall
    · cases hcall
    · cases hcall
      exact ⟨List.suffix_rfl, fun live _ h => ⟨live, h.grown⟩⟩
  | succ n ih =>
    rw [fillLoop] at hcall
    split at hcall
    · rename_i hlt
      have hk : k < pageCeil end_ := lt_pageCeil.mpr hlt
      obtain ⟨⟨made, s₁⟩, hpage, hcall⟩ := Option.bind_eq_some_iff.mp hcall
      have hs₁ := tryPage_asked hpage
      simp only at hcall
      split at hcall
      · rename_i hmade
        subst hmade
        rw [add64_page (tryPage_lt hpage)] at hcall
        obtain ⟨hs', hrest⟩ := ih hcall
        refine ⟨hs₁.trans hs', fun live hsafe h => ?_⟩
        rcases h.tryPage hk (hsafe.of_suffix hs') hpage with ⟨hr, -⟩ | ⟨-, -, live₁, h₁⟩
        · cases hr
        · exact hrest live₁ hsafe h₁
      · rename_i hmade
        obtain ⟨hs', hun⟩ := hundo k made s₁ s' r hk.le hcall
        refine ⟨hs' ▸ hs₁, fun live hsafe h => ?_⟩
        have hsafe₁ : s₁.Safe := fun req hreq => hsafe req (hs' ▸ hreq)
        rcases h.tryPage hk hsafe₁ hpage with ⟨-, live₁, h₁⟩ | ⟨hr, -⟩
        · exact hun live₁ h₁
        · exact absurd hr hmade
    · cases hcall
      exact ⟨List.suffix_rfl, fun live _ h => ⟨live, h.grown⟩⟩

/-- The range from the page at `start` up to `end_` can be mapped afresh. -/
structure CanMap (s : Vmem) (pid start end_ : Nat) : Prop where
  aligned : start % PGSIZE = 0
  small : pageCeil end_ - start / PGSIZE < 2 ^ 31
  vacant : s.Vacant pid (start / PGSIZE) (pageCeil end_)

/-- The two attempts one after the other. -/
theorem attempts_spec {start : Nat} {tr : Tried} (h : s.Ok arch live) (hsafe : s'.Safe)
    (hstart : lo * PGSIZE = start) (hle : lo ≤ pageCeil end_) (hsmall : pageCeil end_ - lo < 2 ^ 31)
    (hvac : s.Vacant pid lo (pageCeil end_)) (hundo : Undoes arch pid s live lo end_ undo)
    (hblock : tryBlock arch pid start (pageCeil end_ - lo) perm s = some (tr, s₁))
    (hrest : s' = s₁ ∨
      tr ≠ .mapped ∧ ∃ n done r, fillLoop arch pid end_ perm done undo n start s₁ = some (r, s')) :
    ∃ live', Grown arch (inRange pid lo (pageCeil end_)) s s' live live' := by
  subst hstart
  have hhi : lo + (pageCeil end_ - lo) = pageCeil end_ := by omega
  have hspec : s₁.Safe → ∃ live', Grown arch (inRange pid lo (pageCeil end_)) s s₁ live live' ∧
      (tr = .mapped ∨ tr = .noMemory ∧ s₁.leaf = s.leaf) := by
    intro hs₁
    have hb := tryBlock_spec h hs₁ hsmall (hhi.symm ▸ hvac) hblock
    rwa [hhi] at hb
  rcases hrest with rfl | ⟨htr, _, _, _, hloop⟩
  · obtain ⟨live', hg, -⟩ := hspec hsafe
    exact ⟨live', hg⟩
  · obtain ⟨hsuf, hfill⟩ := fillLoop_spec hundo hloop
    obtain ⟨live₁, hg, hmapped | ⟨-, hleaf⟩⟩ := hspec (hsafe.of_suffix hsuf)
    · exact absurd hmapped htr
    · refine hfill live₁ hsafe (Filling.start hg ?_)
      intro v h1 h2
      rw [hleaf]
      exact hvac v h1 h2

/-- What a routine that maps the range did: it added memory there, or nothing. -/
def GrownIn (arch : Arch) (s s' : Vmem) (live : List Block) (pid start end_ : Nat) : Prop :=
  ∃ live', Grown arch (inRange pid (start / PGSIZE) (pageCeil end_)) s s' live live'

/-- The number of pages that the routines compute. -/
theorem CanMap.npages {start : Nat} (h : s.CanMap pid start end_)
    (hle : start / PGSIZE ≤ pageCeil end_) (hend : end_ < 2 ^ 64) :
    start / PGSIZE * PGSIZE = start ∧
      sub64 (pgRoundUp end_) start / PGSIZE = pageCeil end_ - start / PGSIZE := by
  have hal := h.aligned
  have hsmall := h.small
  constructor
  · simp only [PGSIZE] at *
    omega
  · simp only [pgRoundUp, alignUp, add64, sub64, pageCeil, PGSIZE] at *
    omega

theorem pgRoundUp_le_pageCeil (hle : oldsz ≤ newsz) : pgRoundUp oldsz / PGSIZE ≤ pageCeil newsz := by
  simp only [pgRoundUp, alignUp, add64, pageCeil, PGSIZE] at *
  omega

theorem uvmalloc_spec (h : s.Ok arch live) (hsafe : s'.Safe)
    (hcan : s.CanMap pid (pgRoundUp oldsz) newsz) (hnew : newsz < 2 ^ 64)
    (hcall : uvmalloc arch pid oldsz newsz perm s = some (r, s')) :
    GrownIn arch s s' live pid (pgRoundUp oldsz) newsz := by
  unfold uvmalloc at hcall
  split at hcall
  · cases hcall
    exact ⟨live, Grown.refl h⟩
  · rename_i hge
    have hle := pgRoundUp_le_pageCeil (Nat.not_lt.mp hge)
    obtain ⟨hstart, hnp⟩ := hcan.npages hle hnew
    simp only [hnp] at hcall
    obtain ⟨⟨tr, s₁⟩, hblock, hcall⟩ := Option.bind_eq_some_iff.mp hcall
    have hundo := @undoAlloc_undoes arch s live pid _ _ _ h hcan.small hstart
    cases tr with
    | mapped =>
      cases hcall
      exact attempts_spec h hsafe hstart hle hcan.small hcan.vacant hundo hblock (.inl rfl)
    | refused =>
      cases hcall
      exact attempts_spec h hsafe hstart hle hcan.small hcan.vacant hundo hblock (.inl rfl)
    | noMemory =>
      exact attempts_spec h hsafe hstart hle hcan.small hcan.vacant hundo hblock
        (.inr ⟨by decide, _, _, _, hcall⟩)

theorem uvmalloc1_spec {start : Nat} (h : s.Ok arch live) (hsafe : s'.Safe)
    (hcan : s.CanMap pid start end_) (hend : end_ < 2 ^ 64)
    (hcall : uvmalloc1 arch pid start end_ perm s = some (r, s')) :
    GrownIn arch s s' live pid start end_ := by
  unfold uvmalloc1 at hcall
  split at hcall
  · cases hcall
  · rename_i hlt
    have hle : start / PGSIZE ≤ pageCeil end_ := by
      simp only [pageCeil, PGSIZE]
      omega
    obtain ⟨hstart, hnp⟩ := hcan.npages hle hend
    simp only [hnp] at hcall
    obtain ⟨⟨tr, s₁⟩, hblock, hcall⟩ := Option.bind_eq_some_iff.mp hcall
    cases tr with
    | mapped =>
      cases hcall
      exact attempts_spec h hsafe hstart hle hcan.small hcan.vacant undoAlloc1_undoes hblock (.inl rfl)
    | refused =>
      exact attempts_spec h hsafe hstart hle hcan.small hcan.vacant undoAlloc1_undoes hblock
        (.inr ⟨by decide, _, _, _, hcall⟩)
    | noMemory =>
      exact attempts_spec h hsafe hstart hle hcan.small hcan.vacant undoAlloc1_undoes hblock
        (.inr ⟨by decide, _, _, _, hcall⟩)

theorem uvmGrow_spec {xperm : Nat} (h : s.Ok arch live) (hsafe : s'.Safe)
    (hcan : s.CanMap pid (pgRoundUp oldsz) newsz) (hnew : newsz < 2 ^ 64)
    (hcall : uvmGrow arch pid oldsz newsz xperm s = some (r, s')) :
    GrownIn arch s s' live pid (pgRoundUp oldsz) newsz := by
  unfold uvmGrow at hcall
  split at hcall
  · cases hcall
    exact ⟨live, Grown.refl h⟩
  · rename_i hlt
    have hle := pgRoundUp_le_pageCeil (Nat.le_of_lt (Nat.not_le.mp hlt))
    obtain ⟨hstart, hnp⟩ := hcan.npages hle hnew
    simp only [hnp] at hcall
    obtain ⟨⟨tr, s₁⟩, hblock, hcall⟩ := Option.bind_eq_some_iff.mp hcall
    have hundo := @undoGrow_undoes arch s live pid _ _ _ h hcan.small hstart
    cases tr with
    | mapped =>
      cases hcall
      exact attempts_spec h hsafe hstart hle hcan.small hcan.vacant hundo hblock (.inl rfl)
    | refused =>
      exact attempts_spec h hsafe hstart hle hcan.small hcan.vacant hundo hblock
        (.inr ⟨by decide, _, _, _, hcall⟩)
    | noMemory =>
      exact attempts_spec h hsafe hstart hle hcan.small hcan.vacant hundo hblock
        (.inr ⟨by decide, _, _, _, hcall⟩)

end Vmem

end SC7
