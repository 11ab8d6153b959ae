-- SUMMARY: `fork` maps the pages of shared mappings in the child.
import SC7.Mem.ShmSteps

/-!
# `fork` and shared mappings

`fork` fills the page table of the child and never replaces an entry (`Fills`). Its first two rounds
stay out of the shared mappings. The third takes the pages of a shared mapping from the segment; since
every page that the parent has mapped is in the segment, the child gets the same pages.
-/

namespace SC7

open Function (update update_of_ne)

/-- Entries are added in the pages `P`. -/
def Fills (P : Nat → Prop) (c c' : Nat → Pte) : Prop :=
  ∀ vpn, c' vpn = c vpn ∨ ((c vpn).valid = false ∧ P vpn)

namespace Fills

variable {P Q : Nat → Prop} {c c' c'' : Nat → Pte} {v : Vma} {shm : Nat → ShmidKernel}

theorem refl : Fills P c c := fun _ => .inl rfl

theorem trans (h₁ : Fills P c c') (h₂ : Fills P c' c'') : Fills P c c'' := by
  intro vpn
  rcases h₁ vpn with heq | hnew
  · rcases h₂ vpn with heq' | ⟨hv, hP⟩
    · exact .inl (heq'.trans heq)
    · rw [heq] at hv
      exact .inr ⟨hv, hP⟩
  · exact .inr hnew

theorem mono (h : Fills P c c') (hPQ : ∀ vpn, P vpn → Q vpn) : Fills Q c c' := fun vpn =>
  (h vpn).imp_right fun hnew => ⟨hnew.1, hPQ vpn hnew.2⟩

theorem of_mapped {perm lo hi : Nat} (h : Leaf.Mapped perm lo hi c c') :
    Fills (fun vpn => lo ≤ vpn ∧ vpn ≤ hi) c c' := fun vpn =>
  (h vpn).imp_right fun hnew => ⟨hnew.1, hnew.2.2⟩

theorem valid (h : Fills P c c') {vpn : Nat} (hv : (c vpn).valid = true) : (c' vpn).valid = true := by
  rcases h vpn with heq | ⟨hno, -⟩
  · rwa [heq]
  · rw [hno] at hv
    cases hv

/-- An area outside the pages is backed as before. -/
theorem backed (h : Fills P c c') (hb : Backed shm c v) (hout : ∀ vpn, v.HasPage vpn → ¬P vpn) :
    Backed shm c' v :=
  hb.outside fun vpn hp => (h vpn).resolve_right fun hnew => hout vpn hp hnew.2

end Fills

namespace Space

variable {arch : Arch} {s s' : Space} {child child' : Nat → Pte} {origin : Nat → Nat} {v : Vma}
  {va n lo trampoline trapframe sigtrampoline vpn i : Nat} {shm : Nat → ShmidKernel} {mm : Mm} {copyNow : Bool}
  {vs : List Vma}

/-- The parent keeps its areas and its page table, and the segments stay. -/
structure SameAreas (s s' : Space) : Prop where
  mm : s'.toMm = s.toMm
  shm : s'.shm = s.shm

theorem SameAreas.refl : SameAreas s s := ⟨rfl, rfl⟩

theorem SameAreas.trans {t : Space} (h₁ : SameAreas s s') (h₂ : SameAreas s' t) : SameAreas s t :=
  ⟨h₂.mm.trans h₁.mm, h₂.shm.trans h₁.shm⟩

theorem allocNode_sameAreas (h : s.allocNode = some s') : SameAreas s s' :=
  ⟨allocNode_toMm h, (allocNode_sameShm h).shm⟩

/-! ## The pages of the program -/

theorem copyPage_fills (h : copyPage arch va child s = some (child', s')) : SameAreas s s' ∧ va < MAXVA arch ∧
      Fills (fun vpn => va / PGSIZE ≤ vpn ∧ vpn ≤ (va + PGSIZE - 1) / PGSIZE) child child' := by
  rw [copyPage] at h
  split at h
  · cases h
  rename_i hlt
  split at h
  · cases h
    exact ⟨.refl, not_le.mp hlt, .refl⟩
  obtain ⟨s₁, hnode, h⟩ := Option.bind_eq_some_iff.mp h
  obtain ⟨⟨r, c⟩, hmap, heq⟩ := Option.map_eq_some_iff.mp h
  cases heq
  have hmax := Leaf.maxva_lt arch
  have hwrap : va + PGSIZE ≤ 2 ^ 64 := by
    simp only [PGSIZE]
    omega
  exact ⟨allocNode_sameAreas hnode, not_le.mp hlt, .of_mapped (Leaf.mappages_mapped (by decide) hwrap hmap)⟩

theorem copyLoop_fills (h : copyLoop arch n (lo * PGSIZE) child s = some (child', s')) :
    SameAreas s s' ∧ Fills (PagesFrom lo n) child child' := by
  induction n generalizing lo child s with
  | zero =>
    cases h
    exact ⟨.refl, .refl⟩
  | succ n ih =>
    rw [copyLoop] at h
    obtain ⟨⟨c, s₁⟩, hpage, h⟩ := Option.bind_eq_some_iff.mp h
    obtain ⟨hsame, hlt, hfills⟩ := copyPage_fills hpage
    dsimp only at h
    rw [next_page_lt hlt] at h
    obtain ⟨hsame', hfills'⟩ := ih h
    refine ⟨hsame.trans hsame', (hfills.mono fun vpn hp => ?_).trans (hfills'.mono fun _ => PagesFrom.rest)⟩
    unfold PagesFrom
    simp only [PGSIZE] at hp ⊢
    omega

/-- The pages that the first two rounds can fill. -/
def Early (arch : Arch) (sz vpn : Nat) : Prop := Reserved arch vpn ∨ vpn * PGSIZE < sz

theorem uvmcopy_fills (h : uvmcopy arch child s = some (child', s')) :
    SameAreas s s' ∧ Fills (Early arch s.sz) child child' := by
  rw [uvmcopy] at h
  obtain ⟨⟨c₁, s₁⟩, hzero, h⟩ := Option.bind_eq_some_iff.mp h
  obtain ⟨⟨c₂, s₂⟩, hextra, h⟩ := Option.bind_eq_some_iff.mp h
  obtain ⟨hsame₁, hfills₁⟩ : SameAreas s s₁ ∧ Fills (Early arch s.sz) child c₁ := by
    split at hzero
    · obtain ⟨hsame, -, hfills⟩ := copyPage_fills hzero
      refine ⟨hsame, hfills.mono fun vpn hp => .inl (.inl ?_)⟩
      simp only [PGSIZE] at hp
      omega
    · cases hzero
      exact ⟨.refl, .refl⟩
  obtain ⟨hsame₂, hfills₂⟩ : SameAreas s₁ s₂ ∧ Fills (Early arch s.sz) c₁ c₂ := by
    cases arch with
    | riscv =>
      obtain ⟨hsame, -, hfills⟩ := copyPage_fills hextra
      refine ⟨hsame, hfills.mono fun vpn hp => .inl (.inr (.inr (.inr (.inr ⟨rfl, ?_⟩))))⟩
      simp only [extraAddr, PGSIZE] at hp ⊢
      omega
    | loongarch =>
      cases hextra
      exact ⟨.refl, .refl⟩
  have hsz : s₂.sz = s.sz := congrArg Mm.sz (hsame₂.mm.trans hsame₁.mm)
  obtain ⟨hsame₃, hfills₃⟩ := copyLoop_fills h
  refine ⟨(hsame₁.trans hsame₂).trans hsame₃, (hfills₁.trans hfills₂).trans (hfills₃.mono fun vpn hp => .inr ?_)⟩
  obtain ⟨hlo, hhi⟩ := hp
  rw [← hsz]
  simp only [Vmem.pageCeil, pgRoundDown, PGSIZE] at *
  omega

theorem procPagetable_reserved
    (h : (procPagetable arch trampoline trapframe sigtrampoline vpn).valid = true) : Reserved arch vpn := by
  rw [procPagetable] at h
  by_cases hsig : vpn = SIGTRAMPOLINE arch / PGSIZE
  · exact .inr (.inr (.inr (.inl hsig)))
  rw [update_of_ne hsig] at h
  by_cases hframe : vpn = TRAPFRAME arch / PGSIZE
  · exact .inr (.inr (.inl hframe))
  rw [update_of_ne hframe] at h
  by_cases htramp : vpn = TRAMPOLINE arch / PGSIZE
  · exact .inr (.inl htramp)
  rw [update_of_ne htramp] at h
  cases h

/-- A shared mapping has none of the pages of the first two rounds. -/
theorem not_early (h : SharedOk arch shm origin mm v) (hp : v.HasPage vpn) : ¬Early arch mm.sz vpn := by
  rintro (hres | hlt)
  · exact h.free vpn hp hres
  · exact absurd (h.heap.trans hp.1) (not_le.mpr hlt)

/-! ## The pages of the areas -/

theorem allocTwice_sameAreas {mem : Nat} (h : allocTwice s = some (mem, s')) : SameAreas s s' := by
  refine ⟨allocTwice_toMm h, ?_⟩
  rw [allocTwice] at h
  dsimp only at h
  split at h
  · cases h
    rfl
  split at h
  · cases h
    rfl
  · cases h

theorem mappages_page_fills {pa perm : Nat} {r : Int} (hal : va % PGSIZE = 0)
    (h : Leaf.mappages arch va pa PGSIZE perm child = some (r, child')) :
    Fills (· = va / PGSIZE) child child' :=
  (Fills.of_mapped (Leaf.mappages_page hal h)).mono fun _ hp => le_antisymm hp.2 hp.1

theorem mapPage_fills (hal : va % PGSIZE = 0) (h : mapPage arch copyNow va child s = some (child', s')) :
    SameAreas s s' ∧ va < MAXVA arch ∧ Fills (· = va / PGSIZE) child child' := by
  rw [mapPage] at h
  dsimp only at h
  split at h
  · cases h
  rename_i hlt
  split at h
  · cases h
    exact ⟨.refl, not_le.mp hlt, .refl⟩
  split at h
  · cases h
    exact ⟨.refl, not_le.mp hlt, .refl⟩
  obtain ⟨⟨pa, s₁⟩, halloc, h⟩ := Option.bind_eq_some_iff.mp h
  obtain ⟨⟨r, c⟩, hmap, h⟩ := Option.bind_eq_some_iff.mp h
  have hsame : SameAreas s s₁ := by
    split at halloc
    · exact allocTwice_sameAreas halloc
    · cases halloc
      exact .refl
  dsimp only at h
  split at h
  · cases h
  · cases h
    exact ⟨hsame, not_le.mp hlt, mappages_page_fills hal hmap⟩

theorem mapLoop_fills {end_ : Nat} (h : mapLoop arch copyNow end_ n (lo * PGSIZE) child s = some (child', s')) :
    SameAreas s s' ∧ Fills (fun vpn => lo ≤ vpn ∧ vpn * PGSIZE < end_) child child' := by
  induction n generalizing lo child s with
  | zero =>
    rw [mapLoop] at h
    split at h
    · cases h
    · cases h
      exact ⟨.refl, .refl⟩
  | succ n ih =>
    rw [mapLoop] at h
    split at h
    · rename_i hend
      obtain ⟨⟨c, s₁⟩, hpage, h⟩ := Option.bind_eq_some_iff.mp h
      obtain ⟨hsame, hlt, hfills⟩ := mapPage_fills page_mod hpage
      dsimp only at h
      rw [next_page_lt hlt] at h
      obtain ⟨hsame', hfills'⟩ := ih h
      refine ⟨hsame.trans hsame', (hfills.mono ?_).trans (hfills'.mono ?_)⟩
      · rintro vpn rfl
        rw [page_div]
        exact ⟨le_rfl, hend⟩
      · exact fun vpn hp => ⟨(Nat.le_succ lo).trans hp.1, hp.2⟩
    · cases h
      exact ⟨.refl, .refl⟩

/-- What the third round does for a page `lo + k` of a shared mapping. -/
structure SharesPage (s : Space) (v : Vma) (P : Nat → Prop) (child child' : Nat → Pte) : Prop where
  fills : Fills P child child'
  backed : Backed s.shm child' v
  mapped : ∀ vpn, P vpn → (s.leaf vpn).valid = true → (child' vpn).valid = true

theorem mapSharedPage_shares (hok : SharedOk arch s.shm origin s.toMm v)
    (hal : v.addr % PGSIZE = 0 ∧ v.end_ % PGSIZE = 0) (hp : v.HasPage vpn)
    (hi : i = vpn - v.addr / PGSIZE) (hsmall : ((s.shm v.shmKernel).shmPages.getD []).length < 2 ^ 31)
    (hc : Backed s.shm child v)
    (h : mapSharedPage arch v i (vpn * PGSIZE) child s = some (child', s')) :
    s' = s ∧ vpn * PGSIZE < MAXVA arch ∧ SharesPage s v (· = vpn) child child' := by
  have hlt := hok.index_lt hal hp
  rw [mapSharedPage] at h
  dsimp only at h
  rw [hok.numPages, toInt32_of_lt hsmall, page_div] at h
  split at h
  · cases h
  rename_i hmax
  rw [not_le] at hmax
  split at h
  · rename_i hvalid
    cases h
    exact ⟨rfl, hmax, .refl, hc, fun k hk _ => hk ▸ hvalid⟩
  rename_i hnew
  split at h
  · rename_i hpage
    obtain ⟨⟨r, c⟩, hmap, h⟩ := Option.bind_eq_some_iff.mp h
    dsimp only at h
    split at h
    · cases h
    rename_i hr
    cases h
    have hfills := mappages_page_fills page_mod hmap
    rcases Leaf.mappages_one page_mod hmap with ⟨rfl, -, -⟩ | ⟨-, -, rfl⟩
    · exact absurd (by decide) hr
    · rw [page_div] at hfills ⊢
      refine ⟨rfl, hmax, hfills, hc.map (by rw [← hi]; rfl) hpage.2, fun k hk _ => ?_⟩
      rw [hk, Function.update_self]
      exact Pte.valid_or _ _
  rename_i hnone
  -- a page that the parent has mapped is in the segment
  have hinvalid : ¬(s.leaf vpn).valid = true := by
    intro hv
    obtain ⟨hseg, hne⟩ := hok.backed vpn hp hv
    refine hnone ⟨?_, ?_⟩
    · rw [hi]
      exact_mod_cast hlt
    · rw [← hseg, ← hi] at hne
      exact hne
  split at h
  · rename_i hv
    rw [pte, page_div] at hv
    exact absurd hv hinvalid
  · cases h
    exact ⟨rfl, hmax, .refl, hc, fun k hk hv => absurd (hk ▸ hv) hinvalid⟩

theorem mapSharedLoop_shares (hok : SharedOk arch s.shm origin s.toMm v)
    (hal : v.addr % PGSIZE = 0 ∧ v.end_ % PGSIZE = 0)
    (hsmall : ((s.shm v.shmKernel).shmPages.getD []).length < 2 ^ 31) (hc : Backed s.shm child v)
    (hn : i + n ≤ (v.end_ - v.addr) / PGSIZE) (hva : va = (v.addr / PGSIZE + i) * PGSIZE)
    (h : mapSharedLoop arch v n i va child s = some (child', s')) :
    s' = s ∧ SharesPage s v (PagesFrom (v.addr / PGSIZE + i) n) child child' := by
  induction n generalizing i va child with
  | zero =>
    cases h
    refine ⟨rfl, .refl, hc, fun vpn hp => ?_⟩
    unfold PagesFrom at hp
    omega
  | succ n ih =>
    rw [mapSharedLoop, hva] at h
    obtain ⟨⟨c, s₁⟩, hpage, hrest⟩ := Option.bind_eq_some_iff.mp h
    have hp : v.HasPage (v.addr / PGSIZE + i) := by
      rw [hasPage_iff hal]
      unfold PagesFrom
      omega
    obtain ⟨rfl, hlt, hfills, hbacked, hmapped⟩ := mapSharedPage_shares hok hal hp (by omega) hsmall hc hpage
    dsimp only at hrest
    rw [next_page_lt hlt, Nat.add_assoc] at hrest
    obtain ⟨rfl, hfills', hbacked', hmapped'⟩ := ih hbacked (by omega) rfl hrest
    refine ⟨rfl, (hfills.mono ?_).trans (hfills'.mono ?_), hbacked', fun vpn hvpn hv => ?_⟩
    · rintro vpn rfl
      exact .first
    · intro vpn hvpn
      rw [← Nat.add_assoc] at hvpn
      exact hvpn.rest
    · by_cases heq : vpn = v.addr / PGSIZE + i
      · exact hfills'.valid (hmapped vpn heq hv)
      · refine hmapped' vpn ?_ hv
        unfold PagesFrom at *
        omega

/-- The third round for one area. -/
theorem vmaMap_shares (h : Shares arch s.shm origin s.toMm) (hv : v ∈ s.vmas)
    (hc : ∀ w ∈ s.vmas, TakesShared w → Backed s.shm child w)
    (hcall : vmaMap arch v child s = some (child', s')) :
    SameAreas s s' ∧ Fills v.HasPage child child' ∧
      (TakesShared v → Backed s.shm child' v ∧
        ∀ vpn, v.HasPage vpn → (s.leaf vpn).valid = true → (child' vpn).valid = true) := by
  have hal := h.aligned v hv
  have haddr : v.addr / PGSIZE * PGSIZE = v.addr := Nat.div_mul_cancel (Nat.dvd_of_mod_eq_zero hal.1)
  rw [vmaMap] at hcall
  dsimp only at hcall
  split at hcall
  · rename_i hsh
    have hok := h.shared v hv hsh
    have hbound := hok.bound
    have hlength := hok.length
    have hfits := hok.fits
    have hcount := hok.count
    split at hcall
    · rename_i hnone
      exact absurd hnone (Option.isSome_iff_ne_none.mp hok.some)
    · have hsmall : ((s.shm v.shmKernel).shmPages.getD []).length < 2 ^ 31 := by
        rw [hlength]
        simp only [Vmem.pageCeil, PGSIZE]
        omega
      have hnum : (toInt32 ((v.size + PGSIZE - 1) % 2 ^ 64 / PGSIZE)).toNat = (v.end_ - v.addr) / PGSIZE := by
        have hsize : (v.size + PGSIZE - 1) % 2 ^ 64 / PGSIZE = Vmem.pageCeil v.size := by
          rw [hlength] at hfits
          simp only [Vmem.pageCeil, PGSIZE] at hfits ⊢
          omega
        rw [hsize, toInt32_of_lt (hfits.trans_lt hsmall), Int.toNat_natCast, hcount]
      rw [hnum] at hcall
      obtain ⟨rfl, hfills, hbacked, hmapped⟩ := mapSharedLoop_shares hok hal hsmall (hc v hv hsh) (by omega)
        (by rw [Nat.add_zero, haddr]) hcall
      refine ⟨.refl, hfills.mono fun vpn hp => (hasPage_iff hal).mpr hp, fun _ => ⟨hbacked, fun vpn hp => ?_⟩⟩
      exact hmapped vpn ((hasPage_iff hal).mp hp)
  · rename_i hnot
    rw [← haddr] at hcall
    obtain ⟨hsame, hfills⟩ := mapLoop_fills hcall
    refine ⟨hsame, hfills.mono fun vpn hp => ⟨?_, hp.2⟩, fun hsh => absurd hsh hnot⟩
    have := Nat.mul_le_mul_right PGSIZE hp.1
    omega

theorem vmaMapAll_shares (hmm : s.toMm = mm)
    (hshm : s.shm = shm) (h : Shares arch shm origin mm) (hvs : ∀ v ∈ vs, v ∈ mm.vmas)
    (hc : ∀ w ∈ mm.vmas, TakesShared w → Backed shm child w)
    (hcall : vmaMapAll arch vs child s = some (child', s')) :
    SameAreas s s' ∧ Fills (fun _ => True) child child' ∧
      (∀ w ∈ mm.vmas, TakesShared w → Backed shm child' w) ∧
      ∀ v ∈ vs, TakesShared v → ∀ vpn, v.HasPage vpn → (mm.leaf vpn).valid = true →
        (child' vpn).valid = true := by
  induction vs generalizing child s with
  | nil =>
    cases hcall
    exact ⟨.refl, .refl, hc, fun v hv => by cases hv⟩
  | cons v vs ih =>
    rw [vmaMapAll] at hcall
    obtain ⟨⟨c, s₁⟩, hmap, hrest⟩ := Option.bind_eq_some_iff.mp hcall
    have hv : v ∈ mm.vmas := hvs v List.mem_cons_self
    obtain ⟨hsame, hfills, hshared⟩ : SameAreas s s₁ ∧ Fills v.HasPage child c ∧
        (TakesShared v → Backed shm c v ∧
          ∀ vpn, v.HasPage vpn → (mm.leaf vpn).valid = true → (c vpn).valid = true) := by
      split at hmap
      · subst hmm
        subst hshm
        exact vmaMap_shares h hv hc hmap
      · rename_i hempty
        cases hmap
        refine ⟨.refl, .refl, fun hsh => ⟨hc v hv hsh, fun vpn hp => ?_⟩⟩
        have hlo := hp.1
        have hhi := hp.2
        omega
    have hbacked : ∀ w ∈ mm.vmas, TakesShared w → Backed shm c w := by
      intro w hw hsh
      by_cases heq : w = v
      · subst heq
        exact (hshared hsh).1
      · exact hfills.backed (hc w hw hsh) fun vpn hwp hvp => heq (h.unique hw hv hwp hvp)
    obtain ⟨hsame', hfills', hbacked', hmapped⟩ := ih (hsame.mm.trans hmm) (hsame.shm.trans hshm)
      (fun w hw => hvs w (List.mem_cons_of_mem _ hw)) hbacked hrest
    refine ⟨hsame.trans hsame', (hfills.mono fun _ _ => trivial).trans hfills', hbacked', ?_⟩
    intro w hw hsh vpn hp hvalid
    rcases List.mem_cons.mp hw with rfl | hw
    · exact hfills'.valid ((hshared hsh).2 vpn hp hvalid)
    · exact hmapped w hw hsh vpn hp hvalid

/-- Another process attaches the segment. -/
theorem vmaCopy_kept (h : vmaCopy vs s = some s') : ShmKept s.shm s'.shm := by
  induction vs generalizing s with
  | nil =>
    cases h
    exact .refl
  | cons v vs ih =>
    rw [vmaCopy] at h
    obtain ⟨s₁, hnode, h⟩ := Option.bind_eq_some_iff.mp h
    refine (allocNode_sameShm hnode).kept.trans ?_
    split at h
    · dsimp only at h
      split at h
      · cases h
      · rename_i hsome
        refine ShmKept.trans (.update ?_ ?_) (ih h)
        · exact fun hpages hne => ⟨rfl, hpages, rfl, hne, fun _ _ => rfl⟩
        · exact fun hmade => hmade v.shmKernel (Option.isSome_iff_ne_none.mpr hsome)
    · exact ih h

/-- The child keeps the pages of the shared mappings together, and has every page that the parent has
in them, at the same physical address. -/
theorem fork_shares (h : Shares arch s.shm origin s.toMm)
    (hcall : fork arch trampoline trapframe sigtrampoline s = some (mm, s')) :
    s'.toMm = s.toMm ∧ ShmKept s.shm s'.shm ∧ Shares arch s'.shm origin mm ∧
      ∀ v ∈ s.vmas, TakesShared v → ∀ vpn, v.HasPage vpn → (s.leaf vpn).valid = true →
        (mm.leaf vpn).valid = true ∧ (mm.leaf vpn).pa = (s.leaf vpn).pa := by
  rw [fork] at hcall
  obtain ⟨⟨c₁, s₁⟩, hcopy, hcall⟩ := Option.bind_eq_some_iff.mp hcall
  obtain ⟨s₂, hnode, hcall⟩ := Option.bind_eq_some_iff.mp hcall
  obtain ⟨s₃, hvmas, hcall⟩ := Option.bind_eq_some_iff.mp hcall
  obtain ⟨⟨c₄, s₄⟩, hmap, heq⟩ := Option.map_eq_some_iff.mp hcall
  obtain ⟨hsame₁, hfills₁⟩ := uvmcopy_fills hcopy
  have hsame₂ := hsame₁.trans (allocNode_sameAreas hnode)
  have hmm₃ : s₃.toMm = s.toMm := (vmaCopy_toMm hvmas).trans hsame₂.mm
  have hkept : ShmKept s.shm s₃.shm := by
    have := vmaCopy_kept hvmas
    rwa [hsame₂.shm] at this
  have h₃ := h.kept hkept
  -- before the third round the child has no page of a shared mapping
  have hbacked : ∀ w ∈ s.vmas, TakesShared w → Backed s₃.shm c₁ w := by
    intro w hw hsh vpn hp hv
    have hok := h₃.shared w hw hsh
    rcases hfills₁ vpn with hsame | ⟨-, hearly⟩
    · rw [hsame] at hv
      exact absurd (procPagetable_reserved hv) (hok.free vpn hp)
    · exact absurd hearly (not_early hok hp)
  obtain ⟨hsame₄, -, hbacked₄, hmapped⟩ := vmaMapAll_shares hmm₃ rfl h₃
    (fun v hv => congrArg Mm.vmas hmm₃ ▸ hv) hbacked hmap
  cases heq
  have hmm : s'.toMm = s.toMm := hsame₄.mm.trans hmm₃
  rw [hmm, hsame₄.shm]
  have hchild : Shares arch s₃.shm origin { s.toMm with leaf := c₄ } := h₃.remap rfl rfl hbacked₄
  refine ⟨rfl, hkept, hchild, fun v hv hsh vpn hp hvalid => ?_⟩
  have hv₃ : v ∈ s₃.vmas := congrArg Mm.vmas hmm₃ ▸ hv
  have hmap := hmapped v hv₃ hsh vpn hp hvalid
  refine ⟨hmap, ?_⟩
  -- both are the page of the segment
  rw [← (hbacked₄ v hv hsh vpn hp hmap).1, ← ((h₃.shared v hv hsh).backed vpn hp hvalid).1]

end Space

end SC7
