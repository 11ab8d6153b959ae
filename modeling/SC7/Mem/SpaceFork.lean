-- SUMMARY: What `fork` must be given for the address space of the child to be sound.
import SC7.Mem.SpaceFault

/-!
# Rights after a `fork`

`fork` fills the page table of the child in three rounds: the pages that every process has, the pages
of the program (`uvmcopy`), and the pages of the VMAs (`vma_map`). A page that is there already stays.
The parent keeps its VMAs and its page table. `ForkMeets` says when no round grants more than the
protections of the mappings, which parent and child have in common.
-/

namespace SC7

open Function (update_of_ne update_self)

/-- No leaf entry in a mapping grants more than its protection. -/
def Fits (arch : Arch) (vmas : List Vma) (leaf : Nat → Pte) : Prop :=
  ∀ v ∈ vmas, v.Mapping → ∀ vpn, v.HasPage vpn → Within arch v.origProt (leaf vpn)

variable {arch : Arch} {vmas : List Vma} {leaf leaf' : Nat → Pte} {perm : Nat}

theorem Within.of_not_user {prot : Int} {pte : Pte} (h : Bits.has pte.flags (PTE_U arch) = false) :
    Within arch prot pte := by
  intro _ hu
  rw [h] at hu
  cases hu

/-- New entries have flags within the protections. -/
theorem Fits.mapped {lo hi : Nat} (h : Fits arch vmas leaf) (hm : Leaf.Mapped perm lo hi leaf leaf')
    (hnew : ∀ v ∈ vmas, v.Mapping → ∀ vpn, v.HasPage vpn → lo ≤ vpn → vpn ≤ hi →
      ∀ pa, Within arch v.origProt ⟨pa, perm ||| PTE_V⟩) : Fits arch vmas leaf' := by
  intro v hv hmapping vpn hp
  rcases hm vpn with hsame | ⟨-, hflags, hlo, hhi⟩
  · rw [hsame]
    exact h v hv hmapping vpn hp
  · have hwithin := hnew v hv hmapping vpn hp hlo hhi (leaf' vpn).pa
    rwa [← hflags] at hwithin

/-- One page is mapped. -/
theorem Fits.page {va pa : Nat} {r : Int} (h : Fits arch vmas leaf) (hal : va % PGSIZE = 0)
    (hmap : Leaf.mappages arch va pa PGSIZE perm leaf = some (r, leaf'))
    (hnew : ∀ v ∈ vmas, v.Mapping → v.HasPage (va / PGSIZE) →
      ∀ pa, Within arch v.origProt ⟨pa, perm ||| PTE_V⟩) : Fits arch vmas leaf' := by
  refine h.mapped (Leaf.mappages_page hal hmap) fun v hv hmapping vpn hp hlo hhi => ?_
  rw [le_antisymm hhi hlo] at hp
  exact hnew v hv hmapping hp

namespace Space

variable {s s' : Space} {child child' : Nat → Pte} {trampoline trapframe sigtrampoline : Nat}

/-- What `fork` must be given. -/
structure ForkMeets (arch : Arch) (mm : Mm) : Prop where
  /-- The trampoline of signal handlers is a user page. -/
  sigtrampoline : ∀ v ∈ mm.vmas, v.Mapping → v.HasPage (SIGTRAMPOLINE arch / PGSIZE) →
    FlagsWithin arch v.origProt (PTE_TRAMPOLINE arch ||| PTE_U arch ||| PTE_V)
  /-- `uvmcopy` loses `PTE_NX`. -/
  program : arch = .loongarch → ∀ v ∈ mm.vmas, v.Mapping → ∀ vpn, v.HasPage vpn →
    (mm.leaf vpn).valid = true →
    (vpn = 0 ∧ 0x100 ≤ pgRoundDown mm.virtAddr) ∨
      (pgRoundDown mm.virtAddr ≤ vpn * PGSIZE ∧ vpn * PGSIZE < mm.sz) →
    hasBits v.origProt PROT_EXEC = true
  /-- The address of the one page above the program is not at its start: the page behind it is mapped
  too, with the same flags. -/
  extra : arch = .riscv → (mm.leaf (extraAddr / PGSIZE)).valid = true → ∀ v ∈ mm.vmas, v.Mapping →
    v.HasPage (extraAddr / PGSIZE + 1) → FlagsWithin arch v.origProt (mm.leaf (extraAddr / PGSIZE)).flags
  /-- So it is with an area that does not start at a page. -/
  aligned : ∀ v ∈ mm.vmas, v.addr ≠ v.end_ → v.addr % PGSIZE = 0
  /-- The pages of a segment get the flags that the area keeps. -/
  shared : ∀ v ∈ mm.vmas, v.addr ≠ v.end_ → TakesShared v → ∀ w ∈ mm.vmas, w.Mapping → ∀ vpn,
    w.HasPage vpn → v.addr ≤ vpn * PGSIZE → vpn * PGSIZE < v.addr + v.size →
    FlagsWithin arch w.origProt (v.perm ||| PTE_U arch)

/-- The next page, below the end of the address space. -/
theorem next_page_lt {lo : Nat} (h : lo * PGSIZE < MAXVA arch) :
    add64 (lo * PGSIZE) PGSIZE = (lo + 1) * PGSIZE := by
  have := Leaf.maxva_lt arch
  simp only [add64, PGSIZE] at *
  omega

theorem allocNode_toMm (h : s.allocNode = some s') : s'.toMm = s.toMm := by
  rw [allocNode] at h
  split at h
  · cases h
  · cases h
    rfl

/-! ## The pages that every process has -/

theorem procPagetable_fits (hmeets : ForkMeets arch s.toMm) :
    Fits arch s.vmas (procPagetable arch trampoline trapframe sigtrampoline) := by
  intro v hv hmapping vpn hp
  rw [procPagetable]
  by_cases hsig : vpn = SIGTRAMPOLINE arch / PGSIZE
  · subst hsig
    rw [update_self]
    exact .of_flags (hmeets.sigtrampoline v hv hmapping hp)
  rw [update_of_ne hsig]
  -- the other two are not for the user
  by_cases hframe : vpn = TRAPFRAME arch / PGSIZE
  · have huser : Bits.has (PTE_TRAPFRAME arch ||| PTE_V) (PTE_U arch) = false := by cases arch <;> decide
    subst hframe
    rw [update_self]
    exact .of_not_user huser
  rw [update_of_ne hframe]
  by_cases htramp : vpn = TRAMPOLINE arch / PGSIZE
  · have huser : Bits.has (PTE_TRAMPOLINE arch ||| PTE_V) (PTE_U arch) = false := by cases arch <;> decide
    subst htramp
    rw [update_self]
    exact .of_not_user huser
  rw [update_of_ne htramp]
  exact .zero

/-! ## The pages of the program -/

section Program

theorem copyPage_fits {va : Nat} (hal : va % PGSIZE = 0) (hs : Fits arch s.vmas s.leaf)
    (hc : Fits arch s.vmas child)
    (hx : arch = .loongarch → ∀ v ∈ s.vmas, v.Mapping → v.HasPage (va / PGSIZE) →
      (s.leaf (va / PGSIZE)).valid = true → hasBits v.origProt PROT_EXEC = true)
    (h : copyPage arch va child s = some (child', s')) :
    Fits arch s.vmas child' ∧ s'.toMm = s.toMm := by
  rw [copyPage] at h
  split at h
  · cases h
  split at h
  · cases h
    exact ⟨hc, rfl⟩
  rename_i hvalid
  have hvalid : (s.leaf (va / PGSIZE)).valid = true := Bool.eq_true_of_not_eq_false hvalid
  obtain ⟨s₁, hnode, h⟩ := Option.bind_eq_some_iff.mp h
  obtain ⟨⟨r, c⟩, hmap, heq⟩ := Option.map_eq_some_iff.mp h
  cases heq
  refine ⟨hc.page hal hmap fun v hv hmapping hp pa => ?_, allocNode_toMm hnode⟩
  exact (hs v hv hmapping _ hp).copy32 hvalid fun hla => hx hla v hv hmapping hp hvalid

/-- The page above the program, and the one behind it. -/
theorem copyExtra_fits (hmeets : ForkMeets .riscv s.toMm) (hs : Fits .riscv s.vmas s.leaf)
    (hc : Fits .riscv s.vmas child) (h : copyPage .riscv extraAddr child s = some (child', s')) :
    Fits .riscv s.vmas child' ∧ s'.toMm = s.toMm := by
  rw [copyPage] at h
  split at h
  · cases h
  split at h
  · cases h
    exact ⟨hc, rfl⟩
  rename_i hvalid
  have hvalid : (s.pte extraAddr).valid = true := Bool.eq_true_of_not_eq_false hvalid
  obtain ⟨s₁, hnode, h⟩ := Option.bind_eq_some_iff.mp h
  obtain ⟨⟨r, c⟩, hmap, heq⟩ := Option.map_eq_some_iff.mp h
  cases heq
  have hmapped := Leaf.mappages_mapped (by decide) (by decide) hmap
  refine ⟨hc.mapped hmapped fun v hv hmapping vpn hp hlo hhi pa => ?_, allocNode_toMm hnode⟩
  have hlast : (extraAddr + PGSIZE - 1) / PGSIZE = extraAddr / PGSIZE + 1 := by decide
  rw [hlast] at hhi
  rcases Nat.le_or_eq_of_le_succ hhi with hfirst | hsecond
  · rw [le_antisymm hfirst hlo] at hp
    exact (hs v hv hmapping _ hp).copy32 hvalid nofun
  · rw [hsecond] at hp
    have hflags := hmeets.extra rfl hvalid v hv hmapping hp
    exact .of_flags ((((hflags.adds.and (flagsMask .riscv)).flagsInt).or .valid).within nofun)

theorem copyLoop_fits {n lo : Nat} (hs : Fits arch s.vmas s.leaf) (hc : Fits arch s.vmas child)
    (hx : arch = .loongarch → ∀ v ∈ s.vmas, v.Mapping → ∀ vpn, v.HasPage vpn → PagesFrom lo n vpn →
      (s.leaf vpn).valid = true → hasBits v.origProt PROT_EXEC = true)
    (h : copyLoop arch n (lo * PGSIZE) child s = some (child', s')) :
    Fits arch s.vmas child' ∧ s'.toMm = s.toMm := by
  induction n generalizing lo child s with
  | zero =>
    cases h
    exact ⟨hc, rfl⟩
  | succ n ih =>
    rw [copyLoop] at h
    obtain ⟨⟨c, s₁⟩, hpage, h⟩ := Option.bind_eq_some_iff.mp h
    dsimp only at h
    have hlt : lo * PGSIZE < MAXVA arch := by
      by_contra hge
      rw [copyPage, if_pos (not_lt.mp hge)] at hpage
      cases hpage
    rw [next_page_lt hlt] at h
    obtain ⟨hc₁, hsame⟩ := copyPage_fits page_mod hs hc (fun hla v hv hmapping hp hvalid => by
      rw [page_div] at hp hvalid
      exact hx hla v hv hmapping lo hp .first hvalid) hpage
    rw [← hsame] at hs hc₁ hx ⊢
    exact ih hs hc₁ (fun hla v hv hmapping vpn hp hfrom => hx hla v hv hmapping vpn hp hfrom.rest) h

theorem uvmcopy_fits (hmeets : ForkMeets arch s.toMm) (hs : Fits arch s.vmas s.leaf) (hc : Fits arch s.vmas child)
    (h : uvmcopy arch child s = some (child', s')) : Fits arch s.vmas child' ∧ s'.toMm = s.toMm := by
  rw [uvmcopy] at h
  obtain ⟨⟨c₁, s₁⟩, hzero, h⟩ := Option.bind_eq_some_iff.mp h
  obtain ⟨⟨c₂, s₂⟩, hextra, h⟩ := Option.bind_eq_some_iff.mp h
  dsimp only at hextra h
  obtain ⟨hc₁, hsame₁⟩ : Fits arch s.vmas c₁ ∧ s₁.toMm = s.toMm := by
    split at hzero
    · rename_i hge
      refine copyPage_fits (by decide) hs hc (fun hla v hv hmapping hp hvalid => ?_) hzero
      exact hmeets.program hla v hv hmapping _ hp hvalid (.inl ⟨rfl, hge⟩)
    · cases hzero
      exact ⟨hc, rfl⟩
  rw [← hsame₁] at hmeets hs hc₁ ⊢
  obtain ⟨hc₂, hsame₂⟩ : Fits arch s₁.vmas c₂ ∧ s₂.toMm = s₁.toMm := by
    cases arch with
    | riscv => exact copyExtra_fits hmeets hs hc₁ hextra
    | loongarch =>
      cases hextra
      exact ⟨hc₁, rfl⟩
  have haddr : s.virtAddr = s₂.virtAddr := congrArg Mm.virtAddr (hsame₂.trans hsame₁).symm
  rw [← hsame₂] at hmeets hs hc₂ ⊢
  rw [haddr] at h
  refine copyLoop_fits hs hc₂ (fun hla v hv hmapping vpn hp hfrom hvalid => ?_) h
  refine hmeets.program hla v hv hmapping vpn hp hvalid (.inr ?_)
  obtain ⟨hlo, hhi⟩ := hfrom
  simp only [Vmem.pageCeil, pgRoundDown, PGSIZE] at *
  omega

end Program

/-! ## The pages of the VMAs -/

section Areas

variable {v : Vma} {vs : List Vma} {va n lo i : Nat} {copyNow : Bool}

theorem vmaCopy_toMm (h : vmaCopy vs s = some s') : s'.toMm = s.toMm := by
  induction vs generalizing s with
  | nil =>
    cases h
    rfl
  | cons v vs ih =>
    rw [vmaCopy] at h
    obtain ⟨s₁, hnode, h⟩ := Option.bind_eq_some_iff.mp h
    rw [← allocNode_toMm hnode]
    split at h
    · dsimp only at h
      split at h
      · cases h
      · have hrest := ih h
        exact hrest
    · exact ih h

theorem allocTwice_toMm {mem : Nat} (h : allocTwice s = some (mem, s')) : s'.toMm = s.toMm := by
  rw [allocTwice] at h
  dsimp only at h
  split at h
  · cases h
    rfl
  split at h
  · cases h
    rfl
  · cases h

/-- A page is mapped with the flags that it has in the parent. -/
theorem fits_copied {pa : Nat} {r : Int} (hal : va % PGSIZE = 0) (hs : Fits arch s.vmas s.leaf)
    (hc : Fits arch s.vmas child) (hvalid : (s.pte va).valid = true)
    (hmap : Leaf.mappages arch va pa PGSIZE (PTE_FLAGS arch (s.pte va)) child = some (r, child')) :
    Fits arch s.vmas child' :=
  hc.page hal hmap fun v hv hmapping hp _ => (hs v hv hmapping _ hp).copy hvalid

theorem mapPage_fits (hal : va % PGSIZE = 0) (hs : Fits arch s.vmas s.leaf)
    (hc : Fits arch s.vmas child) (h : mapPage arch copyNow va child s = some (child', s')) :
    Fits arch s.vmas child' ∧ s'.toMm = s.toMm ∧ va < MAXVA arch := by
  rw [mapPage] at h
  dsimp only at h
  split at h
  · cases h
  rename_i hlt
  split at h
  · cases h
    exact ⟨hc, rfl, not_le.mp hlt⟩
  rename_i hvalid
  split at h
  · cases h
    exact ⟨hc, rfl, not_le.mp hlt⟩
  obtain ⟨⟨pa, s₁⟩, halloc, h⟩ := Option.bind_eq_some_iff.mp h
  obtain ⟨⟨r, c⟩, hmap, h⟩ := Option.bind_eq_some_iff.mp h
  have hsame : s₁.toMm = s.toMm := by
    split at halloc
    · exact allocTwice_toMm halloc
    · cases halloc
      rfl
  dsimp only at h
  split at h
  · cases h
  · cases h
    exact ⟨fits_copied hal hs hc (Bool.eq_true_of_not_eq_false hvalid) hmap, hsame, not_le.mp hlt⟩

theorem mapLoop_fits {end_ : Nat} (hs : Fits arch s.vmas s.leaf) (hc : Fits arch s.vmas child)
    (h : mapLoop arch copyNow end_ n (lo * PGSIZE) child s = some (child', s')) :
    Fits arch s.vmas child' ∧ s'.toMm = s.toMm := by
  induction n generalizing lo child s with
  | zero =>
    rw [mapLoop] at h
    split at h
    · cases h
    · cases h
      exact ⟨hc, rfl⟩
  | succ n ih =>
    rw [mapLoop] at h
    split at h
    · obtain ⟨⟨c, s₁⟩, hpage, h⟩ := Option.bind_eq_some_iff.mp h
      obtain ⟨hc₁, hsame, hlt⟩ := mapPage_fits page_mod hs hc hpage
      dsimp only at h
      rw [next_page_lt hlt] at h
      rw [← hsame] at hs hc₁ ⊢
      exact ih hs hc₁ h
    · cases h
      exact ⟨hc, rfl⟩

theorem mapSharedPage_fits (hal : va % PGSIZE = 0) (hs : Fits arch s.vmas s.leaf) (hc : Fits arch s.vmas child)
    (hperm : ∀ w ∈ s.vmas, w.Mapping → w.HasPage (va / PGSIZE) →
      FlagsWithin arch w.origProt (v.perm ||| PTE_U arch))
    (h : mapSharedPage arch v i va child s = some (child', s')) :
    Fits arch s.vmas child' ∧ s'.toMm = s.toMm ∧ va < MAXVA arch := by
  rw [mapSharedPage] at h
  dsimp only at h
  split at h
  · cases h
  rename_i hlt
  split at h
  · cases h
    exact ⟨hc, rfl, not_le.mp hlt⟩
  split at h
  · obtain ⟨⟨r, c⟩, hmap, h⟩ := Option.bind_eq_some_iff.mp h
    dsimp only at h
    split at h
    · cases h
    · cases h
      refine ⟨hc.page hal hmap fun w hw hmapping hp _ => ?_, rfl, not_le.mp hlt⟩
      exact .of_flags ((hperm w hw hmapping hp).or .valid)
  split at h
  · rename_i hvalid
    obtain ⟨⟨r, c⟩, hmap, h⟩ := Option.bind_eq_some_iff.mp h
    dsimp only at h
    split at h
    · cases h
    · cases h
      refine ⟨fits_copied hal hs hc hvalid hmap, ?_, not_le.mp hlt⟩
      split <;> rfl
  · cases h
    exact ⟨hc, rfl, not_le.mp hlt⟩

theorem mapSharedLoop_fits (hs : Fits arch s.vmas s.leaf) (hc : Fits arch s.vmas child)
    (hperm : ∀ w ∈ s.vmas, w.Mapping → ∀ vpn, w.HasPage vpn → PagesFrom lo n vpn →
      FlagsWithin arch w.origProt (v.perm ||| PTE_U arch))
    (h : mapSharedLoop arch v n i (lo * PGSIZE) child s = some (child', s')) :
    Fits arch s.vmas child' ∧ s'.toMm = s.toMm := by
  induction n generalizing i lo child s with
  | zero =>
    cases h
    exact ⟨hc, rfl⟩
  | succ n ih =>
    rw [mapSharedLoop] at h
    obtain ⟨⟨c, s₁⟩, hpage, h⟩ := Option.bind_eq_some_iff.mp h
    obtain ⟨hc₁, hsame, hlt⟩ := mapSharedPage_fits page_mod hs hc (fun w hw hmapping hp => by
      rw [page_div] at hp
      exact hperm w hw hmapping lo hp .first) hpage
    dsimp only at h
    rw [next_page_lt hlt] at h
    rw [← hsame] at hs hc₁ hperm ⊢
    exact ih hs hc₁ (fun w hw hmapping vpn hp hfrom => hperm w hw hmapping vpn hp hfrom.rest) h

theorem bmod_lt_half {x : Int} {m : Nat} (hm : 0 < m) (k : Nat) (hk : m = 2 * k) : Int.bmod x m < k := by
  have hlt := @Int.bmod_lt x m hm
  omega

/-- An `int` is at most the number that it was converted from. -/
theorem toInt32_toNat_le : (toInt32 n).toNat ≤ n := by
  have hhalf : toInt32 n < (2 ^ 31 : Nat) := bmod_lt_half (by decide) (2 ^ 31) (by decide)
  by_cases hlt : n < 2 ^ 31
  · rw [toInt32_of_lt hlt, Int.toNat_natCast]
  · generalize toInt32 n = z at hhalf ⊢
    omega

/-- The number of pages of a segment, as `vma_map` computes it. -/
theorem numPages_le {size : Nat} : (toInt32 ((size + PGSIZE - 1) % 2 ^ 64 / PGSIZE)).toNat ≤ Vmem.pageCeil size := by
  refine toInt32_toNat_le.trans ?_
  rw [Vmem.pageCeil]
  exact Nat.div_le_div_right (Nat.mod_le _ _)

theorem vmaMap_fits (hmeets : ForkMeets arch s.toMm) (hs : Fits arch s.vmas s.leaf)
    (hc : Fits arch s.vmas child) (hv : v ∈ s.vmas) (hne : v.addr ≠ v.end_)
    (h : vmaMap arch v child s = some (child', s')) : Fits arch s.vmas child' ∧ s'.toMm = s.toMm := by
  obtain ⟨lo, hlo⟩ : ∃ lo, v.addr = lo * PGSIZE :=
    ⟨_, (Nat.div_mul_cancel (Nat.dvd_of_mod_eq_zero (hmeets.aligned v hv hne))).symm⟩
  rw [vmaMap] at h
  dsimp only at h
  rw [hlo] at h
  split at h
  · rename_i hsh
    split at h
    · cases h
      exact ⟨hc, rfl⟩
    · refine mapSharedLoop_fits hs hc (fun w hw hmapping vpn hp hfrom => ?_) h
      have hle := @numPages_le v.size
      obtain ⟨hge, hlt⟩ := hfrom
      refine hmeets.shared v hv hne hsh w hw hmapping vpn hp ?_ ?_
      · rw [hlo]
        exact Nat.mul_le_mul_right _ hge
      · rw [hlo]
        simp only [Vmem.pageCeil, PGSIZE] at *
        omega
  · exact mapLoop_fits hs hc h

theorem vmaMapAll_fits (hmeets : ForkMeets arch s.toMm) (hs : Fits arch s.vmas s.leaf)
    (hc : Fits arch s.vmas child) (hvs : ∀ v ∈ vs, v ∈ s.vmas)
    (h : vmaMapAll arch vs child s = some (child', s')) : Fits arch s.vmas child' ∧ s'.toMm = s.toMm := by
  induction vs generalizing child s with
  | nil =>
    cases h
    exact ⟨hc, rfl⟩
  | cons v vs ih =>
    rw [vmaMapAll] at h
    obtain ⟨⟨c, s₁⟩, hmap, h⟩ := Option.bind_eq_some_iff.mp h
    obtain ⟨hc₁, hsame⟩ : Fits arch s.vmas c ∧ s₁.toMm = s.toMm := by
      split at hmap
      · rename_i hne
        exact vmaMap_fits hmeets hs hc (hvs v List.mem_cons_self) hne hmap
      · cases hmap
        exact ⟨hc, rfl⟩
    rw [← hsame] at hmeets hs hc₁ hvs ⊢
    exact ih hmeets hs hc₁ (fun w hw => hvs w (List.mem_cons_of_mem _ hw)) h

end Areas

/-- The child is sound, and the parent is as before. -/
theorem fork_sound {mm : Mm} (hs : Sound arch s.toMm) (hmeets : ForkMeets arch s.toMm)
    (h : fork arch trampoline trapframe sigtrampoline s = some (mm, s')) :
    Sound arch mm ∧ s'.toMm = s.toMm := by
  rw [fork] at h
  obtain ⟨⟨c₁, s₁⟩, hcopy, h⟩ := Option.bind_eq_some_iff.mp h
  obtain ⟨hc₁, hsame₁⟩ := uvmcopy_fits hmeets hs.rights (procPagetable_fits hmeets) hcopy
  obtain ⟨s₂, hnode, h⟩ := Option.bind_eq_some_iff.mp h
  obtain ⟨s₃, hvmas, h⟩ := Option.bind_eq_some_iff.mp h
  obtain ⟨⟨c₄, s₄⟩, hmap, heq⟩ := Option.map_eq_some_iff.mp h
  have hsame₃ : s₃.toMm = s.toMm := (vmaCopy_toMm hvmas).trans ((allocNode_toMm hnode).trans hsame₁)
  rw [← hsame₃] at hs hmeets hc₁ ⊢
  obtain ⟨hc₄, hsame₄⟩ := vmaMapAll_fits hmeets hs.rights hc₁ (fun _ hv => hv) hmap
  cases heq
  refine ⟨⟨?_, ?_⟩, hsame₄⟩
  · intro v hv
    dsimp only at hv ⊢
    rw [hsame₄] at hv
    exact hc₄ v hv
  · intro v hv
    dsimp only at hv
    rw [hsame₄] at hv
    exact hs.perm v hv

end Space

end SC7
