-- SUMMARY: What a harmless page fault leaves of a private file mapping: every run of such faults keeps its contents.
import SC7.Mem.FileMapping
import SC7.Mem.ShmSteps

/-!
# Private file mappings keep their contents

Each part of the handler changes one page: it gets another physical page, or other bytes. `Holds.page` says what
such a change has to leave behind. A page in which the user can fault was never written, because a page that can be
written does not fault; so the bytes of the file are what has to be there.
-/

namespace SC7.FileMapping

open Space
open Function (update update_of_ne update_self)

variable {arch : Arch} {M : Mapping} {m m' : Machine} {value : Nat → UInt8} {env : FileEnv} {x y k pa : Nat}
  {bytes mem : Nat → UInt8} {sig : Option Sig}

/-! ## Pages of memory -/

theorem offset_lt (x : Nat) : x % PGSIZE < PGSIZE := Nat.mod_lt x (by decide)

theorem setPage_at (x : Nat) : setPage pa bytes mem (pa + x % PGSIZE) = bytes (x % PGSIZE) := by
  have hlt := offset_lt x
  unfold setPage
  rw [if_pos ⟨Nat.le_add_right _ _, Nat.add_lt_add_left hlt pa⟩, Nat.add_sub_cancel_left]

/-- Another page keeps its bytes. -/
theorem setPage_apart {pa' : Nat} (hpa : pa % PGSIZE = 0) (hpa' : pa' % PGSIZE = 0) (hne : pa' ≠ pa) (x : Nat) :
    setPage pa bytes mem (pa' + x % PGSIZE) = mem (pa' + x % PGSIZE) := by
  have hlt := offset_lt x
  unfold setPage
  rw [if_neg]
  rintro ⟨hle, hend⟩
  simp only [PGSIZE] at *
  omega

theorem pte_eq (h : x / PGSIZE = y / PGSIZE) : m.pte x = m.pte y := by
  unfold Space.pte
  rw [h]

namespace Holds

/-- Different bytes of the mapping are at different places. -/
theorem address_inj (h : Holds M value m) (hx : M.Has x) (hy : M.Has y) (hvx : (m.pte x).valid = true)
    (hvy : (m.pte y).valid = true) (heq : m.address x = m.address y) : x = y := by
  have hax := h.aligned x hx hvx
  have hay := h.aligned y hy hvy
  have hlx := offset_lt x
  have hly := offset_lt y
  unfold Machine.address at heq
  have hpa : (m.pte x).pa = (m.pte y).pa ∧ x % PGSIZE = y % PGSIZE := by
    simp only [PGSIZE] at *
    omega
  have hpage := h.apart x y hx hy hvx hvy hpa.1
  rw [← Nat.div_add_mod x PGSIZE, ← Nat.div_add_mod y PGSIZE, hpage, hpa.2]

/-- What a change of one page has to leave behind. -/
theorem page (h : Holds M value m) (hvmas : m'.vmas = m.vmas) (hleaf : ∀ q, q ≠ k → m'.leaf q = m.leaf q)
    (hmem : ∀ y, M.Has y → y / PGSIZE ≠ k → (m.pte y).valid = true →
      m'.mem (m.address y) = m.mem (m.address y))
    (hpage : (m'.leaf k).valid = true → (m'.leaf k).pa % PGSIZE = 0 ∧
      (∀ y, M.Has y → y / PGSIZE ≠ k → (m.pte y).valid = true → (m.pte y).pa ≠ (m'.leaf k).pa) ∧
      ∀ y, M.Has y → y / PGSIZE = k → m'.mem ((m'.leaf k).pa + y % PGSIZE) = value y) :
    Holds M value m' := by
  have hother : ∀ y, y / PGSIZE ≠ k → m'.pte y = m.pte y := fun y hy => hleaf _ hy
  have hsame : ∀ y, y / PGSIZE = k → m'.pte y = m'.leaf k := fun y hy => congrArg m'.leaf hy
  constructor
  · rw [hvmas]
    exact h.area
  · rw [hvmas]
    exact h.sorted
  · intro y hy hv
    by_cases hyk : y / PGSIZE = k
    · rw [hsame y hyk] at hv ⊢
      exact (hpage hv).1
    · rw [hother y hyk] at hv ⊢
      exact h.aligned y hy hv
  · intro y z hy hz hvy hvz heq
    by_cases hyk : y / PGSIZE = k <;> by_cases hzk : z / PGSIZE = k
    · rw [hyk, hzk]
    · rw [hsame y hyk] at hvy heq
      rw [hother z hzk] at hvz heq
      exact absurd heq.symm ((hpage hvy).2.1 z hz hzk hvz)
    · rw [hother y hyk] at hvy heq
      rw [hsame z hzk] at hvz heq
      exact absurd heq ((hpage hvz).2.1 y hy hyk hvy)
    · rw [hother y hyk] at hvy heq
      rw [hother z hzk] at hvz heq
      exact h.apart y z hy hz hvy hvz heq
  · intro y hy hv
    unfold Machine.address
    by_cases hyk : y / PGSIZE = k
    · rw [hsame y hyk] at hv ⊢
      exact (hpage hv).2.2 y hy hyk
    · rw [hother y hyk] at hv ⊢
      exact (hmem y hy hyk hv).trans (h.bytes y hy hv)

/-- Nothing changes but what is free, and how the pages may be used. -/
theorem same (h : Holds M value m) (hvmas : m'.vmas = m.vmas) (hmem : m'.mem = m.mem)
    (hleaf : ∀ q, (m'.leaf q).valid = (m.leaf q).valid ∧ (m'.leaf q).pa = (m.leaf q).pa) : Holds M value m' := by
  have hpte : ∀ y, (m'.pte y).valid = (m.pte y).valid ∧ (m'.pte y).pa = (m.pte y).pa := fun y => hleaf _
  constructor
  · rw [hvmas]
    exact h.area
  · rw [hvmas]
    exact h.sorted
  · intro y hy hv
    rw [(hpte y).1] at hv
    rw [(hpte y).2]
    exact h.aligned y hy hv
  · intro y z hy hz hvy hvz heq
    rw [(hpte y).1] at hvy
    rw [(hpte z).1] at hvz
    rw [(hpte y).2, (hpte z).2] at heq
    exact h.apart y z hy hz hvy hvz heq
  · intro y hy hv
    rw [(hpte y).1] at hv
    unfold Machine.address
    rw [(hpte y).2, hmem]
    exact h.bytes y hy hv

end Holds

/-! ## The allocator -/

/-- The machine after `j` pages were taken from the supply. -/
def Machine.skip (j : Nat) (m : Machine) : Machine := { m with supply := fun n => m.supply (n + j) }

namespace Hands

theorem aligned (h : Hands m) (hne : m.supply k ≠ NULL) : m.supply k % PGSIZE = 0 := (h k hne).1

theorem unused (h : Hands m) (hne : m.supply k ≠ NULL) {q : Nat} (hv : (m.leaf q).valid = true) :
    (m.leaf q).pa ≠ m.supply k := (h k hne).2.1 q hv

/-- The rest of the supply. A page that was taken may be in use now. -/
theorem rest {j : Nat} (h : Hands m) (hsupply : m'.supply = fun n => m.supply (n + j))
    (hleaf : ∀ q, (m'.leaf q).valid = true →
      (m.leaf q).valid = true ∧ (m'.leaf q).pa = (m.leaf q).pa ∨ ∃ n, n < j ∧ (m'.leaf q).pa = m.supply n) :
    Hands m' := by
  intro n hne
  rw [hsupply] at hne ⊢
  obtain ⟨haligned, hunused, honce⟩ := h (n + j) hne
  refine ⟨haligned, ?_, ?_⟩
  · intro q hv
    rcases hleaf q hv with ⟨hv, hpa⟩ | ⟨n', hlt, hpa⟩
    · rw [hpa]
      exact hunused q hv
    · rw [hpa]
      intro heq
      have := honce n' heq
      omega
  · intro n' heq
    have := honce (n' + j) heq
    omega

end Hands

/-! ## The parts of the handler -/

/-- Nothing but page `k` is mapped in another way, and the files are the same. -/
structure Around (k : Nat) (m m' : Machine) : Prop where
  vmas : m'.vmas = m.vmas
  ofile : m'.ofile = m.ofile
  content : m'.content = m.content
  others : m'.others = m.others
  leaf : ∀ q, q ≠ k → m'.leaf q = m.leaf q

namespace Around

theorem refl (k : Nat) (m : Machine) : Around k m m := ⟨rfl, rfl, rfl, rfl, fun _ _ => rfl⟩

theorem trans {m'' : Machine} (h : Around k m m') (h' : Around k m' m'') : Around k m m'' where
  vmas := h'.vmas.trans h.vmas
  ofile := h'.ofile.trans h.ofile
  content := h'.content.trans h.content
  others := h'.others.trans h.others
  leaf q hq := (h'.leaf q hq).trans (h.leaf q hq)

theorem elsewhere (h : Around k m m') (hpa : MappedElsewhere m k pa) : MappedElsewhere m' k pa := by
  rcases hpa with hother | ⟨q, hq, hv, hpa⟩
  · left
    rw [h.others]
    exact hother
  · right
    refine ⟨q, hq, ?_, ?_⟩ <;> rw [h.leaf q hq] <;> assumption

end Around

/-- The page is there as before, at the same place. -/
def StaysAt (k : Nat) (m m' : Machine) : Prop :=
  (m.leaf k).valid = true → (m'.leaf k).valid = true ∧ (m'.leaf k).pa = (m.leaf k).pa

/-- A copy on write takes a page from the supply for the old one, or changes nothing that matters. -/
theorem space_cow_cases (arch : Arch) (x : Nat) (s : Space) :
    (∃ j, s.handleCowWrite arch (pgRoundDown x) = (false, { s with supply := fun n => s.supply (n + j) })) ∨
      (s.pte x).valid = true ∧ s.supply 0 ≠ NULL ∧ ∃ flags, s.handleCowWrite arch (pgRoundDown x) =
        (true, { s with
          supply := fun n => s.supply (n + 1)
          leaf := update s.leaf (x / PGSIZE) ⟨s.supply 0, flags ||| PTE_V⟩ }) := by
  unfold Space.handleCowWrite
  rw [pte_pgRoundDown]
  split
  · exact .inl ⟨0, rfl⟩
  split
  · rename_i hc
    dsimp only
    split
    · exact .inl ⟨1, rfl⟩
    · rename_i hmem
      refine .inr ⟨hc.2, hmem, ?_⟩
      rw [pgRoundDown_div]
      cases arch with
      | riscv => exact ⟨_, rfl⟩
      | loongarch => exact ⟨_, rfl⟩
  · exact .inl ⟨0, rfl⟩

/-- Page `k` has moved to the first page of the supply, with its bytes. -/
structure Copied (k : Nat) (m m' : Machine) : Prop where
  valid : (m.leaf k).valid = true
  mem_left : m.supply 0 ≠ NULL
  supply : m'.supply = fun n => m.supply (n + 1)
  around : Around k m m'
  page : (m'.leaf k).valid = true ∧ (m'.leaf k).pa = m.supply 0
  mem : m'.mem = setPage (m.supply 0) (fun o => m.mem ((m.leaf k).pa + o)) m.mem

theorem handleCowWrite_cases (arch : Arch) (x : Nat) (m : Machine) :
    (∃ j, handleCowWrite arch (pgRoundDown x) m = (false, m.skip j)) ∨
      ∃ m', handleCowWrite arch (pgRoundDown x) m = (true, m') ∧ Copied (x / PGSIZE) m m' := by
  unfold handleCowWrite
  rcases space_cow_cases arch x m.toSpace with ⟨j, heq⟩ | ⟨hv, hmem, flags, heq⟩
  · rw [heq]
    exact .inl ⟨j, rfl⟩
  · rw [heq, pte_pgRoundDown]
    refine .inr ⟨_, rfl, hv, hmem, rfl, ⟨rfl, rfl, rfl, rfl, ?_⟩, ?_, rfl⟩
    · intro q hq
      exact update_of_ne hq _ _
    · simp only [update_self]
      exact ⟨Pte.valid_or _ _, trivial⟩

namespace Copied

theorem holds (hc : Copied k m m') (h : Holds M value m) (hands : Hands m) : Holds M value m' := by
  have haligned := hands.aligned hc.mem_left
  apply h.page hc.around.vmas hc.around.leaf
  · intro y hy _ hvy
    rw [hc.mem]
    exact setPage_apart haligned (h.aligned y hy hvy) (hands.unused hc.mem_left hvy) y
  · intro _
    rw [hc.page.2]
    refine ⟨haligned, fun y hy _ hvy => hands.unused hc.mem_left hvy, fun y hy hyk => ?_⟩
    rw [hc.mem, setPage_at]
    subst hyk
    exact h.bytes y hy hc.valid

theorem hands (hc : Copied k m m') (hands : Hands m) : Hands m' := by
  apply hands.rest hc.supply
  intro q hv
  by_cases hq : q = k
  · subst hq
    exact .inr ⟨0, by omega, hc.page.2⟩
  · rw [hc.around.leaf q hq] at hv ⊢
    exact .inl ⟨hv, rfl⟩

end Copied

/-- The part of the handler that may copy the page. -/
def cowPart (arch : Arch) (x : Nat) (v : Vma) (m : Machine) : Bool × Machine :=
  if hasBits v.flags MAP_PRIVATE = true ∧ (m.pte x).valid = true ∧
    ¬Bits.has (m.pte x).flags (PTE_W arch) = true then
      handleCowWrite arch (pgRoundDown x) m else (false, m)

theorem cowPart_cases (arch : Arch) (x : Nat) (v : Vma) (m : Machine) :
    (∃ j, cowPart arch x v m = (false, m.skip j)) ∨
      ∃ m', cowPart arch x v m = (true, m') ∧ Copied (x / PGSIZE) m m' := by
  unfold cowPart
  split
  · exact handleCowWrite_cases arch x m
  · exact .inl ⟨0, rfl⟩

theorem cowPart_copied {v : Vma} (hprot : v.origProt ≠ PROT_NONE) (h : (cowPart arch x v m).1 = true) :
    CowCopies arch x v m.toSpace := by
  rw [← cowStep_copied hprot, cowStep]
  unfold cowPart at h
  split at h
  · rename_i hc
    rw [if_pos hc]
    exact h
  · cases h

/-! ## The file, and pages of the handler's own -/

/-- The bytes that the file gives for page `k` are those that are to be read. -/
def Delivers (M : Mapping) (value : Nat → UInt8) (k : Nat) (bytes : Nat → UInt8) : Prop :=
  ∀ y, M.Has y → y / PGSIZE = k → bytes (y % PGSIZE) = value y

/-- A page of the mapping with other bytes. -/
theorem Holds.fill (h : Holds M value m) (hx : M.Has x) (hv : (m.pte x).valid = true)
    (hbytes : Delivers M value (x / PGSIZE) bytes) :
    Holds M value { m with mem := setPage (m.pte x).pa bytes m.mem } := by
  have haligned := h.aligned x hx hv
  have hpa : ∀ y, M.Has y → y / PGSIZE ≠ x / PGSIZE → (m.pte y).valid = true →
      (m.pte y).pa ≠ (m.pte x).pa := fun y hy hyk hvy heq => hyk (h.apart y x hy hx hvy hv heq)
  refine h.page (k := x / PGSIZE) rfl (fun _ _ => rfl) ?_ ?_
  · intro y hy hyk hvy
    exact setPage_apart haligned (h.aligned y hy hvy) (hpa y hy hyk hvy) y
  · intro _
    refine ⟨haligned, hpa, fun y hy hyk => ?_⟩
    exact (setPage_at y).trans (hbytes y hy hyk)

theorem faultFile_holds {v : Vma} (h : Holds M value m) (hx : M.Has x)
    (hread : (m.pte x).valid = true → 0 ≤ env.lseek → Delivers M value (x / PGSIZE)
      (fileBytes v (pgRoundDown x) (env.read (pgRoundDown x)) (m.content v.fd)))
    (hrun : faultFile arch env v (pgRoundDown x) m = some (sig, m')) :
    Holds M value m' ∧ Around (x / PGSIZE) m m' ∧ StaysAt (x / PGSIZE) m m' := by
  have hwalk : ∀ pa, m.walkaddr arch (pgRoundDown x) = some pa →
      pa = 0 ∨ (m.pte x).valid = true ∧ pa = (m.pte x).pa := by
    intro pa hpa
    unfold Space.walkaddr at hpa
    rw [pte_pgRoundDown] at hpa
    split at hpa
    · cases hpa
    split at hpa
    · rename_i hc
      cases hpa
      exact .inr ⟨hc.1, rfl⟩
    · cases hpa
      exact .inl rfl
  unfold faultFile at hrun
  split at hrun
  · cases hrun
    exact ⟨h, .refl _ _, fun hv => ⟨hv, rfl⟩⟩
  rename_i hseek
  obtain ⟨pa, hpa, hrun⟩ := Option.bind_eq_some_iff.mp hrun
  split at hrun
  · cases hrun
    exact ⟨h.same rfl rfl fun _ => ⟨rfl, rfl⟩, ⟨rfl, rfl, rfl, rfl, fun _ _ => rfl⟩, fun hv => ⟨hv, rfl⟩⟩
  split at hrun
  · cases hrun
  rename_i hne
  cases hrun
  obtain rfl | ⟨hv, rfl⟩ := hwalk pa hpa
  · exact absurd rfl hne
  · exact ⟨h.fill hx hv (hread hv (Int.not_lt.mp hseek)), ⟨rfl, rfl, rfl, rfl, fun _ _ => rfl⟩, fun hv => ⟨hv, rfl⟩⟩

theorem faultPerm_valid (pa flags : Nat) : (⟨pa, flags ||| faultPerm arch⟩ : Pte).valid = true := by
  unfold faultPerm
  rw [← Nat.or_assoc]
  exact Pte.valid_or _ _

/-- What the last part of the handler does to the table: the page stays where it is, or is the first of the supply. -/
structure Provided (k : Nat) (s s' : Space) : Prop where
  mem_left : s.supply 0 ≠ NULL
  vmas : s'.vmas = s.vmas
  ofile : s'.ofile = s.ofile
  leaf : ∀ q, q ≠ k → s'.leaf q = s.leaf q
  stays : (s.leaf k).valid = true → (s'.leaf k).valid = true ∧ (s'.leaf k).pa = (s.leaf k).pa
  fresh : (s.leaf k).valid = false → (s'.leaf k).valid = true → (s'.leaf k).pa = s.supply 0

theorem space_generic_provided {s s' : Space} (h : s.faultGeneric arch (pgRoundDown x) = some (sig, s')) :
    Provided (x / PGSIZE) s s' := by
  unfold Space.faultGeneric at h
  dsimp only at h
  rw [pte_pgRoundDown, pgRoundDown_div] at h
  have hleaf : s.alloc.2.leaf = s.leaf := rfl
  have hpte : s.alloc.2.pte x = s.leaf (x / PGSIZE) := rfl
  split at h
  · cases h
  rename_i hne
  split at h
  · cases h
    exact ⟨hne, rfl, rfl, fun _ _ => rfl, fun hv => ⟨hv, rfl⟩, fun hv hv' => absurd (hv.symm.trans hv') (by decide)⟩
  split at h
  · rename_i hv
    rw [hpte] at h hv
    cases h
    have hpage : ∀ pte, (s.alloc.2.setLeaf (x / PGSIZE) pte).leaf (x / PGSIZE) = pte := fun pte =>
      update_self _ _ _
    refine ⟨hne, rfl, rfl, fun q hq => update_of_ne hq _ _, fun _ => ?_, fun hv' => ?_⟩
    · rw [hpage]
      exact ⟨faultPerm_valid _ _, rfl⟩
    · exact absurd (hv.symm.trans hv') (by decide)
  · rename_i hv
    rw [hpte, Bool.not_eq_true] at hv
    obtain ⟨⟨r, t⟩, hmap, h⟩ := Option.bind_eq_some_iff.mp h
    obtain ⟨⟨r', leaf⟩, hone, heq⟩ := Option.map_eq_some_iff.mp hmap
    cases heq
    dsimp only at h
    split at h
    · cases h
    cases h
    refine ⟨hne, rfl, rfl, ?_, fun hv' => absurd (hv.symm.trans hv') (by decide), ?_⟩
    all_goals rcases Leaf.mappages_one Space.pgRoundDown_mod hone with ⟨-, -, rfl⟩ | ⟨-, -, rfl⟩
    · exact fun _ _ => rfl
    · intro q hq
      rw [pgRoundDown_div]
      exact update_of_ne hq _ _
    · intro _ hv'
      exact absurd (hv.symm.trans hv') (by decide)
    · intro _ _
      dsimp only
      rw [pgRoundDown_div, update_self]
      rfl

theorem faultGeneric_holds (h : Holds M value m) (hands : Hands m) (hx : M.Has x)
    (hfresh : (m.pte x).valid = false → Delivers M value (x / PGSIZE) fun _ => 0)
    (hrun : faultGeneric arch (pgRoundDown x) m = some (sig, m')) :
    Holds M value m' ∧ Around (x / PGSIZE) m m' ∧ StaysAt (x / PGSIZE) m m' := by
  obtain ⟨⟨sig', s⟩, hspace, heq⟩ := Option.map_eq_some_iff.mp hrun
  have hp := space_generic_provided hspace
  have haligned : m.supply 0 % PGSIZE = 0 := hands.aligned hp.mem_left
  rw [show m.alloc.1 = m.supply 0 from rfl, if_pos haligned] at heq
  cases heq
  have hunused : ∀ y, (m.pte y).valid = true → (m.pte y).pa ≠ m.supply 0 := fun y hvy =>
    hands.unused hp.mem_left hvy
  have hzero : ∀ y, M.Has y → (m.pte y).valid = true →
      setPage (m.supply 0) (fun _ => 0) m.mem (m.address y) = m.mem (m.address y) :=
    fun y hy hvy => setPage_apart haligned (h.aligned y hy hvy) (hunused y hvy) y
  refine ⟨h.page (k := x / PGSIZE) hp.vmas hp.leaf (fun y hy _ hvy => hzero y hy hvy) fun hv' => ?_,
    ⟨hp.vmas, hp.ofile, rfl, rfl, hp.leaf⟩, hp.stays⟩
  cases hv : (m.leaf (x / PGSIZE)).valid with
  | true =>
    obtain ⟨-, hpa⟩ := hp.stays hv
    dsimp only at hpa ⊢
    rw [hpa]
    refine ⟨h.aligned x hx hv, fun y hy hyk hvy heq => hyk (h.apart y x hy hx hvy hv heq), fun y hy hyk => ?_⟩
    have hpte : m.leaf (x / PGSIZE) = m.pte y := (pte_eq hyk).symm
    rw [hpte] at hv ⊢
    exact (hzero y hy hv).trans (h.bytes y hy hv)
  | false =>
    have hpa := hp.fresh hv hv'
    dsimp only at hpa ⊢
    rw [hpa]
    refine ⟨haligned, fun y _ _ hvy => hunused y hvy, fun y hy hyk => ?_⟩
    rw [setPage_at]
    exact hfresh hv y hy hyk

/-! ## The whole handler -/

/-- The handler behind the copy on write. -/
def lastPart (arch : Arch) (env : FileEnv) (x : Nat) (v : Vma) (m : Machine) : Option (Option Sig × Machine) :=
  if hasBits v.flags MAP_PRIVATE = true ∧ v.fd ≠ -1 ∧ (m.ofile v.fd).isSome = true then
    faultFile arch env v (pgRoundDown x) m
  else if v.type = .SHARE ∧ v.shmKernel ≠ NULL then faultShared arch x (pgRoundDown x) v m
  else faultGeneric arch (pgRoundDown x) m

/-- The handler in the area of a mapping: the copy on write, and then the file or a page of its own. -/
theorem pagefaultHandler_eq (h : Holds M value m) (hx : M.Has x) :
    pagefaultHandler arch env x m =
      if M.vma.origProt = PROT_NONE then some (some .SIGSEGV, m)
      else lastPart arch env x M.vma (cowPart arch x M.vma m).2 := by
  have hfind : findVma x m.vmas = some M.vma := findVma_eq h.sorted h.area ⟨hx.1, hx.2.trans_le M.inside⟩
  unfold pagefaultHandler
  rw [hfind]
  dsimp only
  rw [pte_pgRoundDown]
  split
  · rfl
  · show (if (cowPart arch x M.vma m).1 = true ∧ M.vma.fd = -1 then some (none, (cowPart arch x M.vma m).2)
      else lastPart arch env x M.vma (cowPart arch x M.vma m).2) = _
    rw [if_neg fun hc => M.file hc.2]

theorem lastPart_holds (h : Holds M value m) (hands : Hands m) (hx : M.Has x)
    (hread : TakesFile M.vma m.toSpace → (m.pte x).valid = true → 0 ≤ env.lseek → Delivers M value (x / PGSIZE)
      (fileBytes M.vma (pgRoundDown x) (env.read (pgRoundDown x)) (m.content M.vma.fd)))
    (hfresh : ¬TakesFile M.vma m.toSpace → (m.pte x).valid = false → Delivers M value (x / PGSIZE) fun _ => 0)
    (hrun : lastPart arch env x M.vma m = some (sig, m')) :
    Holds M value m' ∧ Around (x / PGSIZE) m m' ∧ StaysAt (x / PGSIZE) m m' := by
  unfold lastPart at hrun
  split at hrun
  · rename_i hfile
    exact faultFile_holds h hx (hread hfile) hrun
  rename_i hfile
  split at hrun
  · rename_i hshared
    exact absurd hshared M.notShared
  · exact faultGeneric_holds h hands hx (hfresh hfile) hrun

/-- A fault in the mapping keeps what is to be read, and the physical page unless it is copied. -/
theorem pagefaultHandler_holds (h : Holds M value m) (hands : Hands m) (hx : M.Has x)
    (hread : M.vma.origProt ≠ PROT_NONE → TakesFile M.vma m.toSpace → (m.pte x).valid = true → 0 ≤ env.lseek →
      Delivers M value (x / PGSIZE)
        (fileBytes M.vma (pgRoundDown x) (env.read (pgRoundDown x)) (m.content M.vma.fd)))
    (hfresh : M.vma.origProt ≠ PROT_NONE → ¬TakesFile M.vma m.toSpace → (m.pte x).valid = false →
      Delivers M value (x / PGSIZE) fun _ => 0)
    (hrun : pagefaultHandler arch env x m = some (sig, m')) :
    Holds M value m' ∧ Around (x / PGSIZE) m m' ∧
      (StaysAt (x / PGSIZE) m m' ∨ CowCopies arch x M.vma m.toSpace) := by
  rw [pagefaultHandler_eq h hx] at hrun
  split at hrun
  · cases hrun
    exact ⟨h, .refl _ _, .inl fun hv => ⟨hv, rfl⟩⟩
  rename_i hprot
  rcases cowPart_cases arch x M.vma m with ⟨j, heq⟩ | ⟨m₁, heq, hcopied⟩
  · rw [heq] at hrun
    have hskip : Holds M value (m.skip j) := h.same rfl rfl fun _ => ⟨rfl, rfl⟩
    have hands' : Hands (m.skip j) := hands.rest rfl fun q hv => .inl ⟨hv, rfl⟩
    obtain ⟨hholds, haround, hstays⟩ := lastPart_holds hskip hands' hx (hread hprot) (hfresh hprot) hrun
    exact ⟨hholds, ⟨haround.vmas, haround.ofile, haround.content, haround.others, haround.leaf⟩, .inl hstays⟩
  · have hcow : CowCopies arch x M.vma m.toSpace := cowPart_copied hprot (by rw [heq])
    rw [heq] at hrun
    have htakes : TakesFile M.vma m₁.toSpace ↔ TakesFile M.vma m.toSpace := by
      unfold TakesFile
      rw [hcopied.around.ofile]
    have hvalid : (m₁.pte x).valid = true := hcopied.page.1
    obtain ⟨hholds, haround, -⟩ := lastPart_holds (hcopied.holds h hands) (hcopied.hands hands) hx
      (fun hfile _ hseek => by
        rw [hcopied.around.content]
        exact hread hprot (htakes.mp hfile) hcopied.valid hseek)
      (fun _ hv => absurd (hvalid.symm.trans hv) (by decide)) hrun
    exact ⟨hholds, hcopied.around.trans haround, .inr hcow⟩

/-! ## Faults of the user -/

/-- A page that can be written can be read on RISC-V. -/
theorem permits_load {pte : Pte} (h : permits .riscv .store pte = true) : permits .riscv .load pte = true := by
  unfold permits at h ⊢
  simp only [Bool.and_eq_true] at h ⊢
  exact ⟨h.1, h.2.1⟩

theorem permits_valid {access : Access} {pte : Pte} (h : permits arch access pte = true) : pte.valid = true := by
  unfold permits at h
  rw [Bool.and_eq_true] at h
  exact h.1

/-- The handler is asked only for a page that cannot be written, or the machine stays as it is. -/
theorem usertrapFault_handled {access : Access} {outcome : Space.Outcome} (hfault : permits arch access (m.pte x) = false)
    (h : usertrapFault arch env access x m = some (outcome, m')) :
    m' = m ∨ access ≠ .fetch ∧ permits arch .store (m.pte x) = false ∧
      ∃ sig, pagefaultHandler arch env x m = some (sig, m') := by
  have hhandled {g : _ → Space.Outcome × Machine} (hg : ∀ x, (g x).2 = x.2)
      (hmap : (pagefaultHandler arch env x m).map g = some (outcome, m')) :
      ∃ sig, pagefaultHandler arch env x m = some (sig, m') := by
    obtain ⟨⟨sig, t⟩, heq, hpair⟩ := Option.map_eq_some_iff.mp hmap
    have hstate := hg (sig, t)
    rw [hpair] at hstate
    cases hstate
    exact ⟨sig, heq⟩
  cases access with
  | store => cases arch <;> exact .inr ⟨by decide, hfault, hhandled (fun _ => rfl) h⟩
  | load =>
    refine .inr ⟨by decide, ?_, ?_⟩
    · rw [Bool.eq_false_iff]
      intro hstore
      cases arch with
      | riscv => exact absurd (hfault.symm.trans (permits_load hstore)) (by decide)
      | loongarch =>
        dsimp only [usertrapFault] at h
        rw [if_pos (permits_valid hstore)] at h
        cases h
    · cases arch with
      | riscv => exact hhandled (fun _ => rfl) h
      | loongarch =>
        dsimp only [usertrapFault] at h
        split at h
        · cases h
        · exact hhandled (fun _ => rfl) h
  | fetch =>
    cases arch with
    | riscv =>
      cases h
      exact .inl rfl
    | loongarch => cases h

/-- A page that is mapped elsewhere, or stays, is not lost. -/
theorem dropped_eq_empty (haround : Around k m m') (h : StaysAt k m m' ∨ MappedElsewhere m k (m.leaf k).pa) :
    dropped k m m' = ∅ := by
  apply Set.eq_empty_of_forall_notMem
  rintro pa ⟨hv, rfl, hmoved, -, hnot⟩
  rcases h with hstays | helsewhere
  · exact hmoved (hstays hv).2
  · exact hnot (haround.elsewhere helsewhere)

/-! ## Runs -/

/-- What every state of a run has: a byte that was written is in a page that can be written. -/
structure Inv (arch : Arch) (M : Mapping) (s : State) : Prop where
  holds : Holds M (M.value s.written) s.machine
  writable : ∀ x, M.Has x → s.written x ≠ none → permits arch .store (s.machine.pte x) = true
  lost : s.lost = ∅

variable {s s' : State} {op : Op}

theorem Starts.inv (h : Starts M s) : Inv arch M s := by
  constructor
  · rw [h.written]
    exact h.holds
  · intro x _ hne
    rw [h.written] at hne
    exact absurd rfl hne
  · exact h.lost

theorem Inv.right (h : Inv arch M s) : Right arch M s where
  contents x hx hok := h.holds.bytes x hx (permits_valid hok)
  nothingLost := h.lost

/-- The new byte is where it was written, and the others are where they were. -/
theorem Holds.store {written : Nat → Option UInt8} {b : UInt8} (h : Holds M (M.value written) m) (hx : M.Has x)
    (hv : (m.pte x).valid = true) :
    Holds M (M.value (update written x (some b))) { m with mem := update m.mem (m.address x) b } := by
  refine ⟨h.area, h.sorted, h.aligned, h.apart, fun y hy hvy => ?_⟩
  show update m.mem (m.address x) b (m.address y) = _
  unfold Mapping.value
  by_cases hyx : y = x
  · subst hyx
    rw [update_self, update_self]
    rfl
  · have hne : m.address y ≠ m.address x := fun heq => hyx (h.address_inj hy hx hvy hv heq)
    rw [update_of_ne hne, update_of_ne hyx]
    exact h.bytes y hy hvy

/-- The pages that are free and those that others map are not what the mapping reads. -/
theorem Holds.meanwhile {supply : Nat → Nat} {others : Nat → Bool} (h : Holds M value m) :
    Holds M value (m.meanwhile supply others) := ⟨h.area, h.sorted, h.aligned, h.apart, h.bytes⟩

theorem Holds.setFile {fd : Int} {file : Option (File × (Nat → UInt8))} (h : Holds M value m) :
    Holds M value (m.setFile fd file) := ⟨h.area, h.sorted, h.aligned, h.apart, h.bytes⟩

/-- A page in which the user can fault holds the bytes of the file: it was never written. -/
theorem Inv.value_eq (h : Inv arch M s) (hfault : permits arch .store (s.machine.pte x) = false) (hy : M.Has y)
    (hpage : y / PGSIZE = x / PGSIZE) : M.value s.written y = M.fileByte y := by
  have hnone : s.written y = none := by
    by_contra hne
    have hok := h.writable y hy hne
    rw [pte_eq hpage, hfault] at hok
    cases hok
  unfold Mapping.value
  rw [hnone]
  rfl

/-- A harmless fault keeps the invariant. -/
theorem Inv.fault {m₀ : Machine} {supply : Nat → Nat} {others : Nat → Bool} (h : Inv arch M s) (hx : M.Has x)
    (hm : s.machine.meanwhile supply others = m₀) (hands : Hands m₀) (hharm : Harmless arch M env x m₀)
    (hstore : permits arch .store (m₀.pte x) = false)
    (hrun : pagefaultHandler arch env x m₀ = some (sig, m')) :
    Inv arch M { s with machine := m', lost := s.lost ∪ dropped (x / PGSIZE) m₀ m' } := by
  have hleaf : m₀.leaf = s.machine.leaf := by
    rw [← hm]
    rfl
  have hholds : Holds M (M.value s.written) m₀ := hm ▸ h.holds.meanwhile
  have hstore' : permits arch .store (s.machine.pte x) = false := by
    unfold Space.pte at hstore ⊢
    rwa [hleaf] at hstore
  have hvalue : ∀ y, M.Has y → y / PGSIZE = x / PGSIZE → M.value s.written y = M.fileByte y :=
    fun y hy hpage => h.value_eq hstore' hy hpage
  obtain ⟨hholds', haround, hstays⟩ := pagefaultHandler_holds hholds hands hx
    (fun hprot hfile hv hseek y hy hpage => by
      rw [hvalue y hy hpage]
      exact (hharm.read hprot hfile hv hseek).2 y hy hpage)
    (fun hprot hfile hv y hy hpage => by
      rw [hvalue y hy hpage]
      exact (hharm.fresh hprot hfile hv y hy hpage).symm) hrun
  refine ⟨hholds', fun y hy hne => ?_, ?_⟩
  · have hok := h.writable y hy hne
    have hpage : y / PGSIZE ≠ x / PGSIZE := by
      intro hpage
      rw [pte_eq hpage, hstore'] at hok
      cases hok
    show permits arch .store (m'.leaf (y / PGSIZE)) = true
    rw [haround.leaf _ hpage, hleaf]
    exact hok
  · show s.lost ∪ _ = ∅
    rw [h.lost, dropped_eq_empty haround (hstays.imp_right hharm.copied), Set.empty_union]

theorem Inv.step (h : Inv arch M s) (hmeets : Meets arch M s op) (hstep : Step arch M op s s') : Inv arch M s' := by
  cases hstep with
  | load hx hok => exact h
  | @store _ x b hx hok =>
    refine ⟨h.holds.store hx (permits_valid hok), fun y hy hne => ?_, h.lost⟩
    by_cases hyx : y = x
    · rw [hyx]
      exact hok
    · have hsame : update s.written x (some b) y = s.written y := update_of_ne hyx _ _
      exact h.writable y hy fun hnone => hne (hsame.trans hnone)
  | descriptor => exact ⟨h.holds.setFile, h.writable, h.lost⟩
  | @fault _ env access x supply others outcome m hx hfault hands hrun =>
    rcases usertrapFault_handled (m := s.machine.meanwhile supply others) hfault hrun with
      rfl | ⟨haccess, hstore, sig, hrun⟩
    · refine ⟨h.holds.meanwhile, h.writable, ?_⟩
      show s.lost ∪ _ = ∅
      rw [h.lost, dropped_eq_empty (.refl _ _) (.inl fun hv => ⟨hv, rfl⟩), Set.empty_union]
    · exact h.fault hx rfl hands (hmeets haccess) hstore hrun

/-- In every run whose faults are harmless, each byte reads as the last one written or as that of the mapped file,
and no page is lost. -/
theorem mapping_right_run (hstart : Starts M s)
    (hrun : Reaches (fun s s' => ∃ op, Meets arch M s op ∧ Step arch M op s s') s s') : Right arch M s' := by
  have hinv : Inv arch M s' := by
    apply hrun.invariant hstart.inv
    rintro t t' ht ⟨op, hmeets, hstep⟩
    exact ht.step hmeets hstep
  exact hinv.right

/-! ## A mapping of one page -/

/-- A page at 0x1000 that may be read and written, of a file of `A`s. -/
def oneMapping : Mapping where
  vma := { Vma.zero with
    type := .MMAP, origProt := 3, addr := 0x1000, size := 0x1000, end_ := 0x2000, flags := 2, fd := 3 }
  len := 0x1000
  original := fun _ => 65
  file := by decide
  notShared := fun h => absurd h.1 (by decide)
  inside := by decide

/-- Its machine, in which the page waits for its first write and others map it as well. -/
def oneMachine : Machine where
  vmas := [oneMapping.vma]
  leaf := fun q => if q = 1 then ⟨0x80000000, PTE_R .riscv ||| PTE_U .riscv ||| PTE_V⟩ else Pte.zero
  sz := 0
  virtAddr := 0
  ofile := fun fd => if fd = 3 then some ⟨O_RDWR, true⟩ else none
  shm := fun _ => ⟨0, 0, 0, false, none, 0⟩
  mapAddr := 0x2000
  supply := fun _ => NULL
  freed := []
  memStart := 0x80000000
  memEnd := 0x90000000
  mem := fun _ => 65
  content := fun _ _ => 65
  others := fun _ => true

def oneStart : State := ⟨oneMachine, fun _ => none, ∅⟩

theorem onePage (hx : oneMapping.Has x) : x / PGSIZE = 1 := by
  obtain ⟨hlo, hhi⟩ := hx
  simp only [oneMapping, PGSIZE] at hlo hhi ⊢
  omega

theorem oneStart_starts : Starts oneMapping oneStart where
  holds := by
    refine ⟨List.mem_singleton.mpr rfl, ?_, ?_, ?_, ?_⟩
    · refine ⟨List.pairwise_singleton _ _, fun v hv => ?_⟩
      rw [List.mem_singleton.mp hv]
      exact ⟨by decide, by decide, by decide⟩
    · intro x hx _
      unfold Space.pte
      rw [onePage hx]
      decide
    · intro x y hx hy _ _ _
      rw [onePage hx, onePage hy]
    · exact fun _ _ _ => rfl
  written := rfl
  lost := rfl

/-- One free page. -/
def oneSupply (n : Nat) : Nat := if n = 0 then 0x80001000 else NULL

theorem oneSupply_hands (hleaf : m.leaf = oneMachine.leaf) : Hands (m.meanwhile oneSupply fun _ => true) := by
  intro n hne
  have hn : n = 0 := by
    by_contra hn
    exact hne (if_neg hn)
  subst hn
  refine ⟨show oneSupply 0 % PGSIZE = 0 by decide, fun q hv => ?_, fun n' heq => ?_⟩
  · have hother : (oneMachine.leaf q).valid = true → (oneMachine.leaf q).pa ≠ oneSupply 0 := by
      by_cases hq : q = 1
      · subst hq
        decide
      · simp only [oneMachine, if_neg hq]
        decide
    rw [← hleaf] at hother
    exact hother hv
  · by_contra hn
    have hnull : oneSupply n' = NULL := if_neg hn
    exact absurd (hnull.symm.trans heq) (show NULL ≠ oneSupply 0 by decide)

/-- Every read delivers a page. -/
def wholeReads : FileEnv := ⟨0, 0x1000, 0, fun _ => 0x1000⟩

/-- The fault at the first write is harmless. -/
theorem oneFault_harmless :
    Harmless .riscv oneMapping wholeReads 0x1000 (oneMachine.meanwhile oneSupply fun _ => true) where
  copied _ := .inl rfl
  read _ _ _ _ := by
    refine ⟨by decide, fun y _ _ => ?_⟩
    have hlt := offset_lt y
    have hpage : min (sub64 oneMapping.vma.end_ (pgRoundDown 0x1000)) PGSIZE = PGSIZE := by decide
    have hread : wholeReads.read (pgRoundDown 0x1000) = PGSIZE := rfl
    unfold fileBytes
    rw [hpage, hread]
    exact if_pos ⟨hlt, Int.ofNat_lt.mpr hlt⟩
  fresh _ _ hv := absurd hv (by decide)

/-- The first write to a page that others map as well, and to which the file is read once more. -/
theorem mapping_right_run_firstWrite :
    ∃ s', Step .riscv oneMapping (.fault wholeReads .store 0x1000 oneSupply fun _ => true) oneStart s' ∧
      Right .riscv oneMapping s' := by
  obtain ⟨⟨outcome, m⟩, hm⟩ := Option.isSome_iff_exists.mp
    (show (usertrapFault .riscv wholeReads .store 0x1000
      (oneMachine.meanwhile oneSupply fun _ => true)).isSome = true by decide +kernel)
  have hstep := Step.fault (s := oneStart) (x := 0x1000) (M := oneMapping) (by unfold Mapping.Has; decide) (by decide)
    (oneSupply_hands rfl) hm
  exact ⟨_, hstep, mapping_right_run oneStart_starts (.single
    ⟨.fault wholeReads .store 0x1000 oneSupply fun _ => true, fun _ => oneFault_harmless, hstep⟩)⟩

/-- A file of `B`s. -/
def otherFile : Option (File × (Nat → UInt8)) := some (⟨O_RDWR, true⟩, fun _ => 66)

/-- After the descriptor was made to refer to another file, the first write leaves that file in the page. -/
theorem not_right_otherFile : ¬∀ (arch : Arch) (M : Mapping) (s s' : State), Starts M s →
    Reaches (fun s s' => ∃ op, Step arch M op s s') s s' → Right arch M s' := by
  intro hall
  obtain ⟨⟨outcome, m⟩, hm, hbytes⟩ := Option.map_eq_some_iff.mp
    (show (usertrapFault .riscv wholeReads .store 0x1000
      ((oneMachine.setFile 3 otherFile).meanwhile oneSupply fun _ => true)).map
        (fun r => (permits .riscv .load (r.2.pte 0x1000), r.2.mem (r.2.address 0x1000))) = some (true, 66) by
      decide +kernel)
  obtain ⟨hload, hbyte⟩ := Prod.mk.inj hbytes
  have hx : oneMapping.Has 0x1000 := by
    unfold Mapping.Has
    decide
  have hfile := @Step.descriptor .riscv oneMapping oneStart otherFile
  have hfault := Step.fault (M := oneMapping) (s := { oneStart with machine := oneMachine.setFile 3 otherFile })
    hx (by decide) (oneSupply_hands rfl) hm
  have hright := hall .riscv oneMapping oneStart _ oneStart_starts
    (Relation.ReflTransGen.head ⟨_, hfile⟩ (.single ⟨_, hfault⟩))
  have h65 : m.mem (m.address 0x1000) = 65 := hright.contents 0x1000 hx hload
  exact absurd (hbyte.symm.trans h65) (show (66 : UInt8) ≠ 65 by decide)

end SC7.FileMapping
