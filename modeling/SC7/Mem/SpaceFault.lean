-- SUMMARY: What a page fault must meet to keep an address space sound, and when a forbidden access ends in a signal.
import SC7.Mem.SpaceSound

/-!
# Rights after a page fault

`pagefault_handler` is not told what the user tried to do. Where it finds a page that it can make
writable, or no page, it makes one; it refuses only where the protection is `PROT_NONE`, where there
is no area, and at a page of a shared segment that is mapped already. `FaultMeets` says when that is
within the protection.
-/

namespace SC7

namespace Space

variable {arch : Arch} {prot : Int} {P : Nat → Prop} {s s' : Space} {addr va : Nat} {v : Vma} {sig : Option Sig}
  {env : FileEnv} {access : Access} {o : Outcome}

/-! ## What the handler does to the page -/

/-- The handler takes the page for one that waits for its first write. -/
def TakesCow (arch : Arch) (addr : Nat) (v : Vma) (s : Space) : Prop :=
  v.origProt ≠ PROT_NONE ∧ hasBits v.flags MAP_PRIVATE = true ∧ (s.pte addr).valid = true ∧
    Bits.has (s.pte addr).flags (PTE_W arch) = false

/-- The copy on write succeeds: the first area that has the page is private, and there is memory. -/
def CowCopies (arch : Arch) (addr : Nat) (v : Vma) (s : Space) : Prop :=
  TakesCow arch addr v s ∧ s.supply 0 ≠ NULL ∧
    ∃ w, (s.vmas.find? fun w => pgRoundDown addr ≥ w.addr ∧ pgRoundDown addr < w.end_) = some w ∧
      hasBits w.flags MAP_PRIVATE = true

/-- The handler leaves the page to the file of a private mapping. -/
def TakesFile (v : Vma) (s : Space) : Prop :=
  hasBits v.flags MAP_PRIVATE = true ∧ v.fd ≠ -1 ∧ (s.ofile v.fd).isSome = true

/-- The handler leaves the page to a shared segment. -/
def TakesShared (v : Vma) : Prop := v.type = .SHARE ∧ v.shmKernel ≠ NULL

/-- The handler maps a page of its own, or adds all rights to the page that is there. -/
def TakesGeneric (arch : Arch) (addr : Nat) (v : Vma) (s : Space) : Prop :=
  v.origProt ≠ PROT_NONE ∧ ¬(CowCopies arch addr v s ∧ v.fd = -1) ∧ ¬TakesFile v s ∧ ¬TakesShared v

theorem pte_pgRoundDown : s.pte (pgRoundDown addr) = s.pte addr := by
  rw [pte, pgRoundDown, page_div, pte]

theorem pgRoundDown_div : pgRoundDown addr / PGSIZE = addr / PGSIZE := page_div

theorem pgRoundDown_mod : pgRoundDown addr % PGSIZE = 0 := page_mod

theorem handleCowWrite_maps (hw : hasBits prot PROT_WRITE = true) (hp : P (addr / PGSIZE)) :
    Maps arch prot P s (handleCowWrite arch (pgRoundDown addr) s).2 := by
  unfold handleCowWrite
  split
  · exact .refl
  split
  · rename_i hc
    dsimp only
    split
    · exact .of_eq rfl rfl
    have hs : Maps arch prot P s s.alloc.2 := .of_eq rfl rfl
    refine hs.trans (maps_setLeaf (by rwa [pgRoundDown_div]) ?_)
    rw [pgRoundDown_div]
    intro hwithin
    have hv : (s.alloc.2.leaf (addr / PGSIZE)).valid = true := by
      have := hc.2
      rwa [pte_pgRoundDown] at this
    have hpte : s.alloc.2.pte (pgRoundDown addr) = s.alloc.2.leaf (addr / PGSIZE) := pte_pgRoundDown
    rw [hpte]
    cases arch with
    | riscv => exact hwithin.cowWrite hv hw (by decide) (by decide)
    | loongarch =>
      dsimp only
      rw [Nat.or_assoc (PTE_FLAGS .loongarch _)]
      exact hwithin.cowWrite hv hw (by decide) (by decide)
  · exact .refl

theorem handleCowWrite_copied (h : (handleCowWrite arch (pgRoundDown addr) s).1 = true) :
    s.supply 0 ≠ NULL ∧
      ∃ w, (s.vmas.find? fun w => pgRoundDown addr ≥ w.addr ∧ pgRoundDown addr < w.end_) = some w ∧
        hasBits w.flags MAP_PRIVATE = true := by
  unfold handleCowWrite at h
  split at h
  · cases h
  rename_i w hfind
  split at h
  · rename_i hc
    dsimp only at h
    split at h
    · cases h
    · rename_i hmem
      exact ⟨hmem, w, hfind, hc.1⟩
  · cases h

theorem handleCowWrite_copies {w : Vma} (hmem : s.supply 0 ≠ NULL) (hv : (s.pte addr).valid = true)
    (hfind : (s.vmas.find? fun w => pgRoundDown addr ≥ w.addr ∧ pgRoundDown addr < w.end_) = some w)
    (hw : hasBits w.flags MAP_PRIVATE = true) :
    (handleCowWrite arch (pgRoundDown addr) s).1 = true := by
  unfold handleCowWrite
  rw [hfind]
  dsimp only
  rw [if_pos ⟨hw, by rwa [pte_pgRoundDown]⟩, if_neg (show s.alloc.1 ≠ NULL from hmem)]

theorem faultGeneric_maps (hw : hasBits prot PROT_WRITE = true)
    (hx : hasBits prot PROT_EXEC = true) (hp : P (addr / PGSIZE))
    (h : faultGeneric arch (pgRoundDown addr) s = some (sig, s')) : Maps arch prot P s s' := by
  have hs : Maps arch prot P s s.alloc.2 := .of_eq rfl rfl
  rw [faultGeneric] at h
  dsimp only at h
  split at h
  · cases h
  split at h
  · cases h
    exact hs.trans (.of_eq rfl rfl)
  split at h
  · cases h
    exact hs.trans (maps_setLeaf (by rwa [pgRoundDown_div]) fun _ => .of_flags (.of_both hw hx))
  obtain ⟨⟨r, t⟩, hmap, hrest⟩ := Option.bind_eq_some_iff.mp h
  dsimp only at hrest
  split at hrest
  · cases hrest
  · cases hrest
    exact hs.trans (maps_mappages pgRoundDown_mod (by rwa [pgRoundDown_div]) (.of_both hw hx) hmap)

theorem faultFile_same (h : faultFile arch env va s = some (sig, s')) : s'.vmas = s.vmas ∧ s'.leaf = s.leaf := by
  rw [faultFile] at h
  split at h
  · cases h
    exact ⟨rfl, rfl⟩
  obtain ⟨pa, -, heq⟩ := Option.map_eq_some_iff.mp h
  split at heq <;> cases heq <;> exact ⟨rfl, rfl⟩

/-- A copy on write leaves the page valid. -/
theorem handleCowWrite_valid (hv : (s.pte addr).valid = true) :
    ((handleCowWrite arch (pgRoundDown addr) s).2.pte addr).valid = true := by
  unfold handleCowWrite
  split
  · exact hv
  split
  · dsimp only
    split
    · exact hv
    · simp only [pte, setLeaf, pgRoundDown_div, Function.update_self]
      show Bits.has (_ ||| PTE_V) PTE_V = true
      rw [Bits.has_or, show Bits.has PTE_V PTE_V = true from rfl, Bool.or_true]
  · exact hv

theorem handleCowWrite_ofile : (handleCowWrite arch va s).2.ofile = s.ofile := by
  unfold handleCowWrite
  split
  · rfl
  split
  · dsimp only
    split <;> rfl
  · rfl

/-- The step of the handler that may copy the page. -/
def cowStep (arch : Arch) (addr : Nat) (v : Vma) (s : Space) : Bool × Space :=
  if hasBits v.flags MAP_PRIVATE = true ∧ (s.pte addr).valid = true ∧
    ¬Bits.has (s.pte addr).flags (PTE_W arch) = true then
      handleCowWrite arch (pgRoundDown addr) s else (false, s)

theorem cowStep_copied (hprot : v.origProt ≠ PROT_NONE) :
    (cowStep arch addr v s).1 = true ↔ CowCopies arch addr v s := by
  unfold cowStep
  constructor
  · intro h
    split at h
    · rename_i hc
      obtain ⟨hmem, hfind⟩ := handleCowWrite_copied h
      exact ⟨⟨hprot, hc.1, hc.2.1, by simpa using hc.2.2⟩, hmem, hfind⟩
    · cases h
  · rintro ⟨⟨-, hpriv, hv, hw⟩, hmem, w, hfind, hwpriv⟩
    rw [if_pos ⟨hpriv, hv, by rw [hw]; decide⟩]
    exact handleCowWrite_copies hmem hv hfind hwpriv

theorem cowStep_maps (hp : P (addr / PGSIZE)) (hprot : v.origProt ≠ PROT_NONE)
    (hcow : TakesCow arch addr v s → hasBits prot PROT_WRITE = true) :
    Maps arch prot P s (cowStep arch addr v s).2 := by
  unfold cowStep
  split
  · rename_i hc
    exact handleCowWrite_maps (hcow ⟨hprot, hc.1, hc.2.1, by simpa using hc.2.2⟩) hp
  · exact .refl

/-- Where the page is still not valid, nothing was copied. -/
theorem cowStep_invalid (h : ((cowStep arch addr v s).2.pte addr).valid = false) :
    (cowStep arch addr v s).2 = s := by
  unfold cowStep at h ⊢
  split
  · rename_i hc
    rw [if_pos hc, handleCowWrite_valid hc.2.1] at h
    cases h
  · rfl

theorem cowStep_ofile : (cowStep arch addr v s).2.ofile = s.ofile := by
  unfold cowStep
  split
  · exact handleCowWrite_ofile
  · rfl

theorem faultShared_cases (h : faultShared arch addr (pgRoundDown addr) v s = some (sig, s')) :
    (s'.vmas = s.vmas ∧ s'.leaf = s.leaf) ∨
      ((s.pte addr).valid = false ∧ ∃ (t : Space) (pa : Nat) (r : Int), t.vmas = s.vmas ∧ t.leaf = s.leaf ∧
        t.mappages arch (pgRoundDown addr) pa PGSIZE (v.perm ||| PTE_U arch) = some (r, s')) := by
  rw [faultShared] at h
  dsimp only at h
  split at h
  · cases h
    exact .inl ⟨rfl, rfl⟩
  split at h
  · cases h
    exact .inl ⟨rfl, rfl⟩
  obtain ⟨⟨pa, t⟩, hpage, h⟩ := Option.bind_eq_some_iff.mp h
  have ht : t.vmas = s.vmas ∧ t.leaf = s.leaf := by
    split at hpage
    · obtain ⟨s₁, hnode, heq⟩ := Option.map_eq_some_iff.mp hpage
      cases heq
      rw [allocNode] at hnode
      split at hnode
      · cases hnode
      · cases hnode
        exact ⟨rfl, rfl⟩
    · cases hpage
      exact ⟨rfl, rfl⟩
  dsimp only at h
  split at h
  · cases h
    exact .inl ht
  rename_i hv
  obtain ⟨⟨r, u⟩, hmap, hrest⟩ := Option.bind_eq_some_iff.mp h
  dsimp only at hrest
  split at hrest
  · cases hrest
  · cases hrest
    refine .inr ⟨?_, t, pa, r, ht.1, ht.2, hmap⟩
    rwa [pte_pgRoundDown, pte, ht.2, Bool.not_eq_true] at hv

theorem pagefaultHandler_maps (hp : P (addr / PGSIZE))
    (hheap : findVma addr s.vmas = none → hasBits prot PROT_WRITE = true ∧ hasBits prot PROT_EXEC = true)
    (hcow : ∀ v, findVma addr s.vmas = some v → TakesCow arch addr v s → hasBits prot PROT_WRITE = true)
    (hgen : ∀ v, findVma addr s.vmas = some v → TakesGeneric arch addr v s →
      hasBits prot PROT_WRITE = true ∧ hasBits prot PROT_EXEC = true)
    (hshared : ∀ v, findVma addr s.vmas = some v → v.origProt ≠ PROT_NONE → TakesShared v →
      (s.pte addr).valid = false → FlagsWithin arch prot (v.perm ||| PTE_U arch))
    (h : pagefaultHandler arch env addr s = some (sig, s')) : Maps arch prot P s s' := by
  rw [pagefaultHandler] at h
  dsimp only at h
  split at h
  · rename_i hnone
    split at h
    · obtain ⟨hw, hx⟩ := hheap hnone
      exact faultGeneric_maps hw hx hp h
    · cases h
      exact .refl
  rename_i v hfind
  split at h
  · cases h
    exact .refl
  rename_i hprot
  rw [pte_pgRoundDown] at h
  change (if (cowStep arch addr v s).1 = true ∧ v.fd = -1 then some (none, (cowStep arch addr v s).2)
    else if hasBits v.flags MAP_PRIVATE = true ∧ v.fd ≠ -1 ∧
      ((cowStep arch addr v s).2.ofile v.fd).isSome = true then
      faultFile arch env (pgRoundDown addr) (cowStep arch addr v s).2
    else if v.type = .SHARE ∧ v.shmKernel ≠ NULL then
      faultShared arch addr (pgRoundDown addr) v (cowStep arch addr v s).2
    else faultGeneric arch (pgRoundDown addr) (cowStep arch addr v s).2) = some (sig, s') at h
  have hmaps : Maps arch prot P s (cowStep arch addr v s).2 := cowStep_maps hp hprot (hcow v hfind)
  rw [cowStep_ofile] at h
  split at h
  · cases h
    exact hmaps
  rename_i hnotcopied
  rw [cowStep_copied hprot] at hnotcopied
  split at h
  · obtain ⟨hvmas, hleaf⟩ := faultFile_same h
    exact hmaps.trans (.of_eq hvmas hleaf)
  rename_i hnotfile
  split at h
  · rename_i hsh
    rcases faultShared_cases h with ⟨hvmas, hleaf⟩ | ⟨hv, t, pa, r, hvmas, hleaf, hmap⟩
    · exact hmaps.trans (.of_eq hvmas hleaf)
    · have hf := hshared v hfind hprot hsh (by rwa [cowStep_invalid hv] at hv)
      exact (hmaps.trans (.of_eq hvmas hleaf)).trans
        (maps_mappages pgRoundDown_mod (by rwa [pgRoundDown_div]) (hf.or .valid) hmap)
  · rename_i hnotshared
    obtain ⟨hw, hx⟩ := hgen v hfind ⟨hprot, hnotcopied, hnotfile, hnotshared⟩
    exact hmaps.trans (faultGeneric_maps hw hx hp h)

/-! ## Sound faults -/

/-- The protection lets the access through. -/
def Allows (prot : Int) : Access → Prop
  | .load => hasBits prot PROT_READ = true
  | .store => hasBits prot PROT_WRITE = true
  | .fetch => hasBits prot PROT_EXEC = true

/-- The access is to a mapping whose protection does not let it through. -/
def Forbidden (access : Access) (addr : Nat) (s : Space) : Prop :=
  ∃ v ∈ s.vmas, v.Mapping ∧ v.addr ≤ addr ∧ addr < v.end_ ∧ ¬Allows v.origProt access

/-- The handler refuses at a shared segment: behind the end of the file, or because the page is mapped
already. -/
def SharedRefuses (addr : Nat) (v : Vma) (s : Space) : Prop :=
  sub64 addr v.addr > v.fsize ∨
    (sub64 (pgRoundDown addr) v.addr / PGSIZE < ((s.shm v.shmKernel).size + PGSIZE - 1) % 2 ^ 64 / PGSIZE ∧
      (((s.shm v.shmKernel).shmPages.getD []).getD (sub64 (pgRoundDown addr) v.addr / PGSIZE) 0 ≠ 0 ∨
        s.supply 0 ≠ NULL) ∧ (s.pte addr).valid = true)

/-- What a page fault must meet to keep the space sound, and to end in a signal if it is forbidden. -/
structure FaultMeets (arch : Arch) (access : Access) (addr : Nat) (s : Space) : Prop where
  /-- The mapping that has the page is the area that the handler finds. -/
  found : ∀ v ∈ s.vmas, v.Mapping → v.HasPage (addr / PGSIZE) ∨ (v.addr ≤ addr ∧ addr < v.end_) →
    findVma addr s.vmas = some v
  /-- A page that is copied for a write may be written to. -/
  cow : ∀ v, findVma addr s.vmas = some v → v.Mapping → TakesCow arch addr v s →
    hasBits v.origProt PROT_WRITE = true
  /-- A page that gets all rights may have them. -/
  generic : ∀ v, findVma addr s.vmas = some v → v.Mapping → TakesGeneric arch addr v s →
    hasBits v.origProt PROT_WRITE = true ∧ hasBits v.origProt PROT_EXEC = true
  /-- The flags that an area keeps have lost `PTE_NX`. -/
  shared : arch = .loongarch → ∀ v, findVma addr s.vmas = some v → v.Mapping → v.origProt ≠ PROT_NONE →
    TakesShared v → (s.pte addr).valid = false → hasBits v.origProt PROT_EXEC = true
  /-- A forbidden fetch is no signal, nor is a forbidden load from a valid page on LoongArch. -/
  signal : Forbidden access addr s →
    access ≠ .fetch ∧ (arch = .loongarch → access = .load → (s.pte addr).valid = false)
  /-- The handler is not told about the access: it refuses where nothing is allowed, and at shared
  segments. -/
  refused : Forbidden access addr s → ∀ v, findVma addr s.vmas = some v → v.origProt ≠ PROT_NONE →
    hasBits v.flags MAP_PRIVATE = false ∧ TakesShared v ∧ SharedRefuses addr v s

theorem findVma_mem {L : List Vma} (h : findVma addr L = some v) : v ∈ L := by
  induction L with
  | nil => cases h
  | cons w ws ih =>
    rw [findVma] at h
    split at h
    · exact List.mem_cons_of_mem _ (ih h)
    split at h
    · cases h
      exact List.mem_cons_self
    · cases h

/-- A change of one page keeps the space sound, if it is within the protection of the mapping that has
the page. -/
theorem Maps.sound (hs : Sound arch s.toMm) (hmaps : Maps arch prot P s s')
    (hpage : ∀ v ∈ s.vmas, v.Mapping → ∀ vpn, v.HasPage vpn → P vpn → prot = v.origProt) :
    Sound arch s'.toMm := by
  constructor
  · intro v hv hmapping vpn hp
    rw [hmaps.vmas] at hv
    have hbefore := hs.rights v hv hmapping vpn hp
    rcases hmaps.leaf vpn with hsame | ⟨hP, hafter⟩
    · rwa [hsame]
    · rw [hpage v hv hmapping vpn hp hP] at hafter
      exact hafter hbefore
  · intro v hv hmapping
    rw [hmaps.vmas] at hv
    exact hs.perm v hv hmapping

theorem pagefaultHandler_sound (hs : Sound arch s.toMm)
    (hmeets : FaultMeets arch access addr s) (h : pagefaultHandler arch env addr s = some (sig, s')) :
    Sound arch s'.toMm ∧ s'.vmas = s.vmas := by
  by_cases hmapping : ∃ v, findVma addr s.vmas = some v ∧ v.Mapping
  · obtain ⟨v, hfind, hv⟩ := hmapping
    have hmaps : Maps arch v.origProt (fun vpn => vpn = addr / PGSIZE) s s' := by
      refine pagefaultHandler_maps rfl (fun hnone => ?_) (fun w hw => ?_) (fun w hw => ?_)
        (fun w hw hprot hsh hinvalid => ?_) h
      · rw [hfind] at hnone
        cases hnone
      · obtain rfl := Option.some.inj (hfind.symm.trans hw)
        exact hmeets.cow v hfind hv
      · obtain rfl := Option.some.inj (hfind.symm.trans hw)
        exact hmeets.generic v hfind hv
      · obtain rfl := Option.some.inj (hfind.symm.trans hw)
        have hperm : Adds arch v.origProt v.perm := hs.perm v (findVma_mem hfind) hv
        exact (hperm.or .user).within fun hla => hmeets.shared hla v hfind hv hprot hsh hinvalid
    refine ⟨hmaps.sound hs fun w hw hwm vpn hp hvpn => ?_, hmaps.vmas⟩
    have hfound := hmeets.found w hw hwm (.inl (hvpn ▸ hp))
    rw [Option.some.inj (hfind.symm.trans hfound)]
  · -- no mapping has the page, so its rights do not matter
    have hmaps : Maps arch (6 : Int) (fun vpn => vpn = addr / PGSIZE) s s' :=
      pagefaultHandler_maps rfl (fun _ => by decide) (fun _ _ _ => by decide) (fun _ _ _ => by decide)
        (fun _ _ _ _ _ => .of_both (by decide) (by decide)) h
    refine ⟨hmaps.sound hs fun w hw hwm vpn hp hvpn => ?_, hmaps.vmas⟩
    exact absurd ⟨w, hmeets.found w hw hwm (.inl (hvpn ▸ hp)), hwm⟩ hmapping

theorem usertrapFault_cases (h : usertrapFault arch env access addr s = some (o, s')) :
    s' = s ∨ ∃ sig, pagefaultHandler arch env addr s = some (sig, s') := by
  have hhandled {g : _ → Outcome × Space} (hg : ∀ x, (g x).2 = x.2)
      (hmap : (pagefaultHandler arch env addr s).map g = some (o, s')) :
      ∃ sig, pagefaultHandler arch env addr s = some (sig, s') := by
    obtain ⟨⟨sig, t⟩, heq, hpair⟩ := Option.map_eq_some_iff.mp hmap
    have hstate := hg (sig, t)
    rw [hpair] at hstate
    cases hstate
    exact ⟨sig, heq⟩
  cases arch with
  | riscv =>
    cases access with
    | fetch =>
      cases h
      exact .inl rfl
    | load => exact .inr (hhandled (fun _ => rfl) h)
    | store => exact .inr (hhandled (fun _ => rfl) h)
  | loongarch =>
    cases access with
    | fetch => cases h
    | load =>
      dsimp only [usertrapFault] at h
      split at h
      · cases h
      · exact .inr (hhandled (fun _ => rfl) h)
    | store => exact .inr (hhandled (fun _ => rfl) h)

/-- A fault adds no right that the protection does not contain. -/
theorem usertrapFault_sound (hs : Sound arch s.toMm)
    (hmeets : FaultMeets arch access addr s) (h : usertrapFault arch env access addr s = some (o, s')) :
    Sound arch s'.toMm ∧ s'.vmas = s.vmas := by
  rcases usertrapFault_cases h with rfl | ⟨sig, hhandler⟩
  · exact ⟨hs, rfl⟩
  · exact pagefaultHandler_sound hs hmeets hhandler

theorem faultShared_refuses (h : SharedRefuses addr v s) :
    ∃ sig t, faultShared arch addr (pgRoundDown addr) v s = some (some sig, t) ∧ t.leaf = s.leaf := by
  rw [faultShared]
  dsimp only
  rcases h with hbeyond | ⟨hidx, hpage, hvalid⟩
  · rw [if_pos hbeyond]
    exact ⟨_, s, rfl, rfl⟩
  split
  · exact ⟨_, s, rfl, rfl⟩
  rw [if_neg (Nat.not_le.mpr hidx)]
  rw [← pte_pgRoundDown] at hvalid
  split
  · rename_i hzero
    have hmem := hpage.resolve_left (not_not.mpr hzero)
    have hnode : s.allocNode = some s.alloc.2 := if_neg hmem
    rw [hnode, Option.map_some, Option.bind_some]
    have hvalid' : ((setShmPage v.shmKernel (sub64 (pgRoundDown addr) v.addr / PGSIZE) s.alloc.1
        s.alloc.2).pte (pgRoundDown addr)).valid = true := hvalid
    dsimp only
    rw [if_pos hvalid']
    exact ⟨_, _, rfl, rfl⟩
  · rw [Option.bind_some]
    dsimp only
    rw [if_pos hvalid]
    exact ⟨_, s, rfl, rfl⟩

/-- A forbidden access ends in a signal, with the page table unchanged. -/
theorem usertrapFault_forbidden (env : FileEnv) (hmeets : FaultMeets arch access addr s)
    (hforbidden : Forbidden access addr s) :
    ∃ sig t, usertrapFault arch env access addr s = some (.signalled sig, t) ∧ t.leaf = s.leaf := by
  obtain ⟨v, hv, hmapping, hlo, hhi, -⟩ := id hforbidden
  have hfind := hmeets.found v hv hmapping (.inr ⟨hlo, hhi⟩)
  obtain ⟨hfetch, hload⟩ := hmeets.signal hforbidden
  obtain ⟨sig, t, hhandler, hleaf⟩ : ∃ sig t, pagefaultHandler arch env addr s = some (some sig, t) ∧
      t.leaf = s.leaf := by
    rw [pagefaultHandler, hfind]
    dsimp only
    split
    · exact ⟨_, s, rfl, rfl⟩
    · rename_i hprot
      obtain ⟨hpriv, hsh, hrefuses⟩ := hmeets.refused hforbidden v hfind hprot
      rw [hpriv]
      simp only [Bool.false_eq_true, false_and, if_false]
      rw [if_pos (show v.type = .SHARE ∧ v.shmKernel ≠ NULL from hsh)]
      exact faultShared_refuses hrefuses
  refine ⟨sig, t, ?_, hleaf⟩
  cases access with
  | fetch => exact absurd rfl hfetch
  | store =>
    cases arch <;>
    · dsimp only [usertrapFault]
      rw [hhandler]
      rfl
  | load =>
    cases arch with
    | riscv =>
      dsimp only [usertrapFault]
      rw [hhandler]
      rfl
    | loongarch =>
      dsimp only [usertrapFault]
      rw [hhandler, if_neg (by rw [hload rfl rfl]; decide)]
      rfl

end Space

end SC7
