-- SUMMARY: Sound address spaces, and what `mmap` and `mprotect` must be given to keep them sound.
import SC7.Mem.SpaceMmap

/-!
# Sound address spaces

An address space is sound if no page of a mapping grants a right that the protection of the mapping
does not contain. `mmap` and `mprotect` keep that only under conditions on their arguments and on the
space they meet. `MmapMeets` and `MprotectMeets` are these conditions.
-/

namespace SC7

/-- The areas that `mmap` makes: `MMAP`, and `SHARE` once they have a segment. -/
def Vma.Mapping (v : Vma) : Prop := v.type = .MMAP ∨ v.type = .SHARE

/-- No leaf entry in a mapping grants more than its protection. `perm` is about the flags that the
area keeps for pages to come. -/
structure Sound (arch : Arch) (mm : Mm) : Prop where
  rights : ∀ v ∈ mm.vmas, v.Mapping → ∀ vpn, v.HasPage vpn → Within arch v.origProt (mm.leaf vpn)
  perm : ∀ v ∈ mm.vmas, v.Mapping → Adds arch v.origProt v.perm

namespace Space

variable {arch : Arch} {prot len fd r : Int} {perm start end_ lo flags offset n shp : Nat} {s s' s₀ : Space}
  {L before : List Vma} {z : Focus} {v : Vma} {env : FileEnv}

/-! ## `mmap` -/

theorem findSlot_inl {b a : List Vma}
    (h : findSlot start end_ before L = some (.inl (b, a))) : b ++ a = before ++ L := by
  induction L generalizing before with
  | nil =>
    cases h
    rfl
  | cons v vs ih =>
    rw [findSlot] at h
    split at h
    · cases h
      rfl
    split at h
    · rw [ih h, List.append_assoc, List.singleton_append]
    split at h <;> cases h

theorem findSlot_inr (h : findSlot start end_ before L = some (.inr z)) :
    z.vma ∈ L ∧ z.vma.addr ≤ start ∧ start < z.vma.end_ ∧ z.vma.addr < end_ ∧ end_ ≤ z.vma.end_ := by
  induction L generalizing before with
  | nil => cases h
  | cons v vs ih =>
    rw [findSlot] at h
    split at h
    · cases h
    rename_i hgt
    split at h
    · obtain ⟨hmem, hrest⟩ := ih h
      exact ⟨List.mem_cons_of_mem _ hmem, hrest⟩
    rename_i hge
    split at h
    · rename_i hin
      cases h
      exact ⟨List.mem_cons_self, hin.1, not_le.mp hge, not_le.mp hgt, hin.2⟩
    · cases h

/-- The number of pages that a length takes from a page boundary on. -/
theorem pgRoundUp_len (hlen : 0 < len) (hwrap : lo * PGSIZE + len ≤ 2 ^ 64 - PGSIZE) :
    pgRoundUp (toU64 (lo * PGSIZE + len)) = (lo + rounds len) * PGSIZE := by
  obtain ⟨n, rfl⟩ : ∃ n : Nat, len = n := ⟨len.toNat, by omega⟩
  have hsum : toU64 ((lo * PGSIZE : Nat) + (n : Int)) = lo * PGSIZE + n := by
    simp only [toU64, PGSIZE] at *
    omega
  have hn : toU64 (n : Int) = n := by
    simp only [toU64, PGSIZE] at *
    omega
  rw [Nat.cast_mul] at hsum
  rw [hsum, rounds, hn]
  simp only [pgRoundUp, alignUp, add64, Vmem.pageCeil, PGSIZE] at *
  omega

theorem chooseStart_same : (s.chooseStart len).2.vmas = s.vmas ∧ (s.chooseStart len).2.leaf = s.leaf := by
  unfold chooseStart
  dsimp only
  split
  · exact ⟨rfl, rfl⟩
  split <;> exact ⟨rfl, rfl⟩

/-- The area that `alloc_mmap_vma` makes at a page boundary where no area has a page yet. -/
structure NewArea (arch : Arch) (prot : Int) (lo n perm : Nat) (s : Space) (z : Focus) (s' : Space) :
    Prop where
  list : z.before ++ z.after = s.vmas
  type : z.vma.type = .MMAP
  perm : z.vma.perm = perm
  addr : z.vma.addr = lo * PGSIZE
  end_ : z.vma.end_ = (lo + n) * PGSIZE
  leaf : Keeps arch prot (PagesFrom lo n) s.leaf s'.leaf

theorem allocVma_newArea {alloc : Bool} (hlen : 0 < len)
    (hwrap : lo * PGSIZE + len ≤ 2 ^ 64 - PGSIZE) (hfree : ∀ w ∈ s.vmas, ¬w.HasPage lo)
    (hf : alloc = true → FlagsWithin arch prot (Vmem.userPerm arch perm ||| PTE_V))
    (h : allocVma arch (lo * PGSIZE) len perm alloc s = some (z, s')) :
    NewArea arch prot lo (rounds len) perm s z s' := by
  have hstart : pgRoundUp (lo * PGSIZE) = lo * PGSIZE := by
    simp only [pgRoundUp, alignUp, add64, PGSIZE] at *
    omega
  have hend := pgRoundUp_len hlen hwrap
  rw [allocVma, hstart] at h
  rw [Nat.cast_mul, hend] at h
  split at h
  · cases h
  · rename_i z' hslot
    obtain ⟨hmem, hlo, hhi, -⟩ := findSlot_inr hslot
    exact absurd ⟨hlo, hhi⟩ (hfree _ hmem)
  · rename_i b a hslot
    obtain ⟨s₁, hnode, h⟩ := Option.bind_eq_some_iff.mp h
    obtain ⟨s₂, hmap, heq⟩ := Option.map_eq_some_iff.mp h
    cases heq
    have hs₁ : s₁.leaf = s.leaf := by
      rw [allocNode] at hnode
      split at hnode
      · cases hnode
      · cases hnode
        rfl
    refine ⟨by simpa using findSlot_inl hslot, rfl, rfl, rfl, rfl, ?_⟩
    split at hmap
    · rename_i hal
      have hwrap' : (lo + rounds len) * PGSIZE < 2 ^ 64 := by
        have hmod : (lo + rounds len) * PGSIZE = alignUp (toU64 (lo * PGSIZE + len)) PGSIZE := by
          rw [← hend]
          rfl
        rw [hmod]
        simp only [alignUp, add64, PGSIZE]
        omega
      have hmaps := uvmalloc1_maps hwrap' (hf hal.2) hmap
      rw [Nat.add_sub_cancel_left] at hmaps
      rw [← hs₁]
      exact hmaps.leaf
    · cases hmap
      rw [hs₁]
      exact .refl

theorem allocMmapVma_newArea
    (hstart : (if start = 0 then (s.chooseStart len).1 else start) = lo * PGSIZE) (hlen : 0 < len)
    (hwrap : lo * PGSIZE + len ≤ 2 ^ 64 - PGSIZE) (hfree : ∀ w ∈ s.vmas, ¬w.HasPage lo)
    (hf : isalloc flags perm fd = true → FlagsWithin arch prot (Vmem.userPerm arch perm ||| PTE_V))
    (h : allocMmapVma arch flags start len perm fd offset s = some (z, s')) :
    NewArea arch prot lo (rounds len) perm s z s' := by
  have hput {g : _ → Focus × Space} {t : Space}
      (hg : ∀ z t, g (z, t) = ({ z with vma := { z.vma with fd := fd, fOff := offset, origProt := 0 } }, t))
      (hvmas : t.vmas = s.vmas) (hleaf : t.leaf = s.leaf)
      (hmap : (allocVma arch (lo * PGSIZE) len perm (isalloc flags perm fd) t).map g = some (z, s')) :
      NewArea arch prot lo (rounds len) perm s z s' := by
    obtain ⟨⟨z', t'⟩, hal, heq⟩ := Option.map_eq_some_iff.mp hmap
    rw [hg] at heq
    cases heq
    have hnew := allocVma_newArea hlen hwrap (hvmas ▸ hfree) hf hal
    exact ⟨hvmas ▸ hnew.list, hnew.type, hnew.perm, hnew.addr, hnew.end_, hleaf ▸ hnew.leaf⟩
  rw [allocMmapVma] at h
  by_cases h0 : start = 0
  · rw [if_pos h0] at hstart h
    dsimp only at h
    rw [hstart] at h
    exact hput (fun _ _ => rfl) chooseStart_same.1 chooseStart_same.2 h
  · rw [if_neg h0] at hstart h
    dsimp only at h
    rw [hstart] at h
    exact hput (fun _ _ => rfl) rfl rfl h

/-- What a space looks like when `mmap` has made its area: the areas that were left, and the new one,
whose pages alone have changed. -/
structure Extends (arch : Arch) (prot : Int) (lo n : Nat) (s s' : Space) : Prop where
  vmas : ∃ before v after, s'.vmas = before ++ v :: after ∧ before ++ after = s.vmas ∧
    v.addr = lo * PGSIZE ∧ v.end_ = (lo + n) * PGSIZE ∧ v.origProt = prot ∧
    Adds arch prot v.perm
  leaf : Keeps arch prot (PagesFrom lo n) s.leaf s'.leaf

theorem SameArea.fsize {w : Vma} {type : SegType} (h : SameArea v { w with type := type })
    (size : Nat) : SameArea v { { w with fsize := size } with type := type } :=
  ⟨h.type, h.perm, h.origProt, h.addr, h.end_⟩

/-- The area and the pages of a mapping, put together. -/
theorem NewArea.extends {m : Nat} {s₁ s₂ : Space}
    (h : NewArea arch prot lo n perm s z s₁) (hperm : Adds arch prot perm)
    (hv : SameArea { z.vma with origProt := prot } { v with type := z.vma.type })
    (hlist : s₂.vmas = z.put v) (hm : m ≤ n)
    (hleaf : Keeps arch prot (PagesFrom lo m) s₁.leaf s₂.leaf) : Extends arch prot lo n s s₂ where
  vmas := by
    refine ⟨z.before, v, z.after, hlist, h.list, hv.addr.trans h.addr, hv.end_.trans h.end_, hv.origProt, ?_⟩
    have hvperm : v.perm = perm := hv.perm.trans h.perm
    rwa [hvperm]
  leaf := h.leaf.trans (hleaf.mono fun _ hp => ⟨hp.1, by have := hp.2; omega⟩)

theorem rounds_mono {len' : Int} (h0 : 0 ≤ len) (hle : len ≤ len') (hlt : len' < 2 ^ 64) :
    rounds len ≤ rounds len' := by
  simp only [rounds, Vmem.pageCeil, toU64, PGSIZE]
  omega

/-- The last page of a mapping does not wrap. -/
theorem rounds_wrap (hlen : 0 ≤ len)
    (hwrap : lo * PGSIZE + len ≤ 2 ^ 64 - PGSIZE) : (lo + rounds len) * PGSIZE < 2 ^ 64 := by
  simp only [rounds, Vmem.pageCeil, toU64, PGSIZE] at *
  omega

theorem newseg_same {size : Int} (h : newseg size s = some (shp, s')) : s'.vmas = s.vmas ∧ s'.leaf = s.leaf := by
  obtain ⟨s₁, h₁, h⟩ := Option.bind_eq_some_iff.mp h
  obtain ⟨s₂, h₂, heq⟩ := Option.map_eq_some_iff.mp h
  cases heq
  rw [allocNode] at h₁ h₂
  split at h₁
  · cases h₁
  split at h₂
  · cases h₂
  cases h₁
  cases h₂
  exact ⟨rfl, rfl⟩

theorem sharedMap_extends {fsize : Int} {f : Option File} (hnew : NewArea arch prot lo (rounds len) perm s₀ z s)
    (hv : SameArea { z.vma with origProt := prot } { v with type := z.vma.type }) (hlen : 0 < len)
    (hwrap : lo * PGSIZE + len ≤ 2 ^ 64 - PGSIZE) (hperm : Adds arch prot perm)
    (hf : FlagsWithin arch prot perm) (hsize : f.isSome = true → 0 ≤ fsize)
    (h : sharedMap arch env (lo * PGSIZE) len perm f fsize shp z v s = some (r, s')) :
    Extends arch prot lo (rounds len) s₀ s' := by
  have hflags : FlagsWithin arch prot (perm ||| PTE_U arch ||| PTE_R arch ||| PTE_V) :=
    ((hf.or .user).or .read).or .valid
  have hlt : len < 2 ^ 64 := by
    simp only [PGSIZE] at hwrap
    omega
  rw [sharedMap] at h
  split at h
  · cases h
    exact hnew.extends hperm hv rfl (Nat.zero_le _) .refl
  generalize hlen' : (if f.isSome = true then min fsize len else len) = len' at h
  have hbound : 0 ≤ len' ∧ len' ≤ len := by
    rw [← hlen']
    split
    · exact ⟨le_min (hsize ‹_›) hlen.le, min_le_right _ _⟩
    · exact ⟨hlen.le, le_rfl⟩
  generalize hv' : (if f.isSome = true then { v with fsize := toU64 fsize } else v) = v' at h
  have harea : SameArea { z.vma with origProt := prot } { v' with type := z.vma.type } := by
    rw [← hv']
    split
    · exact hv.fsize _
    · exact hv
  obtain ⟨⟨ok, s₁⟩, hloop, hrest⟩ := Option.bind_eq_some_iff.mp h
  have hwrap' : (lo + rounds len') * PGSIZE < 2 ^ 64 :=
    rounds_wrap hbound.1 ((Int.add_le_add_left hbound.2 _).trans hwrap)
  have hm : rounds len' ≤ rounds len := rounds_mono hbound.1 hbound.2 hlt
  have hs₁ := sharedLoop_maps hwrap' hflags hloop
  have hext : Extends arch prot lo (rounds len) s₀ s₁ := hnew.extends hperm harea hs₁.vmas hm hs₁.leaf
  dsimp only at hrest
  split at hrest
  · cases hrest
    exact hext
  split at hrest
  · cases hrest
    exact hext
  rename_i hfile
  split at hrest
  · cases hrest
    exact hext
  · cases hrest
    have hfsize : 0 ≤ min len' fsize := le_min hbound.1 (hsize (Option.isSome_iff_ne_none.mpr hfile))
    have hmin : min len' fsize ≤ len := (min_le_left _ _).trans hbound.2
    have hread := sharedRead_maps (s := s₁) env
      (rounds_wrap hfsize ((Int.add_le_add_left hmin _).trans hwrap)) hperm
    have hm' : rounds (min len' fsize) ≤ rounds len := rounds_mono hfsize hmin hlt
    refine hnew.extends hperm harea (hread.vmas.trans hs₁.vmas) le_rfl ?_
    exact (hs₁.leaf.mono fun _ hp => ⟨hp.1, by have := hp.2; omega⟩).trans
      (hread.leaf.mono fun _ hp => ⟨hp.1, by have := hp.2; omega⟩)

theorem mmapShared_extends (hnew : NewArea arch prot lo (rounds len) perm s₀ z s)
    (hv : SameArea { z.vma with origProt := prot } v) (hlen : 0 < len)
    (hwrap : lo * PGSIZE + len ≤ 2 ^ 64 - PGSIZE) (hperm : Adds arch prot perm)
    (hf : FlagsWithin arch prot perm) (hsize : fd ≠ -1 → 0 ≤ toInt32 env.stSize)
    (h : mmapShared arch env (lo * PGSIZE) len perm fd z v s = some (r, s')) :
    Extends arch prot lo (rounds len) s₀ s' := by
  rw [mmapShared] at h
  obtain ⟨⟨shp, s₁⟩, hseg, h⟩ := Option.bind_eq_some_iff.mp h
  have hnew₁ : NewArea arch prot lo (rounds len) perm s₀ z s₁ :=
    { hnew with leaf := (newseg_same hseg).2 ▸ hnew.leaf }
  have hv₁ : SameArea { z.vma with origProt := prot }
      { { v with type := .SHARE, shmKernel := shp } with type := z.vma.type } :=
    ⟨rfl, hv.perm, hv.origProt, hv.addr, hv.end_⟩
  refine sharedMap_extends hnew₁ hv₁ hlen hwrap hperm hf ?_ h
  intro hsome
  refine hsize ?_
  rintro rfl
  rw [if_pos rfl] at hsome
  cases hsome

/-- The address at which `mmap` puts its area. -/
def mmapAddr (start : Nat) (len : Int) (s : Space) : Nat :=
  if start = 0 then (s.chooseStart len).1 else start

/-- What a call of `mmap` must be given to keep the space sound, once its arguments have passed the
checks. -/
structure MmapMeets (arch : Arch) (env : FileEnv) (start : Nat) (len prot : Int) (flags : Nat) (fd : Int)
    (s : Space) : Prop where
  /-- At an address inside a page, one page more is mapped than the area has. -/
  aligned : mmapAddr start len s % PGSIZE = 0
  /-- With `MAP_FIXED` at `0` the area is put elsewhere. -/
  fixed : Bits.has flags MAP_FIXED = true → start ≠ 0
  /-- The range does not wrap. -/
  len_pos : 0 < len
  nowrap : mmapAddr start len s + len ≤ 2 ^ 64 - PGSIZE
  /-- Without `MAP_FIXED`, an area that covers the range would take over the new protection. -/
  free : Bits.has flags MAP_FIXED = false → ∀ v ∈ s.vmas, ∀ vpn, v.HasPage vpn →
    ¬(mmapAddr start len s ≤ vpn * PGSIZE ∧ (vpn * PGSIZE : Int) < mmapAddr start len s + len)
  /-- With `MAP_FIXED`, the areas in the range can be taken out of it. -/
  removable : Bits.has flags MAP_FIXED = true → ∀ v ∈ s.vmas,
    v.Meets start (start + len.toNat) → Removable start (start + len.toNat) v
  /-- A page that is mapped outside all areas keeps its rights. -/
  mapped : ∀ vpn, mmapAddr start len s ≤ vpn * PGSIZE →
    (vpn * PGSIZE : Int) < mmapAddr start len s + len → (∀ v ∈ s.vmas, ¬v.HasPage vpn) →
    Within arch prot (s.leaf vpn)
  /-- The `int` that holds the flags loses `PTE_NX`. -/
  noexec : arch = .loongarch →
    prot ≠ PROT_NONE ∨ isalloc flags (flagsInt (getMmapperms arch prot)) fd = true →
    hasBits prot PROT_EXEC = true
  /-- Pages that are mapped with the area are dirty. -/
  dirty : arch = .loongarch → isalloc flags (flagsInt (getMmapperms arch prot)) fd = true →
    hasBits prot PROT_WRITE = true
  /-- The size of the file is an `int`, too. -/
  size : Bits.has flags MAP_SHARED = true → fd ≠ -1 → 0 ≤ toInt32 env.stSize

/-- The flags of fresh user memory. -/
theorem within_userPerm (hf : FlagsWithin arch prot perm)
    (hw : arch = .loongarch → hasBits prot PROT_WRITE = true) :
    FlagsWithin arch prot (Vmem.userPerm arch perm ||| PTE_V) := by
  refine (FlagsWithin.or (hf.or .user) ⟨fun h => ?_, fun hr h => ?_⟩).or .valid
  · cases arch with
    | riscv => cases h
    | loongarch => exact hw rfl
  · subst hr
    cases h

theorem mmapPages_extends (hnew : NewArea arch prot lo (rounds len) perm s₀ z s)
    (hv : SameArea { z.vma with origProt := prot } v) (hlen : 0 < len)
    (hwrap : lo * PGSIZE + len ≤ 2 ^ 64 - PGSIZE) (hperm : Adds arch prot perm)
    (hf : prot ≠ PROT_NONE → FlagsWithin arch prot perm)
    (hsize : Bits.has flags MAP_SHARED = true → fd ≠ -1 → 0 ≤ toInt32 env.stSize)
    (h : mmapPages arch env (lo * PGSIZE) len prot perm flags fd z v s = some (r, s')) :
    Extends arch prot lo (rounds len) s₀ s' := by
  have hwrap' : (lo + rounds len) * PGSIZE < 2 ^ 64 := rounds_wrap hlen.le hwrap
  have harea : ∀ w, SameArea v w →
      SameArea { z.vma with origProt := prot } { w with type := z.vma.type } := by
    intro w hw
    have := hv.trans hw
    exact ⟨rfl, this.perm, this.origProt, this.addr, this.end_⟩
  rw [mmapPages] at h
  dsimp only at h
  split at h
  · cases h
    exact hnew.extends hperm (harea v .refl) rfl (Nat.zero_le _) .refl
  rename_i hprot
  split at h
  · rename_i hshared
    exact mmapShared_extends hnew hv hlen hwrap hperm (hf hprot) (hsize hshared) h
  split at h
  · obtain ⟨⟨ok, v', t⟩, hloop, heq⟩ := Option.map_eq_some_iff.mp h
    cases heq
    have hmaps := anonLoop_maps hwrap' hperm ((hf hprot).or .valid) hloop
    exact hnew.extends hperm (harea v' (anonLoop_area hloop)) rfl le_rfl hmaps.leaf
  split at h
  · cases h
    exact hnew.extends hperm (harea v .refl) rfl (Nat.zero_le _) .refl
  · obtain ⟨⟨v', t⟩, hloop, heq⟩ := Option.map_eq_some_iff.mp h
    cases heq
    have hmaps := fileLoop_maps hwrap' hperm hloop
    exact hnew.extends hperm (harea v' (fileLoop_area hloop)) rfl le_rfl hmaps.leaf

/-- An area that is added where no other area has a page keeps the space sound. -/
theorem Extends.sound (h : Extends arch prot lo n s s') (hs₀ : Sound arch s₀.toMm)
    (hpart : ∀ w ∈ s.vmas, ∃ v ∈ s₀.vmas, v.Part w)
    (hleaf : ∀ vpn, s.leaf vpn = s₀.leaf vpn ∨ s.leaf vpn = Pte.zero)
    (hfree : ∀ w ∈ s.vmas, ∀ vpn, PagesFrom lo n vpn → ¬w.HasPage vpn)
    (hmapped : ∀ vpn, PagesFrom lo n vpn → Within arch prot (s.leaf vpn)) : Sound arch s'.toMm := by
  obtain ⟨before, v, after, hvmas, hlist, haddr, hend, hprot, hperm⟩ := h.vmas
  have hmem : ∀ w ∈ s'.vmas, w = v ∨ w ∈ s.vmas := by
    intro w hw
    rw [hvmas] at hw
    rw [← hlist]
    rcases List.mem_append.mp hw with hw | hw
    · exact .inr (List.mem_append_left _ hw)
    · rcases List.mem_cons.mp hw with hw | hw
      · exact .inl hw
      · exact .inr (List.mem_append_right _ hw)
  constructor
  · intro w hw hmapping vpn hp
    rcases hmem w hw with rfl | hw
    · have hpages : PagesFrom lo n vpn := by
        obtain ⟨hp₁, hp₂⟩ := hp
        rw [haddr] at hp₁
        rw [hend] at hp₂
        exact ⟨Nat.le_of_mul_le_mul_right hp₁ (by decide), Nat.lt_of_mul_lt_mul_right hp₂⟩
      rw [hprot]
      exact h.leaf.within (hmapped vpn hpages)
    · obtain ⟨x, hx, hxw⟩ := hpart w hw
      have hwithin := hs₀.rights x hx (by rwa [Vma.Mapping, ← hxw.type]) vpn (hxw.hasPage hp)
      rw [hxw.origProt, h.leaf.outside fun hpages => hfree w hw vpn hpages hp]
      rcases hleaf vpn with heq | heq
      · rwa [heq]
      · rw [heq]
        exact .zero
  · intro w hw hmapping
    rcases hmem w hw with rfl | hw
    · rwa [hprot]
    · obtain ⟨x, hx, hxw⟩ := hpart w hw
      rw [hxw.origProt, hxw.perm]
      exact hs₀.perm x hx (by rwa [Vma.Mapping, ← hxw.type])

theorem PagesFrom.range {vpn : Nat} (hlen : 0 < len) (hlt : len < 2 ^ 64) (h : PagesFrom lo (rounds len) vpn) :
    lo * PGSIZE ≤ vpn * PGSIZE ∧ (vpn * PGSIZE : Int) < lo * PGSIZE + len := by
  obtain ⟨hlo, hhi⟩ := h
  simp only [rounds, Vmem.pageCeil, toU64, PGSIZE] at *
  omega

theorem mmapRange_sound (hs : Sound arch s.toMm) (hmeets : MmapMeets arch env start len prot flags fd s)
    (h : mmapRange arch env start len prot flags fd offset s = some (r, s')) : Sound arch s'.toMm := by
  obtain ⟨lo, hlo⟩ : ∃ lo, mmapAddr start len s = lo * PGSIZE :=
    ⟨_, (Nat.div_mul_cancel (Nat.dvd_of_mod_eq_zero hmeets.aligned)).symm⟩
  obtain ⟨hlen, hwrap, hfree, hmapped⟩ :=
    And.intro hmeets.len_pos (And.intro hmeets.nowrap (And.intro hmeets.free hmeets.mapped))
  rw [hlo] at hwrap hfree hmapped
  have hlt : len < 2 ^ 64 := by
    simp only [PGSIZE] at hwrap
    omega
  have hperm : Adds arch prot (flagsInt (getMmapperms arch prot)) := adds_getMmapperms.flagsInt
  have hf : prot ≠ PROT_NONE → FlagsWithin arch prot (flagsInt (getMmapperms arch prot)) :=
    fun hprot => hperm.within fun hla => hmeets.noexec hla (.inl hprot)
  rw [mmapRange] at h
  obtain ⟨s₁, hunmap, h⟩ := Option.bind_eq_some_iff.mp h
  obtain ⟨⟨z, s₂⟩, halloc, h⟩ := Option.bind_eq_some_iff.mp h
  -- the space in which the area is made
  obtain ⟨hleaf, hpart, hstart, hfree₁, hmapped₁⟩ :
      (∀ vpn, s₁.leaf vpn = s.leaf vpn ∨ s₁.leaf vpn = Pte.zero) ∧
      (∀ w ∈ s₁.vmas, ∃ v ∈ s.vmas, v.Part w) ∧
      (if start = 0 then (s₁.chooseStart len).1 else start) = lo * PGSIZE ∧
      (∀ w ∈ s₁.vmas, ∀ vpn, PagesFrom lo (rounds len) vpn → ¬w.HasPage vpn) ∧
      (∀ vpn, PagesFrom lo (rounds len) vpn → Within arch prot (s₁.leaf vpn)) := by
    split at hunmap
    · rename_i hfixed
      have h0 := hmeets.fixed hfixed
      have hs0 : start = lo * PGSIZE := by rwa [mmapAddr, if_neg h0] at hlo
      have hend : add64 start (toU64 len) = start + len.toNat := by
        simp only [add64, toU64, PGSIZE] at *
        omega
      rw [hend] at hunmap
      obtain ⟨hleaf, hpart, hpages⟩ := unmapFixed_free (by rw [hs0]; exact page_mod)
        (by simp only [PGSIZE] at *; omega) (by omega) (hmeets.removable hfixed) hunmap
      have hin : ∀ vpn, PagesFrom lo (rounds len) vpn → _ := fun vpn hp => by
        have hrange := hp.range hlen hlt
        exact hpages vpn (by rw [hs0]; exact hrange.1) (by rw [hs0]; omega)
      refine ⟨hleaf, hpart, by rwa [if_neg h0], fun w hw vpn hp => (hin vpn hp).1 w hw, ?_⟩
      intro vpn hp
      rcases (hin vpn hp).2 with hgone | hnone
      · exact .of_invalid hgone
      · obtain ⟨hr₁, hr₂⟩ := hp.range hlen hlt
        have hwithin := hmapped vpn hr₁ (by exact_mod_cast hr₂) hnone
        rcases hleaf vpn with heq | heq
        · rwa [heq]
        · rw [heq]
          exact .zero
    · rename_i hfixed
      cases hunmap
      rw [Bool.not_eq_true] at hfixed
      have hnone : ∀ w ∈ s.vmas, ∀ vpn, PagesFrom lo (rounds len) vpn → ¬w.HasPage vpn := by
        intro w hw vpn hp hpage
        obtain ⟨hr₁, hr₂⟩ := hp.range hlen hlt
        exact hfree hfixed w hw vpn hpage ⟨hr₁, by exact_mod_cast hr₂⟩
      refine ⟨fun _ => .inl rfl, fun w hw => ⟨w, hw, .refl⟩, hlo, hnone, fun vpn hp => ?_⟩
      obtain ⟨hr₁, hr₂⟩ := hp.range hlen hlt
      exact hmapped vpn hr₁ (by exact_mod_cast hr₂) fun w hw => hnone w hw vpn hp
  have hwrap' : lo * PGSIZE + len ≤ 2 ^ 64 - PGSIZE := by exact_mod_cast hwrap
  have hfirst : PagesFrom lo (rounds len) lo := by
    refine ⟨le_rfl, ?_⟩
    simp only [rounds, Vmem.pageCeil, toU64, PGSIZE] at *
    omega
  have hnew : NewArea arch prot lo (rounds len) _ s₁ z s₂ :=
    allocMmapVma_newArea hstart hlen hwrap' (fun w hw => hfree₁ w hw lo hfirst)
      (fun hal => within_userPerm (hperm.within fun hla => hmeets.noexec hla (.inr hal))
        fun hla => hmeets.dirty hla hal) halloc
  have haddr : (if Bits.has flags MAP_FIXED = true then start else z.vma.addr) = lo * PGSIZE := by
    split
    · rename_i hfixed
      rwa [if_neg (hmeets.fixed hfixed)] at hstart
    · exact hnew.addr
  dsimp only at h
  rw [haddr] at h
  have hext := mmapPages_extends hnew .refl hlen hwrap' hperm hf hmeets.size h
  exact hext.sound hs hpart hleaf hfree₁ hmapped₁

theorem mmap_sound (hs : Sound arch s.toMm)
    (hmeets : mmapError len flags (mmapFd flags fd) s = none →
      MmapMeets arch env start len prot flags (mmapFd flags fd) s)
    (h : mmap arch env start len prot flags fd offset s = some (r, s')) : Sound arch s'.toMm := by
  rw [mmap] at h
  split at h
  · cases h
    exact hs
  · rename_i herr
    exact mmapRange_sound hs (hmeets herr) h

/-! ## `sys_mprotect` -/

/-- What a call of `sys_mprotect` must be given to keep the space sound. -/
structure MprotectMeets (start len prot : Nat) (s : Space) : Prop where
  /-- Below `p->sz` the pages change and the areas do not. -/
  heap : start < s.sz → ∀ v ∈ s.vmas, v.Mapping → ∀ vpn, v.HasPage vpn → start ≤ vpn * PGSIZE →
    vpn * PGSIZE < add64 start len →
    (hasBits (toInt32 prot) PROT_WRITE = true → hasBits v.origProt PROT_WRITE = true) ∧
      (hasBits (toInt32 prot) PROT_EXEC = true → hasBits v.origProt PROT_EXEC = true)
  /-- A call that cannot split an area returns with the areas before it changed. -/
  memory : ∀ n, s.supply n ≠ NULL

/-- The areas after a call: parts outside the range, and parts in it with the new protection. -/
def Reprotected (start end_ perm : Nat) (prot : Int) (L L' : List Vma) : Prop :=
  ∀ w ∈ L', ∃ v ∈ L, w.type = v.type ∧ v.addr ≤ w.addr ∧ w.end_ ≤ v.end_ ∧
    ((w.perm = v.perm ∧ w.origProt = v.origProt ∧ (w.end_ ≤ start ∨ end_ ≤ w.addr)) ∨
      (w.perm = perm ∧ w.origProt = prot ∧ start ≤ w.addr ∧ w.end_ ≤ end_))

theorem Reprotected.cons {L' l : List Vma}
    (hl : Reprotected start end_ perm prot [v] l) (hL : Reprotected start end_ perm prot L L') :
    Reprotected start end_ perm prot (v :: L) (l ++ L') := by
  intro w hw
  rcases List.mem_append.mp hw with hw | hw
  · obtain ⟨x, hx, hrest⟩ := hl w hw
    exact ⟨x, List.mem_cons.mpr (.inl (List.mem_singleton.mp hx)), hrest⟩
  · obtain ⟨x, hx, hrest⟩ := hL w hw
    exact ⟨x, List.mem_cons_of_mem _ hx, hrest⟩

/-- The three parts of an area that the range cuts. -/
theorem reprotected_parts (base : Nat) (hlt : start < v.end_) (hgt : end_ > v.addr) :
    Reprotected start end_ perm prot [v] ((if v.addr < start then [v.front start] else []) ++
      protectMiddle start end_ perm prot base v :: (if v.end_ > end_ then [v.back end_] else [])) := by
  intro w hw
  refine ⟨v, List.mem_singleton_self _, ?_⟩
  rcases List.mem_append.mp hw with hw | hw
  · split at hw
    · rw [List.mem_singleton.mp hw]
      exact ⟨rfl, le_rfl, hlt.le, .inl ⟨rfl, rfl, .inl le_rfl⟩⟩
    · cases hw
  rcases List.mem_cons.mp hw with rfl | hw
  · refine ⟨rfl, ?_, ?_, .inr ⟨rfl, rfl, ?_, ?_⟩⟩ <;> dsimp only [protectMiddle] <;> split <;> omega
  · split at hw
    · rw [List.mem_singleton.mp hw]
      exact ⟨rfl, hgt.le, le_rfl, .inl ⟨rfl, rfl, .inr le_rfl⟩⟩
    · cases hw

/-- A page for a VMA, if one is needed. -/
theorem allocIf_same {c : Prop} [Decidable c] (hmem : ∀ n, s.supply n ≠ NULL) {p : Nat × Space}
    (hp : (if c then s.alloc else (1, s)) = p) :
    p.1 ≠ NULL ∧ p.2.leaf = s.leaf ∧ ∀ n, p.2.supply n ≠ NULL := by
  split at hp <;> subst hp
  · exact ⟨hmem 0, rfl, fun n => hmem (n + 1)⟩
  · exact ⟨Nat.one_ne_zero, rfl, hmem⟩

theorem protectVmas_reprotected {base : Option Nat} (hmem : ∀ n, s.supply n ≠ NULL) :
    (protectVmas start end_ perm prot base L s).1 = true ∧
      (protectVmas start end_ perm prot base L s).2.2.leaf = s.leaf ∧
      Reprotected start end_ perm prot L (protectVmas start end_ perm prot base L s).2.1 := by
  induction L generalizing s base with
  | nil => exact ⟨rfl, rfl, fun w hw => by cases hw⟩
  | cons v vs ih =>
    rw [protectVmas]
    split
    · rename_i hov
      split
      · rename_i hin
        obtain ⟨hok, hleaf, hrest⟩ := @ih s (some (base.getD v.addr)) hmem
        refine ⟨hok, hleaf, Reprotected.cons (l := [_]) ?_ hrest⟩
        intro w hw
        rw [List.mem_singleton.mp hw]
        exact ⟨v, List.mem_singleton_self _, rfl, le_rfl, le_rfl, .inr ⟨rfl, rfl, hin.1, hin.2⟩⟩
      · generalize hp : (if v.addr < start then s.alloc else (1, s)) = p
        obtain ⟨left, s₁⟩ := p
        obtain ⟨hleft, hleaf₁, hmem₁⟩ := allocIf_same hmem hp
        dsimp only at hleft hleaf₁ hmem₁ ⊢
        rw [if_neg hleft]
        generalize hq : (if v.end_ > end_ then s₁.alloc else (1, s₁)) = q
        obtain ⟨right, s₂⟩ := q
        obtain ⟨hright, hleaf₂, hmem₂⟩ := allocIf_same hmem₁ hq
        dsimp only at hright hleaf₂ hmem₂ ⊢
        rw [if_neg hright]
        obtain ⟨hok, hleaf, hrest⟩ :=
          @ih s₂ (some (base.getD (if start > v.addr then start else v.addr))) hmem₂
        refine ⟨hok, hleaf.trans (hleaf₂.trans hleaf₁), ?_⟩
        have hparts := (reprotected_parts (base.getD (if start > v.addr then start else v.addr)) hov.1
          hov.2).cons hrest
        rwa [List.append_assoc, List.cons_append] at hparts ⊢
    · rename_i hov
      obtain ⟨hok, hleaf, hrest⟩ := @ih s base hmem
      refine ⟨hok, hleaf, Reprotected.cons (l := [v]) ?_ hrest⟩
      intro w hw
      rw [List.mem_singleton.mp hw]
      exact ⟨v, List.mem_singleton_self _, rfl, le_rfl, le_rfl, .inl ⟨rfl, rfl, by omega⟩⟩

theorem protectPte_within (pte : Pte) : Within arch prot (protectPte arch (getMmapperms arch prot) pte) := by
  unfold protectPte
  split
  · exact .of_flags within_protectFlags
  · rename_i hv
    exact .of_invalid (Bool.eq_false_iff.mpr hv)

theorem protectLoop_within (h : protectLoop arch (getMmapperms arch prot) n (lo * PGSIZE) s = some s') :
    s'.vmas = s.vmas ∧ (∀ vpn, ¬PagesFrom lo n vpn → s'.leaf vpn = s.leaf vpn) ∧
      ∀ vpn, PagesFrom lo n vpn → Within arch prot (s'.leaf vpn) := by
  obtain ⟨hsame, hout, hin⟩ := protectLoop_pages h
  refine ⟨by rw [hsame], hout, fun vpn hp => ?_⟩
  rw [hin vpn hp]
  exact protectPte_within _

theorem sysMprotect_sound {len p : Nat} (hs : Sound arch s.toMm)
    (hmeets : MprotectMeets start len p s) (h : sysMprotect arch start len p s = some (r, s')) :
    Sound arch s'.toMm := by
  rw [sysMprotect] at h
  dsimp only at h
  split at h
  · cases h
    exact hs
  rename_i hal
  obtain ⟨lo, hlo⟩ : ∃ lo, start = lo * PGSIZE :=
    ⟨_, (Nat.div_mul_cancel (Nat.dvd_of_mod_eq_zero (not_not.mp hal))).symm⟩
  split at h
  · cases h
    exact hs
  -- the pages of the range, by their addresses
  have hrange : ∀ vpn, PagesFrom lo (Vmem.pageCeil (add64 start len - start)) vpn ↔
      start ≤ vpn * PGSIZE ∧ vpn * PGSIZE < add64 start len := by
    intro vpn
    rw [hlo]
    simp only [PagesFrom, Vmem.pageCeil, PGSIZE]
    omega
  split at h
  · split at h
    · cases h
      exact hs
    split at h
    · cases h
      exact hs
    obtain ⟨hok, hleaf, hvmas⟩ := @protectVmas_reprotected (toInt32 p)
      (flagsInt (getMmapperms arch (toInt32 p))) start (add64 start len) s s.vmas none hmeets.memory
    rw [if_pos hok] at h
    obtain ⟨t, hloop, heq⟩ := Option.map_eq_some_iff.mp h
    cases heq
    rw [hlo] at hloop
    obtain ⟨hlist, hout, hin⟩ := protectLoop_within hloop
    rw [← hlo] at hlist hout hin
    constructor
    · intro w hw hmapping vpn hp
      rw [hlist] at hw
      obtain ⟨v, hv, htype, haddr, hend, hcase⟩ := hvmas w hw
      have hvmapping : v.Mapping := by rwa [Vma.Mapping, ← htype]
      rcases hcase with ⟨-, hprot, hapart⟩ | ⟨-, hprot, h₁, h₂⟩
      · rw [hout vpn, hprot]
        · have hvp : v.HasPage vpn := ⟨haddr.trans hp.1, hp.2.trans_le hend⟩
          have := hs.rights v hv hvmapping vpn hvp
          rwa [← hleaf] at this
        · rw [hrange]
          have := hp.1
          have := hp.2
          omega
      · rw [hprot]
        exact hin vpn ((hrange vpn).mpr ⟨h₁.trans hp.1, hp.2.trans_le h₂⟩)
    · intro w hw hmapping
      rw [hlist] at hw
      obtain ⟨v, hv, htype, -, -, hcase⟩ := hvmas w hw
      rcases hcase with ⟨hperm, hprot, -⟩ | ⟨hperm, hprot, -⟩
      · rw [hperm, hprot]
        exact hs.perm v hv (by rwa [Vma.Mapping, ← htype])
      · rw [hperm, hprot]
        exact adds_getMmapperms.flagsInt
  · rename_i hsz
    obtain ⟨t, hloop, heq⟩ := Option.map_eq_some_iff.mp h
    cases heq
    rw [hlo] at hloop
    obtain ⟨hlist, hout, hin⟩ := protectLoop_within hloop
    rw [← hlo] at hout hin
    constructor
    · intro v hv hmapping vpn hp
      rw [hlist] at hv
      by_cases hpage : start ≤ vpn * PGSIZE ∧ vpn * PGSIZE < add64 start len
      · obtain ⟨hw, hx⟩ := hmeets.heap (not_le.mp hsz) v hv hmapping vpn hp hpage.1 hpage.2
        exact (hin vpn ((hrange vpn).mpr hpage)).weaken hw hx
      · rw [hout vpn fun hr => hpage ((hrange vpn).mp hr)]
        exact hs.rights v hv hmapping vpn hp
    · intro v hv hmapping
      rw [hlist] at hv
      exact hs.perm v hv hmapping

end Space

end SC7
