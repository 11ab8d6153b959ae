-- SUMMARY: `mmap` maps only pages of the new area, with the rights of its protection, and `MAP_FIXED` first unmaps what was there.
import SC7.Mem.SpaceRights

/-!
# Rights after `mmap`

The loops of `mmap` write leaf entries in the pages of the new area only, and add what the protection
says. With `MAP_FIXED` the pages that an old area had in the range are unmapped before, provided that
old areas and range meet at page boundaries.
-/

namespace SC7

open Function (update update_of_ne update_self)

namespace Space

variable {arch : Arch} {prot r : Int} {P : Nat → Prop} {perm vpn va pa lo n : Nat} {s s' : Space} {cow : Bool}
  {v : Vma}

/-! ## The loops -/

/-- The VMA list stays, and leaf entries change only in the pages of `P`, within the protection. -/
structure Maps (arch : Arch) (prot : Int) (P : Nat → Prop) (s s' : Space) : Prop where
  vmas : s'.vmas = s.vmas
  leaf : Keeps arch prot P s.leaf s'.leaf

namespace Maps

variable {t : Space}

theorem refl : Maps arch prot P s s := ⟨rfl, .refl⟩

/-- Steps that touch neither the list nor the leaf entries. -/
theorem of_eq (hv : s'.vmas = s.vmas) (hl : s'.leaf = s.leaf) : Maps arch prot P s s' := ⟨hv, hl ▸ .refl⟩

theorem trans (h₁ : Maps arch prot P s s') (h₂ : Maps arch prot P s' t) : Maps arch prot P s t :=
  ⟨h₂.vmas.trans h₁.vmas, h₁.leaf.trans h₂.leaf⟩

theorem mono {Q : Nat → Prop} (h : Maps arch prot P s s') (hPQ : ∀ vpn, P vpn → Q vpn) :
    Maps arch prot Q s s' :=
  ⟨h.vmas, h.leaf.mono hPQ⟩

end Maps

theorem maps_setLeaf {pte : Pte} (hp : P vpn) (h : Within arch prot (s.leaf vpn) → Within arch prot pte) :
    Maps arch prot P s (s.setLeaf vpn pte) :=
  ⟨rfl, .update hp h⟩

theorem mappages_vmas {len : Nat} (h : s.mappages arch va pa len perm = some (r, s')) : s'.vmas = s.vmas := by
  obtain ⟨⟨r', leaf⟩, -, heq⟩ := Option.map_eq_some_iff.mp h
  cases heq
  rfl

theorem experm_vmas : (s.experm arch va perm).2.vmas = s.vmas := by
  unfold experm
  dsimp only
  split
  · rfl
  split
  · rfl
  split <;> rfl

theorem maps_mappages (hal : va % PGSIZE = 0) (hp : P (va / PGSIZE)) (hf : FlagsWithin arch prot (perm ||| PTE_V))
    (h : s.mappages arch va pa PGSIZE perm = some (r, s')) : Maps arch prot P s s' := by
  obtain ⟨⟨r', leaf⟩, hmap, heq⟩ := Option.map_eq_some_iff.mp h
  cases heq
  refine ⟨rfl, ((Leaf.mappages_page hal hmap).keeps hf).mono ?_⟩
  rintro vpn ⟨hlo, hhi⟩
  rwa [le_antisymm hhi hlo]

theorem maps_experm (hp : P (va / PGSIZE)) (ha : Adds arch prot perm) :
    Maps arch prot P s (s.experm arch va perm).2 := by
  unfold experm
  dsimp only
  split
  · exact .refl
  split
  · exact .refl
  rename_i hv
  split
  · exact .refl
  rename_i hu
  refine maps_setLeaf hp fun hw => .of_flags ?_
  exact (hw (by simpa [pte] using hv) (by simpa [pte] using hu)).or ha

theorem maps_markCow (hp : P (va / PGSIZE)) : Maps arch prot P s (markCow arch cow va v s).2 := by
  unfold markCow
  split
  · rename_i hc
    exact maps_setLeaf hp fun hw => hw.cow hc.2
  · exact .refl

/-- What the loops of `mmap` change of the new VMA. -/
structure SameArea (v v' : Vma) : Prop where
  type : v'.type = v.type
  perm : v'.perm = v.perm
  origProt : v'.origProt = v.origProt
  addr : v'.addr = v.addr
  end_ : v'.end_ = v.end_

theorem SameArea.refl : SameArea v v := ⟨rfl, rfl, rfl, rfl, rfl⟩

theorem SameArea.trans {v' w : Vma} (h₁ : SameArea v v') (h₂ : SameArea v' w) : SameArea v w :=
  ⟨h₂.type.trans h₁.type, h₂.perm.trans h₁.perm, h₂.origProt.trans h₁.origProt,
    h₂.addr.trans h₁.addr, h₂.end_.trans h₁.end_⟩

theorem setPrivate_area : SameArea v (setPrivate v) := by
  unfold setPrivate
  exact ⟨rfl, rfl, rfl, rfl, rfl⟩

theorem markCow_area : SameArea v (markCow arch cow va v s).1 := by
  unfold markCow
  split
  · exact setPrivate_area
  · exact .refl

/-- The address of the next page, as long as the addresses do not wrap. -/
theorem next_page (h : (lo + (n + 1)) * PGSIZE < 2 ^ 64) : add64 (lo * PGSIZE) PGSIZE = (lo + 1) * PGSIZE := by
  simp only [add64, PGSIZE] at *
  omega

theorem page_div : lo * PGSIZE / PGSIZE = lo := Nat.mul_div_cancel _ (by decide)

theorem page_mod : lo * PGSIZE % PGSIZE = 0 := Nat.mul_mod_left _ _

/-- The pages from `lo` on, `n` of them. -/
def PagesFrom (lo n vpn : Nat) : Prop := lo ≤ vpn ∧ vpn < lo + n

theorem PagesFrom.first : PagesFrom lo (n + 1) lo := ⟨le_rfl, by omega⟩

theorem PagesFrom.rest (h : PagesFrom (lo + 1) n vpn) : PagesFrom lo (n + 1) vpn := by
  obtain ⟨hlo, hhi⟩ := h
  exact ⟨by omega, by omega⟩

/-- The entry of a page whose protection is changed. -/
def protectPte (arch : Arch) (perm : Nat) (pte : Pte) : Pte :=
  if pte.valid then ⟨pte.pa, protectFlags arch perm pte.flags⟩ else pte

/-- The loop over the pages changes the entries of its range, one after the other. -/
theorem protectLoop_pages {perm : Nat} (h : protectLoop arch perm n (lo * PGSIZE) s = some s') :
    s' = { s with leaf := s'.leaf } ∧ (∀ vpn, ¬PagesFrom lo n vpn → s'.leaf vpn = s.leaf vpn) ∧
      ∀ vpn, PagesFrom lo n vpn → s'.leaf vpn = protectPte arch perm (s.leaf vpn) := by
  induction n generalizing lo s with
  | zero =>
    cases h
    exact ⟨rfl, fun _ _ => rfl, fun vpn ⟨h₁, h₂⟩ => absurd h₁ (by omega)⟩
  | succ n ih =>
    rw [protectLoop] at h
    split at h
    · cases h
    rename_i hmax
    have hnext : add64 (lo * PGSIZE) PGSIZE = (lo + 1) * PGSIZE := by
      have := Leaf.maxva_lt arch
      simp only [add64, PGSIZE] at *
      omega
    rw [hnext] at h
    dsimp only at h
    generalize ht : (if (s.pte (lo * PGSIZE)).valid = true then
      s.setLeaf (lo * PGSIZE / PGSIZE) ⟨(s.pte (lo * PGSIZE)).pa,
        protectFlags arch perm (s.pte (lo * PGSIZE)).flags⟩ else s) = t at h
    -- the page itself
    have hpage : t = { s with leaf := t.leaf } ∧ t.leaf = update s.leaf lo (protectPte arch perm (s.leaf lo)) := by
      rw [← ht, pte, page_div]
      unfold protectPte
      split
      · exact ⟨rfl, rfl⟩
      · exact ⟨rfl, (Function.update_eq_self lo s.leaf).symm⟩
    obtain ⟨hsame, hout, hin⟩ := ih h
    rw [hpage.2] at hout hin
    refine ⟨by rw [hsame, hpage.1], fun vpn hp => ?_, fun vpn hp => ?_⟩
    · have hne : vpn ≠ lo := fun heq => hp (heq ▸ .first)
      rw [hout vpn fun hr => hp hr.rest, update_of_ne hne]
    · by_cases hne : vpn = lo
      · subst hne
        rw [hout vpn fun hr => absurd hr.1 (by omega), update_self]
      · have hr : PagesFrom (lo + 1) n vpn := by
          unfold PagesFrom at hp ⊢
          omega
        rw [hin vpn hr, update_of_ne hne]

section Loops

variable {n lo shp idx va hi : Nat} {env : FileEnv} {cow ok : Bool} {v v' : Vma}

theorem sharedLoop_vmas (h : sharedLoop arch perm shp n idx va s = some (ok, s')) : s'.vmas = s.vmas := by
  induction n generalizing idx va s with
  | zero =>
    cases h
    rfl
  | succ n ih =>
    rw [sharedLoop] at h
    dsimp only at h
    split at h
    · cases h
      rfl
    obtain ⟨⟨r, t⟩, hmap, hrest⟩ := Option.bind_eq_some_iff.mp h
    have ht : t.vmas = s.alloc.2.vmas := mappages_vmas hmap
    dsimp only at hrest
    split at hrest
    · cases hrest
      exact ht
    · exact (ih hrest).trans ht

theorem sharedLoop_maps (hwrap : (lo + n) * PGSIZE < 2 ^ 64)
    (hf : FlagsWithin arch prot (perm ||| PTE_U arch ||| PTE_R arch ||| PTE_V))
    (h : sharedLoop arch perm shp n idx (lo * PGSIZE) s = some (ok, s')) :
    Maps arch prot (PagesFrom lo n) s s' := by
  induction n generalizing lo idx s with
  | zero =>
    cases h
    exact .refl
  | succ n ih =>
    rw [sharedLoop, next_page hwrap] at h
    have hs : Maps arch prot (PagesFrom lo (n + 1)) s s.alloc.2 := .of_eq rfl rfl
    dsimp only at h
    split at h
    · cases h
      exact hs
    obtain ⟨⟨r, t⟩, hmap, hrest⟩ := Option.bind_eq_some_iff.mp h
    have ht : Maps arch prot (PagesFrom lo (n + 1)) s t := by
      refine hs.trans (maps_mappages page_mod ?_ hf hmap)
      rw [page_div]
      exact .first
    dsimp only at hrest
    split at hrest
    · cases hrest
      exact ht.trans (.of_eq rfl rfl)
    · have hpage : Maps arch prot (PagesFrom lo (n + 1)) s (setShmPage shp idx s.alloc.1 t) :=
        ht.trans (.of_eq rfl rfl)
      have hloop := ih (by rw [Nat.add_right_comm, Nat.add_assoc]; exact hwrap) hrest
      exact hpage.trans (hloop.mono fun _ => PagesFrom.rest)

theorem sharedRead_vmas : (sharedRead arch env perm n va s).2.vmas = s.vmas := by
  induction n generalizing va s with
  | zero => rfl
  | succ n ih =>
    rw [sharedRead]
    split
    · exact experm_vmas
    · exact ih.trans experm_vmas

theorem sharedRead_maps (env : FileEnv) (hwrap : (lo + n) * PGSIZE < 2 ^ 64) (ha : Adds arch prot perm) :
    Maps arch prot (PagesFrom lo n) s (sharedRead arch env perm n (lo * PGSIZE) s).2 := by
  induction n generalizing lo s with
  | zero => exact .refl
  | succ n ih =>
    rw [sharedRead, next_page hwrap]
    have hs : Maps arch prot (PagesFrom lo (n + 1)) s (s.experm arch (lo * PGSIZE) perm).2 := by
      refine maps_experm ?_ ha
      rw [page_div]
      exact .first
    split
    · exact hs
    · refine hs.trans (Maps.mono (ih ?_) fun _ => PagesFrom.rest)
      rw [Nat.add_right_comm, Nat.add_assoc]
      exact hwrap

theorem fileLoop_area (h : fileLoop arch env perm cow n va v s = some (v', s')) : SameArea v v' := by
  induction n generalizing va s v with
  | zero =>
    cases h
    exact .refl
  | succ n ih =>
    rw [fileLoop] at h
    dsimp only at h
    split at h
    · cases h
    · exact markCow_area.trans (ih h)

theorem fileLoop_maps (hwrap : (lo + n) * PGSIZE < 2 ^ 64) (ha : Adds arch prot perm)
    (h : fileLoop arch env perm cow n (lo * PGSIZE) v s = some (v', s')) :
    Maps arch prot (PagesFrom lo n) s s' := by
  induction n generalizing lo s v with
  | zero =>
    cases h
    exact .refl
  | succ n ih =>
    rw [fileLoop, next_page hwrap] at h
    have hfirst : PagesFrom lo (n + 1) (lo * PGSIZE / PGSIZE) := by
      rw [page_div]
      exact .first
    dsimp only at h
    split at h
    · cases h
    have hmaps := ih (by rw [Nat.add_right_comm, Nat.add_assoc]; exact hwrap) h
    exact (maps_experm hfirst ha).trans ((maps_markCow hfirst).trans (hmaps.mono fun _ => PagesFrom.rest))

theorem anonLoop_area (h : anonLoop arch perm cow n va v s = some (ok, v', s')) : SameArea v v' := by
  induction n generalizing va s v with
  | zero =>
    cases h
    exact .refl
  | succ n ih =>
    rw [anonLoop] at h
    dsimp only at h
    split at h
    · split at h
      · cases h
        exact .refl
      obtain ⟨⟨r, t⟩, -, hrest⟩ := Option.bind_eq_some_iff.mp h
      dsimp only at hrest
      split at hrest
      · cases hrest
        exact .refl
      · exact markCow_area.trans (ih hrest)
    · exact markCow_area.trans (ih h)

theorem anonLoop_maps (hwrap : (lo + n) * PGSIZE < 2 ^ 64) (ha : Adds arch prot perm)
    (hf : FlagsWithin arch prot (perm ||| PTE_V))
    (h : anonLoop arch perm cow n (lo * PGSIZE) v s = some (ok, v', s')) :
    Maps arch prot (PagesFrom lo n) s s' := by
  induction n generalizing lo s v with
  | zero =>
    cases h
    exact .refl
  | succ n ih =>
    rw [anonLoop, next_page hwrap] at h
    have hfirst : PagesFrom lo (n + 1) (lo * PGSIZE / PGSIZE) := by
      rw [page_div]
      exact .first
    -- the rest of the loop, from whatever state the page was mapped in
    have hnext : ∀ t, Maps arch prot (PagesFrom lo (n + 1)) s t →
        anonLoop arch perm cow n ((lo + 1) * PGSIZE) (markCow arch cow (lo * PGSIZE) v t).1
          (markCow arch cow (lo * PGSIZE) v t).2 = some (ok, v', s') →
        Maps arch prot (PagesFrom lo (n + 1)) s s' := by
      intro t ht hloop
      have hmaps := ih (by rw [Nat.add_right_comm, Nat.add_assoc]; exact hwrap) hloop
      exact ht.trans ((maps_markCow hfirst).trans (hmaps.mono fun _ => PagesFrom.rest))
    have hs := maps_experm (s := s) hfirst ha
    dsimp only at h
    split at h
    · split at h
      · cases h
        exact hs.trans (.of_eq rfl rfl)
      obtain ⟨⟨r, t⟩, hmap, hrest⟩ := Option.bind_eq_some_iff.mp h
      have hsupply : Maps arch prot (PagesFrom lo (n + 1)) s
          (s.experm arch (lo * PGSIZE) perm).2.alloc.2 := hs.trans (.of_eq rfl rfl)
      have ht := hsupply.trans (maps_mappages page_mod hfirst hf hmap)
      dsimp only at hrest
      split at hrest
      · cases hrest
        exact ht.trans (.of_eq rfl rfl)
      · exact hnext t ht hrest
    · exact hnext _ hs h

/-- A block that is mapped as a whole. -/
theorem maps_mappages_block {pa : Nat} {r : Int} (hn : 0 < n) (hwrap : (lo + n) * PGSIZE < 2 ^ 64)
    (hf : FlagsWithin arch prot (perm ||| PTE_V))
    (h : s.mappages arch (lo * PGSIZE) pa (n * PGSIZE) perm = some (r, s')) :
    Maps arch prot (PagesFrom lo n) s s' := by
  obtain ⟨⟨r', leaf⟩, hmap, heq⟩ := Option.map_eq_some_iff.mp h
  cases heq
  have hmapped := Leaf.mappages_mapped (by simp only [PGSIZE]; omega) (by simp only [PGSIZE] at *; omega) hmap
  refine ⟨rfl, (hmapped.keeps hf).mono ?_⟩
  rintro vpn ⟨hlo, hhi⟩
  simp only [PGSIZE] at *
  exact ⟨by omega, by omega⟩

theorem uvmalloc1Loop_maps {k : Nat} (hlo : lo ≤ k) (hwrap : hi * PGSIZE < 2 ^ 64)
    (hf : FlagsWithin arch prot (Vmem.userPerm arch perm ||| PTE_V))
    (h : uvmalloc1Loop arch (hi * PGSIZE) perm n (k * PGSIZE) s = some s') :
    Maps arch prot (PagesFrom lo (hi - lo)) s s' := by
  induction n generalizing k s with
  | zero =>
    rw [uvmalloc1Loop] at h
    split at h
    · cases h
    · cases h
      exact .refl
  | succ n ih =>
    rw [uvmalloc1Loop] at h
    split at h
    · rename_i hk
      have hk' : k < hi := Nat.lt_of_mul_lt_mul_right hk
      obtain ⟨s₁, halloc, h⟩ := Option.bind_eq_some_iff.mp h
      have hs₁ : Maps arch prot (PagesFrom lo (hi - lo)) s s₁ := by
        rw [allocNode] at halloc
        split at halloc
        · cases halloc
        · cases halloc
          exact .of_eq rfl rfl
      obtain ⟨⟨r, s₂⟩, hmap, hrest⟩ := Option.bind_eq_some_iff.mp h
      have hs₂ : Maps arch prot (PagesFrom lo (hi - lo)) s₁ s₂ := by
        refine maps_mappages page_mod ?_ hf hmap
        rw [page_div]
        exact ⟨hlo, by omega⟩
      dsimp only at hrest
      split at hrest
      · have hnext : add64 (k * PGSIZE) PGSIZE = (k + 1) * PGSIZE := by
          simp only [add64, PGSIZE] at *
          omega
        rw [hnext] at hrest
        exact (hs₁.trans hs₂).trans (ih (by omega) hrest)
      · cases hrest
    · cases h
      exact .refl

theorem pages_between (hlohi : lo < hi) (hwrap : hi * PGSIZE < 2 ^ 64) :
    sub64 (pgRoundUp (hi * PGSIZE)) (lo * PGSIZE) / PGSIZE = hi - lo := by
  simp only [sub64, pgRoundUp, alignUp, add64, PGSIZE] at *
  omega

theorem uvmalloc1_maps (hwrap : hi * PGSIZE < 2 ^ 64) (hf : FlagsWithin arch prot (Vmem.userPerm arch perm ||| PTE_V))
    (h : uvmalloc1 arch (lo * PGSIZE) (hi * PGSIZE) perm s = some s') :
    Maps arch prot (PagesFrom lo (hi - lo)) s s' := by
  rw [uvmalloc1] at h
  split at h
  · cases h
  rename_i hlt
  have hlohi : lo < hi := Nat.lt_of_mul_lt_mul_right (not_le.mp hlt)
  have hsupply : Maps arch prot (PagesFrom lo (hi - lo)) s s.alloc.2 := .of_eq rfl rfl
  rw [pages_between hlohi hwrap] at h
  dsimp only at h
  split at h
  · obtain ⟨⟨r, t⟩, hmap, hrest⟩ := Option.bind_eq_some_iff.mp h
    have ht := hsupply.trans (maps_mappages_block (by omega) (by rwa [Nat.add_sub_cancel' hlohi.le]) hf hmap)
    dsimp only at hrest
    split at hrest
    · cases hrest
      exact ht
    · have hfree : Maps arch prot (PagesFrom lo (hi - lo)) t (t.free s.alloc.1) := .of_eq rfl rfl
      exact (ht.trans hfree).trans (uvmalloc1Loop_maps le_rfl hwrap hf hrest)
  · exact hsupply.trans (uvmalloc1Loop_maps le_rfl hwrap hf h)

end Loops

end Space

/-! ## Unmapping -/

namespace Vma

/-- The page `vpn` starts in the VMA. -/
def HasPage (v : Vma) (vpn : Nat) : Prop := v.addr ≤ vpn * PGSIZE ∧ vpn * PGSIZE < v.end_

/-- The VMA meets the range. -/
def Meets (v : Vma) (start end_ : Nat) : Prop := start < v.end_ ∧ v.addr < end_

/-- `munmap` can take the VMA apart: it lies on page boundaries, and no thread holds on to it. -/
structure Clean (v : Vma) : Prop where
  addr : v.addr % PGSIZE = 0
  end_ : v.end_ % PGSIZE = 0
  refCount : v.refCount ≤ 1

/-- `w` is a part of `v`. -/
structure Part (v w : Vma) : Prop where
  type : w.type = v.type
  perm : w.perm = v.perm
  origProt : w.origProt = v.origProt
  refCount : w.refCount ≤ v.refCount
  addr : v.addr ≤ w.addr
  end_ : w.end_ ≤ v.end_

theorem Part.refl {v : Vma} : v.Part v := ⟨rfl, rfl, rfl, le_rfl, le_rfl, le_rfl⟩

theorem Part.trans {v w x : Vma} (h₁ : v.Part w) (h₂ : w.Part x) : v.Part x :=
  ⟨h₂.type.trans h₁.type, h₂.perm.trans h₁.perm, h₂.origProt.trans h₁.origProt,
    h₂.refCount.trans h₁.refCount, h₁.addr.trans h₂.addr, h₂.end_.trans h₁.end_⟩

theorem Part.hasPage {v w : Vma} (h : v.Part w) {vpn : Nat} (hp : w.HasPage vpn) : v.HasPage vpn :=
  ⟨h.addr.trans hp.1, hp.2.trans_le h.end_⟩

theorem Part.meets {v w : Vma} (h : v.Part w) {start end_ : Nat} (hm : w.Meets start end_) :
    v.Meets start end_ :=
  ⟨hm.1.trans_le h.end_, h.addr.trans_lt hm.2⟩

end Vma

namespace Space

variable {arch : Arch} {prot r : Int} {s s' s₀ : Space} {doFree : Bool} {a end_ n va lo vpn start : Nat} {v : Vma}
  {l L visited : List Vma} {leaf : Nat → Pte}

/-- The VMA list stays, and leaf entries are only cleared. -/
structure Unmaps (s s' : Space) : Prop where
  vmas : s'.vmas = s.vmas
  leaf : ∀ vpn, s'.leaf vpn = s.leaf vpn ∨ s'.leaf vpn = Pte.zero

namespace Unmaps

variable {t : Space}

theorem refl : Unmaps s s := ⟨rfl, fun _ => .inl rfl⟩

theorem trans (h₁ : Unmaps s s') (h₂ : Unmaps s' t) : Unmaps s t := by
  refine ⟨h₂.vmas.trans h₁.vmas, fun vpn => ?_⟩
  rcases h₂.leaf vpn with h | h
  · rw [h]
    exact h₁.leaf vpn
  · exact .inr h

theorem invalid (h : Unmaps s s') {vpn : Nat} (hv : (s.leaf vpn).valid = false) :
    (s'.leaf vpn).valid = false := by
  rcases h.leaf vpn with h | h
  · rwa [h]
  · rw [h]
    rfl

end Unmaps

theorem unmapPage_unmaps (h : unmapPage arch doFree a s = some s') :
    Unmaps s s' ∧ (s'.leaf (a / PGSIZE)).valid = false := by
  rw [unmapPage] at h
  dsimp only at h
  split at h
  · cases h
  by_cases hv : (s.pte a).valid = false
  · rw [if_pos hv] at h
    cases h
    exact ⟨.refl, hv⟩
  rw [if_neg hv] at h
  split at h
  · cases h
  have hclear : ∀ t : Space, t.vmas = s.vmas → t.leaf = s.leaf →
      Unmaps s (t.setLeaf (a / PGSIZE) Pte.zero) ∧
        ((t.setLeaf (a / PGSIZE) Pte.zero).leaf (a / PGSIZE)).valid = false := by
    intro t hvmas hleaf
    refine ⟨⟨hvmas, fun vpn => ?_⟩, ?_⟩
    · simp only [setLeaf, hleaf]
      by_cases heq : vpn = a / PGSIZE
      · subst heq
        exact .inr (update_self _ _ _)
      · exact .inl (update_of_ne heq _ _)
    · simp only [setLeaf, update_self]
      rfl
  cases h
  refine hclear _ ?_ ?_ <;> split <;> rfl

theorem vmunmapLoop_unmaps (h : vmunmapLoop arch doFree end_ n a s = some s') : Unmaps s s' := by
  induction n generalizing a s with
  | zero =>
    rw [vmunmapLoop] at h
    split at h
    · cases h
    · cases h
      exact .refl
  | succ n ih =>
    rw [vmunmapLoop] at h
    split at h
    · obtain ⟨t, hpage, hrest⟩ := Option.bind_eq_some_iff.mp h
      exact (unmapPage_unmaps hpage).1.trans (ih hrest)
    · cases h
      exact .refl

theorem vmunmap_unmaps (h : vmunmap arch va n doFree s = some s') : Unmaps s s' := by
  rw [vmunmap] at h
  split at h
  · cases h
  · exact vmunmapLoop_unmaps h

theorem vmunmapLoop_gone {hi : Nat} (hwrap : hi * PGSIZE < 2 ^ 64)
    (h : vmunmapLoop arch doFree (hi * PGSIZE) n (lo * PGSIZE) s = some s') (hlo : lo ≤ vpn)
    (hhi : vpn < hi) : (s'.leaf vpn).valid = false := by
  have hlt : lo * PGSIZE < hi * PGSIZE := Nat.mul_lt_mul_of_pos_right (hlo.trans_lt hhi) (by decide)
  induction n generalizing lo s with
  | zero =>
    rw [vmunmapLoop, if_pos hlt] at h
    cases h
  | succ n ih =>
    rw [vmunmapLoop, if_pos hlt] at h
    obtain ⟨t, hpage, hrest⟩ := Option.bind_eq_some_iff.mp h
    obtain ⟨-, hgone⟩ := unmapPage_unmaps hpage
    rw [page_div] at hgone
    have hnext : add64 (lo * PGSIZE) PGSIZE = (lo + 1) * PGSIZE := by
      simp only [add64, PGSIZE] at *
      omega
    rw [hnext] at hrest
    rcases hlo.eq_or_lt with rfl | hlo
    · exact (vmunmapLoop_unmaps hrest).invalid hgone
    · exact ih hrest hlo (Nat.mul_lt_mul_of_pos_right (by omega) (by decide))

theorem add64_pages (hwrap : (lo + n) * PGSIZE < 2 ^ 64) :
    add64 (lo * PGSIZE) (n * PGSIZE % 2 ^ 64) = (lo + n) * PGSIZE := by
  simp only [add64, PGSIZE] at *
  omega

/-- `vmunmap` clears the entries of its range. -/
theorem vmunmap_gone (hal : va % PGSIZE = 0)
    (hwrap : va + n * PGSIZE < 2 ^ 64) (h : vmunmap arch va n doFree s = some s')
    (hlo : va ≤ vpn * PGSIZE) (hhi : vpn * PGSIZE < va + n * PGSIZE) :
    (s'.leaf vpn).valid = false := by
  obtain ⟨lo, rfl⟩ : ∃ lo, va = lo * PGSIZE :=
    ⟨va / PGSIZE, (Nat.div_mul_cancel (Nat.dvd_of_mod_eq_zero hal)).symm⟩
  rw [← Nat.add_mul] at hwrap hhi
  rw [vmunmap, if_neg (not_not.mpr page_mod), add64_pages hwrap] at h
  exact vmunmapLoop_gone hwrap h (Nat.le_of_mul_le_mul_right hlo (by decide)) (Nat.lt_of_mul_lt_mul_right hhi)

/-- What `munmap` leaves of a VMA when it takes out the range from `start` to `end_`: parts outside
the range, which have all pages of the VMA that are still mapped. -/
structure Remains (start end_ : Nat) (leaf : Nat → Pte) (v : Vma) (l : List Vma) : Prop where
  part : ∀ w ∈ l, v.Part w
  starts : ∀ w ∈ l, w.addr = v.addr ∨ w.addr = end_
  ends : ∀ w ∈ l, w.end_ = v.end_ ∨ w.end_ = start
  apart : ∀ w ∈ l, w.end_ ≤ start ∨ end_ ≤ w.addr
  pages : ∀ vpn, v.HasPage vpn → (leaf vpn).valid = false ∨ ∃ w ∈ l, w.HasPage vpn

theorem Remains.unmaps (h : Remains start end_ s.leaf v l) (hs : Unmaps s s') : Remains start end_ s'.leaf v l :=
  { h with pages := fun vpn hp => (h.pages vpn hp).imp_left hs.invalid }

theorem allocNode_unmaps (h : s.allocNode = some s') : Unmaps s s' := by
  rw [allocNode] at h
  split at h
  · cases h
  · cases h
    exact ⟨rfl, fun _ => .inl rfl⟩

/-- The two parts of a VMA that the range cuts. -/
theorem remains_parts (hend : v.end_ > start) (haddr : v.addr ≤ end_)
    (hpages : ∀ vpn, start ≤ vpn * PGSIZE → vpn * PGSIZE < end_ → v.HasPage vpn → (leaf vpn).valid = false) :
    Remains start end_ leaf v ((if v.addr < start then [v.front start] else []) ++
      (if v.end_ > end_ then [v.back end_] else [])) := by
  have hmem : ∀ w ∈ (if v.addr < start then [v.front start] else []) ++
      (if v.end_ > end_ then [v.back end_] else []),
      (v.addr < start ∧ w = v.front start) ∨ (v.end_ > end_ ∧ w = v.back end_) := by
    intro w hw
    rcases List.mem_append.mp hw with hw | hw
    · split at hw
      · exact .inl ⟨‹_›, List.mem_singleton.mp hw⟩
      · cases hw
    · split at hw
      · exact .inr ⟨‹_›, List.mem_singleton.mp hw⟩
      · cases hw
  constructor
  · intro w hw
    rcases hmem w hw with ⟨ha, rfl⟩ | ⟨he, rfl⟩
    · exact ⟨rfl, rfl, rfl, le_rfl, le_rfl, hend.le⟩
    · exact ⟨rfl, rfl, rfl, le_rfl, haddr, le_rfl⟩
  · intro w hw
    rcases hmem w hw with ⟨ha, rfl⟩ | ⟨he, rfl⟩
    · exact .inl rfl
    · exact .inr rfl
  · intro w hw
    rcases hmem w hw with ⟨ha, rfl⟩ | ⟨he, rfl⟩
    · exact .inr rfl
    · exact .inl rfl
  · intro w hw
    rcases hmem w hw with ⟨ha, rfl⟩ | ⟨he, rfl⟩
    · exact .inl le_rfl
    · exact .inr le_rfl
  · intro vpn hp
    by_cases hbefore : vpn * PGSIZE < start
    · have ha : v.addr < start := hp.1.trans_lt hbefore
      refine .inr ⟨v.front start, List.mem_append_left _ ?_, hp.1, hbefore⟩
      rw [if_pos ha]
      exact List.mem_singleton_self _
    by_cases hafter : vpn * PGSIZE < end_
    · exact .inl (hpages vpn (not_lt.mp hbefore) hafter hp)
    · have he : v.end_ > end_ := (not_lt.mp hafter).trans_lt hp.2
      refine .inr ⟨v.back end_, List.mem_append_right _ ?_, not_lt.mp hafter, hp.2⟩
      rw [if_pos he]
      exact List.mem_singleton_self _

/-- A VMA that stays as it is. -/
theorem remains_self {w : Vma} (hpart : v.Part w)
    (haddr : w.addr = v.addr) (hend : w.end_ = v.end_) (hapart : v.end_ ≤ start ∨ end_ ≤ v.addr) :
    Remains start end_ leaf v [w] := by
  constructor
  all_goals simp only [List.mem_singleton, forall_eq]
  · exact hpart
  · exact .inl haddr
  · exact .inl hend
  · rwa [haddr, hend]
  · exact fun vpn hp => .inr ⟨w, rfl, by rw [haddr]; exact hp.1, by rw [hend]; exact hp.2⟩

/-- A VMA without pages that goes. -/
theorem remains_none (hpages : ∀ vpn, v.HasPage vpn → (leaf vpn).valid = false) : Remains start end_ leaf v [] where
  part _ hw := by cases hw
  starts _ hw := by cases hw
  ends _ hw := by cases hw
  apart _ hw := by cases hw
  pages vpn hp := .inl (hpages vpn hp)

theorem munmapVma_remains (hstart : start % PGSIZE = 0)
    (hend : end_ % PGSIZE = 0) (hwrap : end_ < 2 ^ 64) (hclean : v.Meets start end_ → v.Clean)
    (h : munmapVma arch start end_ v s = some (l, s')) :
    Unmaps s s' ∧ Remains start end_ s'.leaf v l := by
  rw [munmapVma] at h
  split at h
  · rename_i hov
    obtain ⟨hve, hva⟩ := hov
    split at h
    · rename_i hin
      obtain ⟨hin₁, hin₂⟩ := hin
      split at h
      · -- a VMA that a thread holds on to stays; it is empty and lies at the end of the range
        rename_i href
        cases h
        have hempty : end_ ≤ v.addr := by
          by_contra hm
          have := (hclean ⟨hve, not_le.mp hm⟩).refCount
          omega
        refine ⟨.refl, remains_self ⟨rfl, rfl, rfl, ?_, le_rfl, le_rfl⟩ rfl rfl (.inr hempty)⟩
        dsimp only
        omega
      · obtain ⟨t, hun, heq⟩ := Option.map_eq_some_iff.mp h
        cases heq
        refine ⟨vmunmap_unmaps hun, remains_none fun vpn hp => ?_⟩
        have hc := hclean ⟨hve, by have := hp.1; have := hp.2; omega⟩
        obtain ⟨hc₁, hc₂, -⟩ := hc
        obtain ⟨hp₁, hp₂⟩ := hp
        have hn : sub64 v.end_ v.addr = v.end_ - v.addr := by
          unfold sub64
          omega
        rw [hn] at hun
        refine vmunmap_gone hc₁ ?_ hun hp₁ ?_ <;> simp only [PGSIZE] at * <;> omega
    · obtain ⟨s₁, h₁, h⟩ := Option.bind_eq_some_iff.mp h
      obtain ⟨s₂, h₂, h⟩ := Option.bind_eq_some_iff.mp h
      obtain ⟨s₃, h₃, heq⟩ := Option.map_eq_some_iff.mp h
      cases heq
      have hs₁ : Unmaps s s₁ := by
        split at h₁
        · exact allocNode_unmaps h₁
        · cases h₁
          exact .refl
      have hs₂ : Unmaps s₁ s₂ := by
        split at h₂
        · exact allocNode_unmaps h₂
        · cases h₂
          exact .refl
      obtain ⟨us, hus⟩ : ∃ us, us = if v.addr > start then v.addr else start := ⟨_, rfl⟩
      obtain ⟨ue, hue⟩ : ∃ ue, ue = if v.end_ < end_ then v.end_ else end_ := ⟨_, rfl⟩
      rw [← hus, ← hue] at h₃
      have hs₃ : Unmaps s₂ s' := by
        split at h₃
        · exact vmunmap_unmaps h₃
        · cases h₃
          exact .refl
      refine ⟨(hs₁.trans hs₂).trans hs₃, remains_parts hve hva ?_⟩
      rintro vpn hp₁ hp₂ ⟨hp₃, hp₄⟩
      obtain ⟨hc₁, hc₂, -⟩ := hclean ⟨hve, by omega⟩
      have hus' : us % PGSIZE = 0 ∧ us ≤ vpn * PGSIZE := by
        rw [hus]
        split <;> exact ⟨‹_›, ‹_›⟩
      have hue' : ue % PGSIZE = 0 ∧ vpn * PGSIZE < ue ∧ ue ≤ end_ := by
        rw [hue]
        split
        · exact ⟨hc₂, hp₄, by omega⟩
        · exact ⟨hend, hp₂, le_rfl⟩
      rw [if_pos (by omega)] at h₃
      have hn : us + (ue - us) / PGSIZE * PGSIZE = ue := by
        obtain ⟨hus₁, hus₂⟩ := hus'
        obtain ⟨hue₁, hue₂, hue₃⟩ := hue'
        simp only [PGSIZE] at hus₁ hus₂ hue₁ hue₂ ⊢
        omega
      exact vmunmap_gone hus'.1 (by rw [hn]; omega) h₃ hus'.2 (by rw [hn]; exact hue'.2.1)
  · rename_i hov
    cases h
    refine ⟨.refl, remains_self .refl rfl rfl ?_⟩
    omega

/-- The list that `munmap` leaves when it takes out a range. -/
structure Cut (start end_ : Nat) (leaf : Nat → Pte) (L L' : List Vma) : Prop where
  part : ∀ w ∈ L', ∃ v ∈ L, v.Part w ∧ (w.addr = v.addr ∨ w.addr = end_) ∧ (w.end_ = v.end_ ∨ w.end_ = start)
  apart : ∀ w ∈ L', w.end_ ≤ start ∨ end_ ≤ w.addr
  pages : ∀ v ∈ L, ∀ vpn, v.HasPage vpn → (leaf vpn).valid = false ∨ ∃ w ∈ L', w.HasPage vpn

theorem munmapLoop_cut {L' : List Vma} {found : Bool}
    (hstart : start % PGSIZE = 0) (hend : end_ % PGSIZE = 0) (hwrap : end_ < 2 ^ 64)
    (hclean : ∀ v ∈ L, v.Meets start end_ → v.Clean)
    (h : munmapLoop arch start end_ L s = some (found, L', s')) :
    Unmaps s s' ∧ Cut start end_ s'.leaf L L' := by
  induction L generalizing s found L' with
  | nil =>
    cases h
    refine ⟨.refl, ?_, ?_, ?_⟩ <;> intro w hw <;> cases hw
  | cons v vs ih =>
    rw [munmapLoop] at h
    obtain ⟨⟨l, t⟩, hv, h⟩ := Option.bind_eq_some_iff.mp h
    obtain ⟨⟨found', l', t'⟩, hvs, heq⟩ := Option.map_eq_some_iff.mp h
    cases heq
    obtain ⟨hst, hrem⟩ := munmapVma_remains hstart hend hwrap (hclean v List.mem_cons_self) hv
    obtain ⟨hts, hcut⟩ := ih (fun w hw => hclean w (List.mem_cons_of_mem _ hw)) hvs
    have hrem := hrem.unmaps hts
    refine ⟨hst.trans hts, ?_, ?_, ?_⟩
    · intro w hw
      rcases List.mem_append.mp hw with hw | hw
      · exact ⟨v, List.mem_cons_self, hrem.part w hw, hrem.starts w hw, hrem.ends w hw⟩
      · obtain ⟨x, hx, hparts⟩ := hcut.part w hw
        exact ⟨x, List.mem_cons_of_mem _ hx, hparts⟩
    · intro w hw
      exact (List.mem_append.mp hw).elim (hrem.apart w) (hcut.apart w)
    · intro x hx vpn hp
      rcases List.mem_cons.mp hx with rfl | hx
      · exact (hrem.pages vpn hp).imp_right fun ⟨w, hw, hwp⟩ => ⟨w, List.mem_append_left _ hw, hwp⟩
      · exact (hcut.pages x hx vpn hp).imp_right fun ⟨w, hw, hwp⟩ => ⟨w, List.mem_append_right _ hw, hwp⟩

/-- The end that `munmap` computes from the length that `mmap` hands it. -/
theorem toU64_end (hle : start ≤ end_) (hwrap : end_ < 2 ^ 64)
    (hlen : end_ - start < 2 ^ 31) : toU64 (start + toInt32 (end_ - start)) = end_ := by
  rw [toInt32_of_lt hlen, Int.ofNat_sub hle, add_sub_cancel]
  unfold toU64
  rw [Int.emod_eq_of_lt (Int.natCast_nonneg _) (by exact_mod_cast hwrap)]
  rfl

theorem munmap_cut (hstart : start % PGSIZE = 0)
    (hend : end_ % PGSIZE = 0) (hlt : start < end_) (hwrap : end_ < 2 ^ 64)
    (hlen : end_ - start < 2 ^ 31) (hclean : ∀ v ∈ s.vmas, v.Meets start end_ → v.Clean)
    (h : munmap arch start (toInt32 (end_ - start)) s = some (r, s')) :
    (∀ vpn, s'.leaf vpn = s.leaf vpn ∨ s'.leaf vpn = Pte.zero) ∧ Cut start end_ s'.leaf s.vmas s'.vmas := by
  have hround : pgRoundDown start = start := Nat.div_mul_cancel (Nat.dvd_of_mod_eq_zero hstart)
  have hround' : pgRoundDown end_ = end_ := Nat.div_mul_cancel (Nat.dvd_of_mod_eq_zero hend)
  have hpos : ¬toInt32 (end_ - start) ≤ 0 := by
    rw [toInt32_of_lt hlen]
    omega
  rw [munmap, toU64_end hlt.le hwrap hlen, hround, hround', if_neg hpos] at h
  obtain ⟨⟨found, L', t⟩, hloop, heq⟩ := Option.map_eq_some_iff.mp h
  cases heq
  obtain ⟨hst, hcut⟩ := munmapLoop_cut hstart hend hwrap hclean hloop
  exact ⟨hst.leaf, hcut⟩

/-- Where `mmap` with `MAP_FIXED` has got in its loop from the space `s₀`, with the VMAs of `visited`
done. -/
structure Unmapping (start end_ : Nat) (visited : List Vma) (s₀ s : Space) : Prop where
  leaf : ∀ vpn, s.leaf vpn = s₀.leaf vpn ∨ s.leaf vpn = Pte.zero
  part : ∀ w ∈ s.vmas, ∃ v ∈ s₀.vmas, v.Part w
  clean : ∀ w ∈ s.vmas, w.Meets start end_ → w.Clean
  apart : ∀ v ∈ visited, v.Meets start end_ → v.addr < v.end_ →
    ∀ w ∈ s.vmas, w.end_ ≤ max v.addr start ∨ min v.end_ end_ ≤ w.addr
  pages : ∀ v ∈ s₀.vmas, ∀ vpn, v.HasPage vpn → (s.leaf vpn).valid = false ∨ ∃ w ∈ s.vmas, w.HasPage vpn

/-- What the loop needs of a VMA in its range: `munmap` gets the overlap as an `int`, and cuts the
VMA at the end of the range only if that is a page boundary. -/
structure Removable (start end_ : Nat) (v : Vma) : Prop where
  clean : v.Clean
  length : min v.end_ end_ - max v.addr start < 2 ^ 31
  boundary : v.end_ ≤ end_ ∨ end_ % PGSIZE = 0

/-- One VMA of the loop. -/
theorem Unmapping.munmap
    (hinv : Unmapping start end_ visited s₀ s) (hstart : start % PGSIZE = 0) (hwrap : end_ < 2 ^ 64)
    (hv : Removable start end_ v) (hlt : max v.addr start < min v.end_ end_)
    (h : munmap arch (max v.addr start) (toInt32 (min v.end_ end_ - max v.addr start)) s =
      some (r, s')) : Unmapping start end_ (v :: visited) s₀ s' := by
  have hos : max v.addr start % PGSIZE = 0 := by
    rcases max_choice v.addr start with heq | heq <;> rw [heq]
    · exact hv.clean.addr
    · exact hstart
  have hoe : min v.end_ end_ % PGSIZE = 0 := by
    rcases hv.boundary with hle | hal
    · rw [min_eq_left hle]
      exact hv.clean.end_
    · rcases min_choice v.end_ end_ with heq | heq <;> rw [heq]
      · exact hv.clean.end_
      · exact hal
  have hsub : ∀ w : Vma, w.Meets (max v.addr start) (min v.end_ end_) → w.Meets start end_ :=
    fun w hm => ⟨(le_max_right _ _).trans_lt hm.1, hm.2.trans_le (min_le_right _ _)⟩
  obtain ⟨hleaf, hcut⟩ := munmap_cut hos hoe hlt ((min_le_right _ _).trans_lt hwrap) hv.length
    (fun w hw hm => hinv.clean w hw (hsub w hm)) h
  constructor
  · intro vpn
    rcases hleaf vpn with heq | heq
    · rw [heq]
      exact hinv.leaf vpn
    · exact .inr heq
  · intro w hw
    obtain ⟨x, hx, hxw, -⟩ := hcut.part w hw
    obtain ⟨y, hy, hyx⟩ := hinv.part x hx
    exact ⟨y, hy, hyx.trans hxw⟩
  · intro w hw hm
    obtain ⟨x, hx, hxw, haddr, hend⟩ := hcut.part w hw
    have hclean := hinv.clean x hx (hxw.meets hm)
    refine ⟨?_, ?_, hxw.refCount.trans hclean.refCount⟩
    · rcases haddr with heq | heq <;> rw [heq]
      · exact hclean.addr
      · exact hoe
    · rcases hend with heq | heq <;> rw [heq]
      · exact hclean.end_
      · exact hos
  · intro x hx hm hne w hw
    rcases List.mem_cons.mp hx with rfl | hx
    · exact hcut.apart w hw
    · obtain ⟨y, hy, hyw, -⟩ := hcut.part w hw
      exact (hinv.apart x hx hm hne y hy).imp hyw.end_.trans fun hle => hle.trans hyw.addr
  · intro x hx vpn hp
    rcases hinv.pages x hx vpn hp with hgone | ⟨w, hw, hwp⟩
    · left
      rcases hleaf vpn with heq | heq
      · rwa [heq]
      · rw [heq]
        rfl
    · exact hcut.pages w hw vpn hwp

theorem unmapFixed_unmapping (hstart : start % PGSIZE = 0) (hwrap : end_ < 2 ^ 64) (hlt : start < end_)
    (hrem : ∀ v ∈ L, v.Meets start end_ → Removable start end_ v)
    (hinv : Unmapping start end_ visited s₀ s) (h : unmapFixed arch start end_ L s = some s') :
    Unmapping start end_ (L.reverse ++ visited) s₀ s' := by
  induction L generalizing s visited with
  | nil =>
    cases h
    exact hinv
  | cons v vs ih =>
    have hrem' : ∀ w ∈ vs, w.Meets start end_ → Removable start end_ w :=
      fun w hw => hrem w (List.mem_cons_of_mem _ hw)
    -- a VMA outside the range, or without pages, counts as done
    have hskip : ¬(v.Meets start end_ ∧ v.addr < v.end_) →
        Unmapping start end_ (v :: visited) s₀ s := fun hno =>
      { hinv with
        apart := fun x hx hm hne => by
          rcases List.mem_cons.mp hx with rfl | hx
          · exact absurd ⟨hm, hne⟩ hno
          · exact hinv.apart x hx hm hne }
    rw [List.reverse_cons, List.append_assoc, List.singleton_append]
    rw [unmapFixed] at h
    split at h
    · rename_i hov
      have hos : (if v.addr > start then v.addr else start) = max v.addr start := by
        rw [max_def]
        split <;> split <;> omega
      have hoe : (if v.end_ < end_ then v.end_ else end_) = min v.end_ end_ := by
        rw [min_def]
        split <;> split <;> omega
      dsimp only at h
      rw [hos, hoe] at h
      split at h
      · rename_i hgt
        obtain ⟨⟨r, t⟩, hmun, hrest⟩ := Option.bind_eq_some_iff.mp h
        exact ih hrem' (hinv.munmap hstart hwrap (hrem v List.mem_cons_self ⟨hov.1, hov.2⟩) hgt hmun) hrest
      · rename_i hgt
        refine ih hrem' (hskip fun hm => hgt ?_) h
        obtain ⟨⟨h₁, h₂⟩, h₃⟩ := hm
        exact lt_min (max_lt h₃ h₁) (max_lt h₂ hlt)
    · rename_i hov
      exact ih hrem' (hskip fun hm => hov ⟨hm.1.1, hm.1.2⟩) h

/-- After the loop no VMA has a page in the range, and the pages that are still mapped there were in
no VMA before. -/
theorem unmapFixed_free (hstart : start % PGSIZE = 0) (hwrap : end_ < 2 ^ 64)
    (hlt : start < end_) (hrem : ∀ v ∈ s.vmas, v.Meets start end_ → Removable start end_ v)
    (h : unmapFixed arch start end_ s.vmas s = some s') :
    (∀ vpn, s'.leaf vpn = s.leaf vpn ∨ s'.leaf vpn = Pte.zero) ∧
      (∀ w ∈ s'.vmas, ∃ v ∈ s.vmas, v.Part w) ∧
      ∀ vpn, start ≤ vpn * PGSIZE → vpn * PGSIZE < end_ →
        (∀ w ∈ s'.vmas, ¬w.HasPage vpn) ∧ ((s'.leaf vpn).valid = false ∨ ∀ v ∈ s.vmas, ¬v.HasPage vpn) := by
  have hinit : Unmapping start end_ [] s s :=
    { leaf := fun _ => .inl rfl
      part := fun w hw => ⟨w, hw, .refl⟩
      clean := fun w hw hm => (hrem w hw hm).clean
      apart := fun v hv => by cases hv
      pages := fun v hv vpn hp => .inr ⟨v, hv, hp⟩ }
  have hinv := unmapFixed_unmapping hstart hwrap hlt hrem hinit h
  rw [List.append_nil] at hinv
  refine ⟨hinv.leaf, hinv.part, fun vpn hlo hhi => ?_⟩
  have hnone : ∀ w ∈ s'.vmas, ¬w.HasPage vpn := by
    rintro w hw ⟨hp₁, hp₂⟩
    obtain ⟨v, hv, hvw⟩ := hinv.part w hw
    obtain ⟨hq₁, hq₂⟩ := hvw.hasPage ⟨hp₁, hp₂⟩
    have hapart := hinv.apart v (List.mem_reverse.mpr hv) ⟨by omega, by omega⟩ (by omega) w hw
    rcases hapart with hle | hle
    · have := max_le hq₁ hlo
      omega
    · have := lt_min hq₂ hhi
      omega
  refine ⟨hnone, ?_⟩
  by_contra hno
  rw [not_or] at hno
  obtain ⟨hvalid, hsome⟩ := hno
  push Not at hsome
  obtain ⟨v, hv, hp⟩ := hsome
  rcases hinv.pages v hv vpn hp with hgone | ⟨w, hw, hwp⟩
  · exact hvalid hgone
  · exact hnone w hw hwp

end Space

end SC7
