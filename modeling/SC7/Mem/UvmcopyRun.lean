-- SUMMARY: Whole calls of `uvmcopy`: the copies are made and all is as it should be, exactly when there is memory and the flags fit.
import SC7.Mem.Uvmcopy

/-!
# Calls of `uvmcopy`

`Copying` describes a call half way: which pages are copied, and how much memory is left against what the
rest still needs. Each round keeps it, and a round that fails does so for lack of memory. In the other
direction, a call that came to its end and left the right flags had only flags to copy that fit, page by
page in the order of the rounds.
-/

namespace SC7

namespace Vmem

variable {arch : Arch} {s s' s₀ s₁ : Vmem} {live live₀ live' : List Block} {old new v n virtAddr k w sz : Nat}
  {R : Finset Nat} {Q : Nat → Prop}

/-! ## The whole call -/

/-- A call that has copied the pages of `A` but for those of `R`: `s₀` is the state at its start. -/
structure Copying (arch : Arch) (old new : Nat) (s₀ : Vmem) (live₀ : List Block) (A R : Finset Nat) (s : Vmem)
    (live : List Block) : Prop where
  grown : Grown arch (fun pid _ => pid = new) s₀ s live₀ live
  safe : s.Safe
  rest : ∀ v, v ∉ A ∨ v ∈ R → s.leaf new v = s₀.leaf new v
  entry : ∀ v ∈ A, v ∉ R → ∃ q,
    s.leaf new v = ⟨s.pmem.pageAddr q, copyFlags arch (s₀.leaf old v) ||| PTE_V⟩ ∧ LivePage live q ∧
    ¬LivePage live₀ q ∧ ∀ o < PGSIZE, s.pmem.mem (s.pmem.pageAddr q + o) = s₀.pmem.mem ((s₀.leaf old v).pa + o)
  balance : s₀.pmem.freeCount + needOf arch new R s = s.pmem.freeCount + needOf arch new A s₀

namespace Copying

variable {A : Finset Nat} {virtAddr sz : Nat}

theorem start (h : s.Ok arch live) (hsafe : s.Safe) : Copying arch old new s live A A s live where
  grown := Grown.refl h
  safe := hsafe
  rest := fun _ _ => rfl
  entry := fun _ hv hnot => absurd hv hnot
  balance := rfl

/-- One more page was copied. -/
theorem copied (h₀ : s₀.Ok arch live₀) (hne : old ≠ new) (hc : Copying arch old new s₀ live₀ A R s live) (hv : v ∈ R)
    (hvA : v ∈ A) (hsafe : s'.Safe) (hmapped : (s₀.leaf old v).valid = true)
    (hcopied : Copied arch old new v s s' live live')
    (hbal : s.pmem.freeCount + needOf arch new (R.erase v) s' = s'.pmem.freeCount + needOf arch new R s) :
    Copying arch old new s₀ live₀ A (R.erase v) s' live' where
  grown := hc.grown.trans (hcopied.grown.mono fun _ _ h => h.1)
  safe := hsafe
  rest := by
    intro w hw
    have hwv : w ≠ v := by
      rintro rfl
      rcases hw with hw | hw
      · exact hw hvA
      · exact (Finset.mem_erase.mp hw).1 rfl
    rw [hcopied.grown.leaf new w fun h => hwv h.2]
    exact hc.rest w (hw.imp_right Finset.mem_of_mem_erase)
  entry := by
    have hold : s.leaf old v = s₀.leaf old v := hc.grown.leaf old v hne
    intro w hw hnot
    by_cases hwv : w = v
    · subst hwv
      obtain ⟨q, hleaf, hlive, hnew, hbytes⟩ := hcopied.entry
      rw [hold] at hleaf hbytes
      refine ⟨q, hleaf, hlive, fun h => hnew (h.mono hc.grown.sub), fun o ho => ?_⟩
      obtain ⟨p, hp, hplive⟩ := h₀.held (.leaf old w) _ ⟨hmapped, rfl⟩
      rw [hbytes o ho, hp]
      exact hc.grown.mem p hplive o ho
    · obtain ⟨q, hleaf, hlive, hnew, hbytes⟩ := hc.entry w hw fun h => hnot (Finset.mem_erase.mpr ⟨hwv, h⟩)
      refine ⟨q, ?_, hlive.mono hcopied.grown.sub, hnew, fun o ho => ?_⟩
      · rw [hcopied.grown.leaf new w fun h => hwv h.2, hleaf, hcopied.grown.same.pageAddr]
      · rw [hcopied.grown.same.pageAddr, hcopied.grown.mem q hlive o ho]
        exact hbytes o ho
  balance := by
    have h := hc.balance
    omega

/-- The parent's entries do not change. -/
theorem old_leaf (hne : old ≠ new) (hc : Copying arch old new s₀ live₀ A R s live) (v : Nat) :
    s.leaf old v = s₀.leaf old v := hc.grown.leaf old v hne

/-- The round for page `v`: it is copied or skipped, or there is not enough memory. -/
theorem visit (h₀ : s₀.Ok arch live₀) (hne : old ≠ new) (hc : Copying arch old new s₀ live₀ A R s live)
    (hva : v * PGSIZE < MAXVA arch) (hR : v ∈ R ↔ (s₀.leaf old v).valid = true) (hRA : R ⊆ A)
    (hvac : ∀ v ∈ A, (s₀.leaf new v).valid = false)
    (hnarrow : v ∈ R → PTE_FLAGS arch (s₀.leaf old v) < 2 ^ 32) :
    (∃ s' live', copyPage arch old new (v * PGSIZE) s = some (true, s') ∧
        Copying arch old new s₀ live₀ A (R.erase v) s' live') ∨
      (∀ s', copyPage arch old new (v * PGSIZE) s ≠ some (true, s')) ∧
        s₀.pmem.freeCount < needOf arch new A s₀ := by
  have hold := hc.old_leaf hne v
  by_cases hv : v ∈ R
  · have hmapped := hR.mp hv
    have hfree : (s.leaf new v).valid = false := by
      rw [hc.rest v (.inr hv)]
      exact hvac v (hRA hv)
    have hnarrow' := hnarrow hv
    rw [← hold] at hmapped hnarrow'
    rcases copyPage_step hc.grown.ok hc.safe hva hv hmapped hfree hnarrow' with
      ⟨s', live', hcall, hsafe, hcopied, hbal⟩ | ⟨hnot, hlt⟩
    · rw [hold] at hmapped
      exact .inl ⟨s', live', hcall, hc.copied h₀ hne hv (hRA hv) hsafe hmapped hcopied hbal⟩
    · refine .inr ⟨hnot, ?_⟩
      have h := hc.balance
      omega
  · have hnot : (s.leaf old (v * PGSIZE / PGSIZE)).valid = false := by
      rw [Nat.mul_div_cancel _ (by decide), hold]
      simpa using fun h => hv (hR.mpr h)
    rw [Finset.erase_eq_of_notMem hv]
    exact .inl ⟨s, live, copyPage_skip hva hnot, hc⟩

/-- A round that went well, in a call that left the right flags. -/
theorem visit_narrow (hne : old ≠ new) (hc : Copying arch old new s₀ live₀ A R s live)
    (hR : v ∈ R ↔ (s₀.leaf old v).valid = true) (hRA : R ⊆ A) (hvac : ∀ v ∈ A, (s₀.leaf new v).valid = false)
    (hcall : copyPage arch old new (v * PGSIZE) s = some (true, s₁)) (hkeeps : Keeps s₁ s') (hv : v ∈ R)
    (hflags : PTE_FLAGS arch (s'.leaf new v) = PTE_FLAGS arch (s₀.leaf old v)) :
    PTE_FLAGS arch (s₀.leaf old v) < 2 ^ 32 := by
  have hold := hc.old_leaf hne v
  have hfree : (s.leaf new v).valid = false := by
    rw [hc.rest v (.inr hv)]
    exact hvac v (hRA hv)
  have hmapped := hR.mp hv
  rw [← hold] at hmapped hflags ⊢
  obtain ⟨pa, hleaf⟩ := copyPage_entry hc.grown.ok hcall hmapped hfree
  have hvalid : (s₁.leaf new v).valid = true := by
    rw [hleaf]
    exact valid_mk _ _
  rw [hkeeps new v hvalid, hleaf] at hflags
  exact narrow_of_flags hflags

end Copying

/-- The entries of another table do not change. -/
theorem copyPage_old (hne : old ≠ new) (hcall : copyPage arch old new (v * PGSIZE) s = some (true, s')) (w : Nat) :
    s'.leaf old w = s.leaf old w := by
  obtain ⟨hva, ⟨-, rfl⟩ | ⟨-, mem, s₁, r, ha, hmap⟩⟩ := copyPage_cases hcall
  · rfl
  · have hpa : mem % PGSIZE = 0 := by
      unfold mappages at hmap
      split at hmap
      · cases hmap
      · omega
    rw [mappages_page hva hpa] at hmap
    obtain ⟨⟨ok, s₃⟩, hw, hmap⟩ := Option.bind_eq_some_iff.mp hmap
    have hwalk : walkAlloc arch new (v * PGSIZE) (s₁.memmove mem (pteAt arch old (v * PGSIZE) s).pa PGSIZE) =
        some (ok, s₃) := by
      rw [walkAlloc, if_neg (by omega), hw]
    have hleaf : s₃.leaf old w = s.leaf old w := by
      rw [walkAlloc_leaf hwalk, memmove_leaf, (alloc_frame ha).1]
    simp only at hmap
    split at hmap
    · cases hmap
    · split at hmap
      · cases hmap
        exact hleaf
      · cases hmap
        rw [setLeaf_leaf, if_neg fun h => hne h.1, hleaf]

theorem round_ge_iff : pgRoundDown virtAddr ≥ 0x100 ↔ PGSIZE ≤ virtAddr := by
  simp only [pgRoundDown, PGSIZE]
  omega

theorem page_lt (hk : k ≤ w) (hw : w * PGSIZE < sz) : k * PGSIZE < sz :=
  lt_of_le_of_lt (Nat.mul_le_mul_right PGSIZE hk) hw

/-- What comes to its end after a page has copied the page. -/
theorem page_of_rest {page : Option (Bool × Vmem)} {rest : Vmem → Option (Bool × Vmem)}
    (hcall : (page.bind fun (ok, s) => if ok = false then some (false, s) else rest s) = some (true, s')) :
    ∃ s₁, page = some (true, s₁) ∧ rest s₁ = some (true, s') := by
  obtain ⟨⟨ok, s₁⟩, hpage, hcall⟩ := Option.bind_eq_some_iff.mp hcall
  simp only at hcall
  split at hcall
  · cases hcall
  · rename_i hok
    obtain rfl : ok = true := by simpa using hok
    exact ⟨s₁, hpage, hcall⟩

theorem copyLoop_keeps (hcall : copyLoop arch old new sz n (k * PGSIZE) s = some (true, s')) : Keeps s s' := by
  induction n generalizing s k with
  | zero =>
    rw [copyLoop] at hcall
    split at hcall
    · cases hcall
    · cases hcall
      exact Keeps.of_leaf rfl
  | succ n ih =>
    rw [copyLoop] at hcall
    split at hcall
    · obtain ⟨s₁, hpage, hcall⟩ := page_of_rest hcall
      have hva := (copyPage_cases hpage).1
      rw [add64_page hva] at hcall
      exact (copyPage_keeps hpage).trans (ih hcall)
    · cases hcall
      exact Keeps.of_leaf rfl

/-- A loop that comes to its end has met no address from `MAXVA` on. -/
theorem copyLoop_below (hcall : copyLoop arch old new sz n (k * PGSIZE) s = some (true, s'))
    (hk : k ≤ w) (hw : w * PGSIZE < sz) : w * PGSIZE < MAXVA arch := by
  induction n generalizing s k with
  | zero =>
    have hlt := page_lt hk hw
    rw [copyLoop, if_pos hlt] at hcall
    cases hcall
  | succ n ih =>
    have hlt := page_lt hk hw
    rw [copyLoop, if_pos hlt] at hcall
    obtain ⟨s₁, hpage, hcall⟩ := page_of_rest hcall
    have hva := (copyPage_cases hpage).1
    rw [add64_page hva] at hcall
    by_cases hkw : k = w
    · rw [← hkw]
      exact hva
    · exact ih hcall (by omega)

/-- No page is left once the loop is past `sz`. -/
theorem rest_empty (hR : ∀ v, v ∈ R ↔ (k ≤ v ∧ v * PGSIZE < sz) ∧ Q v) (hge : sz ≤ k * PGSIZE) : R = ∅ := by
  rw [Finset.eq_empty_iff_forall_notMem]
  intro v hv
  obtain ⟨⟨h1, h2⟩, -⟩ := (hR v).mp hv
  have hlt := page_lt h1 h2
  omega

/-- The pages that are left after page `k`. -/
theorem rest_next (hR : ∀ v, v ∈ R ↔ (k ≤ v ∧ v * PGSIZE < sz) ∧ Q v) (v : Nat) :
    v ∈ R.erase k ↔ (k + 1 ≤ v ∧ v * PGSIZE < sz) ∧ Q v := by
  rw [Finset.mem_erase, hR]
  constructor
  · rintro ⟨hvk, ⟨h1, h2⟩, h3⟩
    exact ⟨⟨by omega, h2⟩, h3⟩
  · rintro ⟨⟨h1, h2⟩, h3⟩
    exact ⟨by omega, ⟨by omega, h2⟩, h3⟩

namespace Copying

variable {A : Finset Nat} {virtAddr sz k : Nat}

/-- The rest of the loop, from page `k` on. -/
theorem loop (h₀ : s₀.Ok arch live₀) (hne : old ≠ new) (hc : Copying arch old new s₀ live₀ A R s live)
    (hbelow : ∀ w, k ≤ w → w * PGSIZE < sz → w * PGSIZE < MAXVA arch)
    (hR : ∀ v, v ∈ R ↔ (k ≤ v ∧ v * PGSIZE < sz) ∧ (s₀.leaf old v).valid = true) (hRA : R ⊆ A)
    (hvac : ∀ v ∈ A, (s₀.leaf new v).valid = false)
    (hnarrow : ∀ v ∈ R, PTE_FLAGS arch (s₀.leaf old v) < 2 ^ 32) (hn : pageCeil sz ≤ k + n) :
    (∃ s' live', copyLoop arch old new sz n (k * PGSIZE) s = some (true, s') ∧
        Copying arch old new s₀ live₀ A ∅ s' live') ∨
      (∀ s', copyLoop arch old new sz n (k * PGSIZE) s ≠ some (true, s')) ∧
        s₀.pmem.freeCount < needOf arch new A s₀ := by
  induction n generalizing s live k R with
  | zero =>
    have hge : sz ≤ k * PGSIZE := by
      have := (lt_pageCeil (k := k) (a := sz)).not
      omega
    rw [copyLoop, if_neg (by omega)]
    rw [rest_empty hR hge] at hc
    exact .inl ⟨s, live, rfl, hc⟩
  | succ n ih =>
    rw [copyLoop]
    by_cases hlt : k * PGSIZE < sz
    · rw [if_pos hlt]
      have hva := hbelow k (le_refl k) hlt
      have hk : k ∈ R ↔ (s₀.leaf old k).valid = true := by
        rw [hR]
        exact ⟨fun h => h.2, fun h => ⟨⟨le_refl k, hlt⟩, h⟩⟩
      rcases hc.visit h₀ hne hva hk hRA hvac (hnarrow k) with ⟨s₁, live₁, hpage, hc₁⟩ | ⟨hnot, hshort⟩
      · rw [hpage, Option.bind_some]
        simp only [Bool.true_eq_false, if_false, add64_page hva]
        exact ih hc₁ (fun w hw => hbelow w (by omega)) (rest_next hR) ((Finset.erase_subset k R).trans hRA)
          (fun v hv => hnarrow v (Finset.mem_of_mem_erase hv)) (by omega)
      · refine .inr ⟨fun s' hcall => ?_, hshort⟩
        obtain ⟨s₁, hpage, hcall⟩ := page_of_rest hcall
        exact hnot s₁ hpage
    · rw [if_neg hlt]
      rw [rest_empty hR (Nat.le_of_not_lt hlt)] at hc
      exact .inl ⟨s, live, rfl, hc⟩

/-- A loop that came to its end and left the right flags had only flags to copy that fit. -/
theorem loop_narrow (h₀ : s₀.Ok arch live₀) (hne : old ≠ new) (hc : Copying arch old new s₀ live₀ A R s live)
    (hR : ∀ v, v ∈ R ↔ (k ≤ v ∧ v * PGSIZE < sz) ∧ (s₀.leaf old v).valid = true) (hRA : R ⊆ A)
    (hvac : ∀ v ∈ A, (s₀.leaf new v).valid = false)
    (hcall : copyLoop arch old new sz n (k * PGSIZE) s = some (true, s'))
    (hflags : ∀ v ∈ R, PTE_FLAGS arch (s'.leaf new v) = PTE_FLAGS arch (s₀.leaf old v)) :
    ∀ v ∈ R, PTE_FLAGS arch (s₀.leaf old v) < 2 ^ 32 := by
  induction n generalizing s live k R with
  | zero =>
    intro v hv
    obtain ⟨⟨h1, h2⟩, -⟩ := (hR v).mp hv
    rw [copyLoop, if_pos (page_lt h1 h2)] at hcall
    cases hcall
  | succ n ih =>
    intro v hv
    obtain ⟨⟨h1, h2⟩, -⟩ := (hR v).mp hv
    have hlt := page_lt h1 h2
    have hk : k ∈ R ↔ (s₀.leaf old k).valid = true := by
      rw [hR]
      exact ⟨fun h => h.2, fun h => ⟨⟨le_refl k, hlt⟩, h⟩⟩
    rw [copyLoop, if_pos hlt] at hcall
    obtain ⟨s₁, hpage, hcall⟩ := page_of_rest hcall
    have hva := (copyPage_cases hpage).1
    rw [add64_page hva] at hcall
    have hfirst : k ∈ R → PTE_FLAGS arch (s₀.leaf old k) < 2 ^ 32 := fun hkR =>
      hc.visit_narrow hne hk hRA hvac hpage (copyLoop_keeps hcall) hkR (hflags k hkR)
    by_cases hvk : v = k
    · subst hvk
      exact hfirst hv
    · rcases hc.visit h₀ hne hva hk hRA hvac hfirst with ⟨s₂, live₂, hpage', hc₂⟩ | ⟨hnot, -⟩
      · rw [hpage, Option.some_inj, Prod.mk.injEq] at hpage'
        obtain ⟨-, rfl⟩ := hpage'
        exact ih hc₂ (rest_next hR) ((Finset.erase_subset k R).trans hRA) hcall
          (fun w hw => hflags w (Finset.mem_of_mem_erase hw)) v (Finset.mem_erase.mpr ⟨hvk, hv⟩)
      · exact absurd hpage (hnot s₁)

/-- The pages before the loop: that of address 0 is left out of `A` if the program begins above it. -/
theorem head (h₀ : s₀.Ok arch live₀) (hsafe : s₀.Safe) (hne : old ≠ new)
    (hsingle : arch = .riscv → (s₀.leaf old (extraAddr / PGSIZE)).valid = false)
    (hA : PGSIZE ≤ virtAddr → (0 ∈ A ↔ (s₀.leaf old 0).valid = true))
    (hvac : ∀ v ∈ A, (s₀.leaf new v).valid = false)
    (hnarrow : PGSIZE ≤ virtAddr → 0 ∈ A → PTE_FLAGS arch (s₀.leaf old 0) < 2 ^ 32) :
    (∃ s' live', copyHead arch old new virtAddr s₀ = some (true, s') ∧
        Copying arch old new s₀ live₀ A (if PGSIZE ≤ virtAddr then A.erase 0 else A) s' live') ∨
      (∀ s', copyHead arch old new virtAddr s₀ ≠ some (true, s')) ∧ s₀.pmem.freeCount < needOf arch new A s₀ := by
  have hc : Copying arch old new s₀ live₀ A A s₀ live₀ := Copying.start h₀ hsafe
  -- the page above the program is not there
  have hextra : ∀ {R s live}, Copying arch old new s₀ live₀ A R s live →
      copyExtra arch old new s = some (true, s) := by
    intro R s live hc
    unfold copyExtra
    cases arch with
    | riscv =>
      refine copyPage_skip (by decide) ?_
      rw [hc.old_leaf hne]
      exact hsingle rfl
    | loongarch => rfl
  unfold copyHead
  by_cases hlow : PGSIZE ≤ virtAddr
  · rw [if_pos (round_ge_iff.mpr hlow), if_pos hlow]
    have hva : 0 * PGSIZE < MAXVA arch := by cases arch <;> decide
    rcases hc.visit h₀ hne hva (hA hlow) (Finset.Subset.refl A) hvac (hnarrow hlow) with
      ⟨s₁, live₁, hpage, hc₁⟩ | ⟨hnot, hshort⟩
    · rw [Nat.zero_mul] at hpage
      rw [hpage, Option.bind_some]
      simp only [Bool.true_eq_false, if_false]
      exact .inl ⟨s₁, live₁, hextra hc₁, hc₁⟩
    · refine .inr ⟨fun s' hcall => ?_, hshort⟩
      obtain ⟨s₁, hpage, hcall⟩ := page_of_rest hcall
      rw [Nat.zero_mul] at hnot
      exact hnot s₁ hpage
  · rw [if_neg (round_ge_iff.not.mpr hlow), if_neg hlow, Option.bind_some]
    simp only [Bool.true_eq_false, if_false]
    exact .inl ⟨s₀, live₀, hextra hc, hc⟩

/-- The flags of page 0, in a call that left the right ones. -/
theorem head_narrow (h₀ : s₀.Ok arch live₀) (hsafe : s₀.Safe) (hne : old ≠ new)
    (hsingle : arch = .riscv → (s₀.leaf old (extraAddr / PGSIZE)).valid = false)
    (hA : PGSIZE ≤ virtAddr → (0 ∈ A ↔ (s₀.leaf old 0).valid = true))
    (hvac : ∀ v ∈ A, (s₀.leaf new v).valid = false)
    (hcall : copyHead arch old new virtAddr s₀ = some (true, s₁)) (hkeeps : Keeps s₁ s')
    (hflags : 0 ∈ A → PTE_FLAGS arch (s'.leaf new 0) = PTE_FLAGS arch (s₀.leaf old 0))
    (hlow : PGSIZE ≤ virtAddr) (h0 : 0 ∈ A) : PTE_FLAGS arch (s₀.leaf old 0) < 2 ^ 32 := by
  have hc : Copying arch old new s₀ live₀ A A s₀ live₀ := Copying.start h₀ hsafe
  unfold copyHead at hcall
  rw [if_pos (round_ge_iff.mpr hlow)] at hcall
  obtain ⟨s₂, hpage, hcall⟩ := page_of_rest hcall
  have hpage' : copyPage arch old new (0 * PGSIZE) s₀ = some (true, s₂) := by
    rw [Nat.zero_mul]
    exact hpage
  have hextra : s₁ = s₂ := by
    unfold copyExtra at hcall
    cases arch with
    | riscv =>
      obtain ⟨hva, ⟨-, heq⟩ | ⟨hmapped, -⟩⟩ := copyPage_cases hcall
      · exact heq
      · -- the parent's entries did not change in the round of page 0
        have hold : s₂.leaf old (extraAddr / PGSIZE) = s₀.leaf old (extraAddr / PGSIZE) :=
          copyPage_old hne hpage' _
        have hnot : (pteAt .riscv old extraAddr s₂).valid = false := by
          refine pteAt_of_not_valid ?_
          rw [hold]
          exact hsingle rfl
        rw [hnot] at hmapped
        cases hmapped
    | loongarch =>
      cases hcall
      rfl
  rw [hextra] at hkeeps
  exact hc.visit_narrow hne (hA hlow) (Finset.Subset.refl A) hvac hpage' hkeeps h0 (hflags h0)

end Copying

/-- The pages of a call on a table in which the page above the program is not mapped. -/
theorem mem_copyPages (hsingle : arch = .riscv → (s.leaf old (extraAddr / PGSIZE)).valid = false) :
    v ∈ copyPages arch old virtAddr sz s ↔
      ((virtAddr / PGSIZE ≤ v ∧ v * PGSIZE < sz) ∨ (v = 0 ∧ PGSIZE ≤ virtAddr)) ∧ (s.leaf old v).valid = true := by
  unfold copyPages
  rw [Finset.mem_filter, Finset.mem_range]
  constructor
  · rintro ⟨-, hin | hin | ⟨rfl, rfl⟩, hmapped⟩
    · exact ⟨.inl hin, hmapped⟩
    · exact ⟨.inr hin, hmapped⟩
    · rw [hsingle rfl] at hmapped
      cases hmapped
  · rintro ⟨hin, hmapped⟩
    refine ⟨?_, hin.imp_right .inl, hmapped⟩
    rcases hin with hin | hin
    · have := lt_pageCeil.mpr hin.2
      omega
    · omega

/-- The pages that are left for the loop. -/
theorem mem_afterHead (hsingle : arch = .riscv → (s.leaf old (extraAddr / PGSIZE)).valid = false) (v : Nat) :
    v ∈ (if PGSIZE ≤ virtAddr then (copyPages arch old virtAddr sz s).erase 0 else copyPages arch old virtAddr sz s) ↔
      (virtAddr / PGSIZE ≤ v ∧ v * PGSIZE < sz) ∧ (s.leaf old v).valid = true := by
  split
  · rename_i hlow
    have hpos : 0 < virtAddr / PGSIZE := Nat.div_pos hlow (by decide)
    rw [Finset.mem_erase, mem_copyPages hsingle]
    constructor
    · rintro ⟨hv, hin | hin, hmapped⟩
      · exact ⟨hin, hmapped⟩
      · exact absurd hin.1 hv
    · rintro ⟨hin, hmapped⟩
      exact ⟨by omega, .inl hin, hmapped⟩
  · rename_i hlow
    rw [mem_copyPages hsingle]
    exact and_congr_left fun _ => or_iff_left fun h => hlow h.2

/-- The child has copies once no page is left. -/
theorem Copying.copyOf (h₀ : s₀.Ok arch live₀)
    (hsingle : arch = .riscv → (s₀.leaf old (extraAddr / PGSIZE)).valid = false)
    (hnew : ∀ v, InCopy arch virtAddr sz v → (s₀.leaf new v).valid = false)
    (hnarrow : ∀ v, InCopy arch virtAddr sz v → (s₀.leaf old v).valid = true →
      PTE_FLAGS arch (s₀.leaf old v) < 2 ^ 32)
    (hc : Copying arch old new s₀ live₀ (copyPages arch old virtAddr sz s₀) ∅ s live)
    (hin : InCopy arch virtAddr sz v) : CopyOf arch old new s₀ s v := by
  by_cases hmapped : (s₀.leaf old v).valid = true
  · have hv : v ∈ copyPages arch old virtAddr sz s₀ := by
      refine (mem_copyPages hsingle).mpr ⟨?_, hmapped⟩
      rcases hin with hin | hin | ⟨harch, rfl⟩
      · exact .inl hin
      · exact .inr hin
      · rw [hsingle harch] at hmapped
        cases hmapped
    obtain ⟨q, hleaf, hlive, hfresh, hbytes⟩ := hc.entry v hv (Finset.notMem_empty v)
    refine ⟨?_, fun _ => ?_, fun _ o ho => ?_, fun _ x hx => ?_⟩
    · rw [hleaf, hmapped]
      exact valid_mk _ _
    · rw [hleaf]
      exact flags_copied hmapped (hnarrow v hin hmapped)
    · rw [hleaf]
      exact hbytes o ho
    · -- the page was nobody's when the call began
      rw [hleaf] at hx
      have hself : s.Holds (.leaf new v) (s.pmem.pageAddr q) := by
        refine ⟨?_, by rw [hleaf]⟩
        rw [hleaf]
        exact valid_mk _ _
      rcases hc.grown.one x _ _ hx hself with heq | ⟨hx₀, -⟩
      · exact heq
      · rw [hc.grown.same.pageAddr] at hx₀
        exact absurd hx₀ (h₀.unheld_of_not_live hfresh x)
  · have hnot : (s₀.leaf old v).valid = false := by simpa using hmapped
    have hv : v ∉ copyPages arch old virtAddr sz s₀ := fun hv =>
      hmapped ((mem_copyPages hsingle).mp hv).2
    refine ⟨?_, fun h => absurd h hmapped, fun h => absurd h hmapped, fun h => absurd h hmapped⟩
    rw [hc.rest v (.inl hv), hnot]
    exact hnew v hin

/-- The loop stays below `MAXVA`. -/
theorem below_iff : (sz ≤ MAXVA arch ∨ sz ≤ pgRoundDown virtAddr) ↔
      ∀ w, virtAddr / PGSIZE ≤ w → w * PGSIZE < sz → w * PGSIZE < MAXVA arch := by
  obtain ⟨m, hm⟩ : ∃ m, MAXVA arch = m * PGSIZE := by
    cases arch with
    | riscv => exact ⟨2 ^ 26, by decide⟩
    | loongarch => exact ⟨2 ^ 34, by decide⟩
  rw [hm, pgRoundDown]
  constructor
  · rintro (hle | hle) w hk hw
    · omega
    · exact absurd (page_lt hk hw) (Nat.not_lt.mpr hle)
  · intro hall
    by_contra hnot
    obtain ⟨h1, h2⟩ := not_or.mp hnot
    -- the first page that is both in the range and not below the bound
    rcases Nat.le_total m (virtAddr / PGSIZE) with hle | hle
    · have hlt := hall (virtAddr / PGSIZE) (le_refl _) (Nat.lt_of_not_le h2)
      exact absurd hlt (Nat.not_lt.mpr (Nat.mul_le_mul_right PGSIZE hle))
    · exact absurd (hall m hle (Nat.lt_of_not_le h1)) (Nat.lt_irrefl _)

/-- A call that returns has come through both parts. -/
theorem uvmcopy_returns {r : Int} (hcall : uvmcopy arch old new virtAddr sz s = some (r, s')) :
    r = 0 ∧ ∃ s₁, copyHead arch old new virtAddr s = some (true, s₁) ∧
      copyLoop arch old new sz (pageCeil sz) (virtAddr / PGSIZE * PGSIZE) s₁ = some (true, s') := by
  unfold uvmcopy at hcall
  obtain ⟨⟨ok, s₁⟩, hhead, hcall⟩ := Option.bind_eq_some_iff.mp hcall
  simp only at hcall
  split at hcall
  · cases hcall
  · rename_i hok
    obtain rfl : ok = true := by simpa using hok
    obtain ⟨⟨ok, s₂⟩, hloop, hcall⟩ := Option.bind_eq_some_iff.mp hcall
    simp only at hcall
    split at hcall
    · cases hcall
    · rename_i hok
      obtain rfl : ok = true := by simpa using hok
      cases hcall
      exact ⟨rfl, s₁, hhead, hloop⟩

/-- `uvmcopy` copies or undoes exactly when the range ends below `MAXVA`, the flags of the copied pages fit
in an `unsigned int` and there is memory for the copies and their tables; where the page above the program
is mapped, this is not said. -/
theorem uvmcopy_copies {virtAddr sz : Nat} (h : s.Ok arch live) (hsafe : s.Safe) (hne : old ≠ new)
    (hnew : ∀ v, InCopy arch virtAddr sz v → (s.leaf new v).valid = false) :
    (CopyMeets arch old new virtAddr sz s → CopiesOrUndoes arch old new virtAddr sz s) ∧
      (CopiesOrUndoes arch old new virtAddr sz s → CopyMeets arch old new virtAddr sz s ∨
        arch = .riscv ∧ (s.leaf old (extraAddr / PGSIZE)).valid = true) := by
  have hvac : ∀ v ∈ copyPages arch old virtAddr sz s, (s.leaf new v).valid = false := fun v hv =>
    hnew v (Finset.mem_filter.mp hv).2.1
  have hzero : (arch = .riscv → (s.leaf old (extraAddr / PGSIZE)).valid = false) → PGSIZE ≤ virtAddr →
      (0 ∈ copyPages arch old virtAddr sz s ↔ (s.leaf old 0).valid = true) := fun hsingle hlow => by
    rw [mem_copyPages hsingle]
    exact and_iff_right (.inr ⟨rfl, hlow⟩)
  have hsub : (if PGSIZE ≤ virtAddr then (copyPages arch old virtAddr sz s).erase 0
      else copyPages arch old virtAddr sz s) ⊆ copyPages arch old virtAddr sz s := by
    split
    · exact Finset.erase_subset _ _
    · exact Finset.Subset.refl _
  constructor
  · intro hm
    have hnarrow : ∀ v ∈ copyPages arch old virtAddr sz s, PTE_FLAGS arch (s.leaf old v) < 2 ^ 32 := fun v hv =>
      hm.narrow v (Finset.mem_filter.mp hv).2.1 (Finset.mem_filter.mp hv).2.2
    have hmemory := hm.memory
    unfold copyNeed at hmemory
    rcases Copying.head h hsafe hne hm.single (hzero hm.single) hvac (fun _ => hnarrow 0) with
      ⟨s₁, live₁, hhead, hc₁⟩ | ⟨-, hshort⟩
    · rcases hc₁.loop h hne (below_iff.mp hm.below) (mem_afterHead hm.single) hsub hvac
        (fun v hv => hnarrow v (hsub hv)) (Nat.le_add_left _ _) with ⟨s', live', hloop, hc⟩ | ⟨-, hshort⟩
      · refine ⟨0, s', ?_, fun _ v hin => hc.copyOf h hm.single hnew hm.narrow hin, fun hr => absurd rfl hr⟩
        rw [uvmcopy, hhead, Option.bind_some]
        simp only [Bool.true_eq_false, if_false, pgRoundDown, hloop, Option.bind_some]
      · omega
    · omega
  · rintro ⟨r, s', hcall, hcopies, -⟩
    by_cases hstray : arch = .riscv ∧ (s.leaf old (extraAddr / PGSIZE)).valid = true
    · exact .inr hstray
    · have hsingle : arch = .riscv → (s.leaf old (extraAddr / PGSIZE)).valid = false := fun harch => by
        simpa [harch] using hstray
      obtain ⟨hr, s₁, hhead, hloop⟩ := uvmcopy_returns hcall
      have hflags : ∀ v ∈ copyPages arch old virtAddr sz s,
          PTE_FLAGS arch (s'.leaf new v) = PTE_FLAGS arch (s.leaf old v) := fun v hv =>
        (hcopies hr v (Finset.mem_filter.mp hv).2.1).flags (Finset.mem_filter.mp hv).2.2
      have hfirst : PGSIZE ≤ virtAddr → 0 ∈ copyPages arch old virtAddr sz s →
          PTE_FLAGS arch (s.leaf old 0) < 2 ^ 32 := fun hlow h0 =>
        Copying.head_narrow h hsafe hne hsingle (hzero hsingle) hvac hhead (copyLoop_keeps hloop) (hflags 0) hlow h0
      rcases Copying.head h hsafe hne hsingle (hzero hsingle) hvac hfirst with ⟨s₂, live₂, hhead', hc₁⟩ | ⟨hnot, -⟩
      · rw [hhead, Option.some_inj, Prod.mk.injEq] at hhead'
        obtain ⟨-, rfl⟩ := hhead'
        have hrest := hc₁.loop_narrow h hne (mem_afterHead hsingle) hsub hvac hloop fun v hv => hflags v (hsub hv)
        have hbelow : ∀ w, virtAddr / PGSIZE ≤ w → w * PGSIZE < sz → w * PGSIZE < MAXVA arch :=
          fun w => copyLoop_below hloop
        rcases hc₁.loop h hne hbelow (mem_afterHead hsingle) hsub hvac hrest (Nat.le_add_left _ _) with
          ⟨s₃, live₃, -, hc⟩ | ⟨hnot, -⟩
        · refine .inl ⟨below_iff.mpr hbelow, fun v hin hmapped => ?_, hsingle, ?_⟩
          · rcases hin with hin | hin | ⟨harch, rfl⟩
            · exact hrest v ((mem_afterHead hsingle v).mpr ⟨hin, hmapped⟩)
            · rw [hin.1] at hmapped ⊢
              exact hfirst hin.2 ((hzero hsingle hin.2).mpr hmapped)
            · rw [hsingle harch] at hmapped
              cases hmapped
          · have hbal := hc.balance
            have hnone : needOf arch new ∅ s₃ = 0 := rfl
            unfold copyNeed
            omega
        · exact absurd hloop (hnot s')
      · exact absurd hhead (hnot s₁)

/-- Two pages of process 1, with a hole below them and one above, are copied with the last four free
pages: two for the copies and two for tables. -/
theorem uvmcopy_copies_twoPages :
    ∃ s s', uvmcopy .riscv 1 2 0 0x4000 s = some (0, s') ∧ s.pmem.freeCount = 4 ∧
      CopyOf .riscv 1 2 s s' 1 ∧ CopyOf .riscv 1 2 s s' 2 ∧ (s'.leaf 2 3).valid = false := by
  obtain ⟨pmem, s, live, hinit, hcall, hsafe, h, -, -, -, hmaps⟩ := uvmalloc1_twoPages
  have hrun : ((buddyInit 0x80000000 0x80010000 fun _ => 0).bind fun pmem =>
      (uvmalloc1 .riscv 1 0x1000 0x3000 (PTE_W .riscv) (boot pmem)).map fun r =>
        [copyNeed .riscv 1 2 0 0x4000 r.2, r.2.pmem.freeCount]) = some [4, 4] := by
    decide +kernel
  rw [hinit, Option.bind_some, hcall, Option.map_some] at hrun
  simp only [Option.some_inj, List.cons.injEq, and_true] at hrun
  have hvacant : ∀ pid v, ¬(pid = 1 ∧ 1 ≤ v ∧ v < 3) → (s.leaf pid v).valid = false := by
    intro pid v hout
    rw [hmaps, if_neg hout]
    exact valid_zero
  have hmeets : CopyMeets .riscv 1 2 0 0x4000 s := by
    refine ⟨.inl (by decide), fun v _ _ => ?_, fun _ => hvacant _ _ (by decide), by omega⟩
    exact lt_of_le_of_lt Nat.and_le_right (by decide)
  obtain ⟨r, s', hcopy, hcopies, -⟩ :=
    (uvmcopy_copies h hsafe (by decide) fun v _ => hvacant 2 v (by simp)).1 hmeets
  obtain ⟨rfl, -⟩ := uvmcopy_returns hcopy
  have hin : ∀ v, v < 4 → InCopy .riscv 0 0x4000 v := fun v hv =>
    .inl ⟨Nat.zero_le v, by simp only [PGSIZE]; omega⟩
  refine ⟨s, s', hcopy, hrun.2, hcopies rfl 1 (hin 1 (by decide)), hcopies rfl 2 (hin 2 (by decide)), ?_⟩
  rw [(hcopies rfl 3 (hin 3 (by decide))).valid]
  exact hvacant 1 3 (by decide)

/-- On LoongArch a page that may not be executed is copied without that flag. On RISC-V a call does not
return where there is no memory for the copies, and the page that is mapped from its middle on brings an
entry for the next one, which the parent does not map. -/
theorem not_copiesOrUndoes_noExec :
    (∃ s s', uvmcopy .loongarch 1 2 0 0x2000 s = some (0, s') ∧ Bits.has (s.leaf 1 1).flags PTE_NX = true ∧
      Bits.has (s'.leaf 2 1).flags PTE_NX = false ∧ ¬CopiesOrUndoes .loongarch 1 2 0 0x2000 s) ∧
    (∃ s, s.pmem.freeCount = 2 ∧ ¬CopiesOrUndoes .riscv 1 2 0 0x4000 s) ∧
    ∃ s s', uvmcopy .riscv 1 2 0x100000000 0x100002000 s = some (0, s') ∧ (s.leaf 1 0x100001).valid = false ∧
      (s'.leaf 2 0x100001).valid = true ∧ ¬CopiesOrUndoes .riscv 1 2 0x100000000 0x100002000 s := by
  have hdata : ((buddyInit 0x80000000 0x80010000 fun _ => 0).bind fun pmem =>
      ((boot pmem).alloc 1).bind fun a =>
      (mappages .loongarch 1 0x1000 a.1 0x1000 (userPerm .loongarch (PTE_W .loongarch ||| PTE_NX)) a.2).bind fun r =>
      (uvmcopy .loongarch 1 2 0 0x2000 r.2).map fun r' =>
        (r'.1, [(r.2.leaf 1 1).valid, Bits.has (r.2.leaf 1 1).flags PTE_NX, Bits.has (r'.2.leaf 2 1).flags PTE_NX],
          PTE_FLAGS .loongarch (r'.2.leaf 2 1) == PTE_FLAGS .loongarch (r.2.leaf 1 1))) =
      some (0, [true, true, false], false) := by
    decide +kernel
  have hshort : ((buddyInit 0x80000000 0x80010000 fun _ => 0).bind fun pmem =>
      (uvmalloc1 .riscv 1 0x1000 0x4000 (PTE_W .riscv) (boot pmem)).map fun r =>
        (r.2.pmem.freeCount, (uvmcopy .riscv 1 2 0 0x4000 r.2).isSome)) = some (2, false) := by
    decide +kernel
  have hstray : ((buddyInit 0x80000000 0x80010000 fun _ => 0).bind fun pmem =>
      (uvmalloc1 .riscv 1 0x100000000 0x100001000 (PTE_W .riscv) (boot pmem)).bind fun r =>
      (uvmcopy .riscv 1 2 0x100000000 0x100002000 r.2).map fun r' =>
        (r'.1, (r.2.leaf 1 0x100001).valid, (r'.2.leaf 2 0x100001).valid)) = some (0, false, true) := by
    decide +kernel
  refine ⟨?_, ?_, ?_⟩
  · obtain ⟨pmem, -, hrun⟩ := Option.bind_eq_some_iff.mp hdata
    obtain ⟨⟨mem, s₀⟩, -, hrun⟩ := Option.bind_eq_some_iff.mp hrun
    obtain ⟨⟨r, s⟩, -, hrun⟩ := Option.bind_eq_some_iff.mp hrun
    obtain ⟨⟨r', s'⟩, hcopy, hres⟩ := Option.map_eq_some_iff.mp hrun
    simp only [Prod.mk.injEq, List.cons.injEq, and_true] at hres
    obtain ⟨rfl, ⟨hmapped, hbefore, hafter⟩, hflags⟩ := hres
    refine ⟨s, s', hcopy, hbefore, hafter, ?_⟩
    rintro ⟨r, t, hcall, hcopies, -⟩
    rw [hcopy, Option.some_inj, Prod.mk.injEq] at hcall
    obtain ⟨rfl, rfl⟩ := hcall
    have hsame := (hcopies rfl 1 (.inl ⟨by decide, by decide⟩)).flags hmapped
    rw [hsame] at hflags
    simp at hflags
  · obtain ⟨pmem, -, hrun⟩ := Option.bind_eq_some_iff.mp hshort
    obtain ⟨⟨r, s⟩, -, hres⟩ := Option.map_eq_some_iff.mp hrun
    simp only [Prod.mk.injEq] at hres
    refine ⟨s, hres.1, ?_⟩
    rintro ⟨r, t, hcall, -, -⟩
    rw [hcall] at hres
    simp at hres
  · obtain ⟨pmem, -, hrun⟩ := Option.bind_eq_some_iff.mp hstray
    obtain ⟨⟨r, s⟩, -, hrun⟩ := Option.bind_eq_some_iff.mp hrun
    obtain ⟨⟨r', s'⟩, hcopy, hres⟩ := Option.map_eq_some_iff.mp hrun
    simp only [Prod.mk.injEq] at hres
    obtain ⟨rfl, hbefore, hafter⟩ := hres
    refine ⟨s, s', hcopy, hbefore, hafter, ?_⟩
    rintro ⟨r, t, hcall, hcopies, -⟩
    rw [hcopy, Option.some_inj, Prod.mk.injEq] at hcall
    obtain ⟨rfl, rfl⟩ := hcall
    have hvalid := (hcopies rfl 0x100001 (.inl ⟨by decide, by decide⟩)).valid
    rw [hbefore, hafter] at hvalid
    cases hvalid

end Vmem

end SC7
