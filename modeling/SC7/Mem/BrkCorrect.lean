-- SUMMARY: When `sys_brk` does what a caller may expect of it.
import SC7.Mem.BrkGrow
import SC7.Mem.ShmSteps

/-!
# When `brk` is right

An address that no VMA covers is served by the fault handler if it does not lie above `p->sz`: the test is
`addr <= p->sz`, and so the first address behind the break is served too. This alone leaves no call right
whose break at the end lies in no VMA. The other conditions come from the increment, an `int`, from the sign
of the size, looked at after the pages are mapped, and from the pages that are mapped already.
-/

namespace SC7

open Function (update)

variable {arch : Arch} {n k : Nat}

namespace Space

variable {s s' t : Space} {x a m f r : Nat} {env : FileEnv} {pte : Pte} {i e : Int}

/-! ## Faults outside the areas -/

theorem findVma_none (hx : ¬Vma.Covers s.vmas x) : findVma x s.vmas = none := by
  cases h : findVma x s.vmas with
  | none => rfl
  | some v => exact absurd ⟨v, findVma_mem h, findVma_has h⟩ hx

theorem pagefaultHandler_above (hx : ¬Vma.Covers s.vmas x) (hsz : s.sz < x) :
    pagefaultHandler arch env x s = some (some .SIGSEGV, s) := by
  rw [pagefaultHandler, findVma_none hx]
  exact if_neg (Nat.not_le.mpr hsz)

theorem pagefaultHandler_heap (hx : ¬Vma.Covers s.vmas x) (hsz : x ≤ s.sz) :
    pagefaultHandler arch env x s = faultGeneric arch (pgRoundDown x) s := by
  rw [pagefaultHandler, findVma_none hx]
  exact if_pos hsz

/-- The last part of the handler sends no signal. -/
theorem faultGeneric_silent {va : Nat} {sig : Option Sig} (h : faultGeneric arch va s = some (sig, s')) :
    sig = none := by
  unfold faultGeneric at h
  dsimp only at h
  split at h
  · cases h
  split at h
  · cases h
    rfl
  split at h
  · cases h
    rfl
  obtain ⟨⟨r, t⟩, -, hrest⟩ := Option.bind_eq_some_iff.mp h
  dsimp only at hrest
  split at hrest
  · cases hrest
  · cases hrest
    rfl

/-- Nothing above the break can be reached exactly if a VMA covers the break itself. -/
theorem above_iff : (∀ x, s.sz ≤ x → ¬Vma.Covers s.vmas x → ∀ env, Segfaults arch env x s) ↔
    Vma.Covers s.vmas s.sz := by
  constructor
  · intro h
    by_contra hx
    obtain ⟨t, hfault, -⟩ := h s.sz (le_refl _) hx ⟨0, 0, 0, fun _ => 0⟩
    rw [pagefaultHandler_heap hx (le_refl _)] at hfault
    cases faultGeneric_silent hfault
  · intro hcov x hle hx env
    have hlt : s.sz < x := lt_of_le_of_ne hle fun heq => hx (heq ▸ hcov)
    exact ⟨s, pagefaultHandler_above hx hlt, rfl⟩

/-! ## Access below the break -/

theorem and_or_mask {b : Nat} (h : b &&& m = m) : (a ||| b) &&& m = m := by
  apply Nat.eq_of_testBit_eq
  intro i
  have hi : (b.testBit i && m.testBit i) = m.testBit i := by
    rw [← Nat.testBit_and, h]
  rw [Nat.testBit_and, Nat.testBit_or]
  revert hi
  cases b.testBit i <;> cases m.testBit i <;> simp

theorem has_faultPerm (h : Bits.has (faultPerm arch) m = true) : Bits.has (f ||| faultPerm arch) m = true := by
  rw [Bits.has_or, h, Bool.or_true]

/-- A page that the handler has given its own rights can be written, and read unless LoongArch forbids it. -/
theorem permits_faultPerm (h : pte.flags = f ||| faultPerm arch) : permits arch .store pte = true ∧
      (arch = .riscv ∨ Bits.has f PTE_NR = false → permits arch .load pte = true) := by
  have hv : pte.valid = true := by
    have hbit : Bits.has pte.flags PTE_V = true := h ▸ has_faultPerm (by cases arch <;> decide)
    exact hbit
  unfold permits
  rw [hv, h, Bool.true_and, Bool.true_and]
  cases arch with
  | riscv =>
    have hU : Bits.has (f ||| faultPerm .riscv) (PTE_U .riscv) = true := has_faultPerm (by decide)
    have hR : Bits.has (f ||| faultPerm .riscv) (PTE_R .riscv) = true := has_faultPerm (by decide)
    have hW : Bits.has (f ||| faultPerm .riscv) (PTE_W .riscv) = true := has_faultPerm (by decide)
    simp only [hU, hR, hW]
    exact ⟨rfl, fun _ => rfl⟩
  | loongarch =>
    have hU : (f ||| faultPerm .loongarch) &&& PTE_U .loongarch = PTE_U .loongarch := and_or_mask (by decide)
    have hD : Bits.has (f ||| faultPerm .loongarch) (PTE_D .loongarch) = true := has_faultPerm (by decide)
    have hNR : Bits.has (faultPerm .loongarch) PTE_NR = false := by decide
    simp only [hU, hD, Bits.has_or, hNR, beq_self_eq_true, Bool.true_and, Bool.or_false, true_and]
    intro hf
    rw [hf.resolve_left (by decide)]
    rfl

/-- The fresh pages of a growth can be read and written. -/
theorem permits_userPerm (h : pte.flags = Vmem.userPerm arch (PTE_RW arch) ||| PTE_V) :
    permits arch .load pte = true ∧ permits arch .store pte = true := by
  have hpte : permits arch .load ⟨0, pte.flags⟩ = true ∧ permits arch .store ⟨0, pte.flags⟩ = true := by
    rw [h]
    cases arch <;> decide
  exact hpte

theorem pte_setLeaf_self : (s.setLeaf (x / PGSIZE) pte).pte x = pte := by
  unfold Space.pte setLeaf
  exact Function.update_self ..

/-- A fault at an address that no area covers, when there is memory: the page gets the rights of the handler. -/
theorem pagefaultHandler_serves (hx : ¬Vma.Covers s.vmas x) (hsz : x ≤ s.sz) (hmax : x < MAXVA arch)
    (hmem : s.supply 0 ≠ NULL) (hal : s.supply 0 % PGSIZE = 0) :
    ∃ t f, pagefaultHandler arch env x s = some (none, t) ∧ (t.pte x).flags = f ||| faultPerm arch ∧
      ((s.pte x).valid = true → f = (s.pte x).flags) ∧ ((s.pte x).valid = false → f = PTE_V) := by
  have hmem' : ¬s.alloc.1 = NULL := hmem
  have hal' : ¬s.alloc.1 % PGSIZE ≠ 0 := not_not.mpr hal
  have hpte : s.alloc.2.pte (pgRoundDown x) = s.pte x := by
    rw [pte_pgRoundDown]
    rfl
  rw [pagefaultHandler_heap hx hsz, faultGeneric]
  simp only
  rw [if_neg hmem', if_neg hal', hpte]
  by_cases hv : (s.pte x).valid = true
  · rw [if_pos hv]
    refine ⟨_, _, rfl, ?_, fun _ => rfl, fun hno => absurd hv (by rw [hno]; decide)⟩
    rw [pgRoundDown_div, pte_setLeaf_self]
  · rw [if_neg hv]
    have hfree : (s.alloc.2.leaf (x / PGSIZE)).valid = false := Bool.eq_false_of_not_eq_true hv
    have hpage : (x / PGSIZE + 1) * PGSIZE ≤ MAXVA arch := by
      have hpages : MAXVA arch % PGSIZE = 0 := by cases arch <;> decide
      simp only [PGSIZE] at *
      omega
    obtain ⟨leaf', hmap, hfill⟩ : ∃ leaf', s.alloc.2.mappages arch (x / PGSIZE * PGSIZE) (s.supply 0) PGSIZE
        (faultPerm arch) = some (1, { s.alloc.2 with leaf := leaf' }) ∧
        Leaf.Filled (faultPerm arch) (x / PGSIZE) (x / PGSIZE + 1) s.leaf leaf' :=
      mappages_one hpage hal hfree
    rw [show s.alloc.1 = s.supply 0 from rfl, show pgRoundDown x = x / PGSIZE * PGSIZE from rfl, hmap,
      Option.bind_some]
    refine ⟨_, PTE_V, rfl, ?_, fun h => absurd h hv, fun _ => rfl⟩
    rw [pte, Nat.or_comm]
    exact hfill.inside _ (le_refl _) (Nat.lt_succ_self _)

/-- Without memory the handler panics. -/
theorem pagefaultHandler_noMemory (hx : ¬Vma.Covers s.vmas x) (hsz : x ≤ s.sz) (hmem : s.supply 0 = NULL) :
    pagefaultHandler arch env x s = none := by
  rw [pagefaultHandler_heap hx hsz, faultGeneric]
  exact if_pos hmem

/-- The processor repeats a load or a store that the handler has served. LoongArch does not hand a load from
a mapped page to it. -/
theorem usertrapFault_resumes {access : Access} (hfault : pagefaultHandler arch env x s = some (none, t))
    (hfetch : access ≠ .fetch) (hload : arch = .loongarch → access = .load → (s.pte x).valid = false) :
    usertrapFault arch env access x s = some (.resumed, t) := by
  unfold usertrapFault
  rw [hfault]
  cases arch with
  | riscv =>
    cases access with
    | fetch => exact absurd rfl hfetch
    | load => rfl
    | store => rfl
  | loongarch =>
    cases access with
    | fetch => exact absurd rfl hfetch
    | load =>
      have hv : ¬(s.pte x).valid = true := by
        rw [hload rfl rfl]
        decide
      exact if_neg hv
    | store => rfl

/-- A load and a store succeed at an address below the break that no area covers exactly if the page serves
them. -/
theorem canAccess_iff (hx : ¬Vma.Covers s.vmas x) (hsz : x ≤ s.sz) (hmax : x < MAXVA arch)
    (hal : s.supply 0 % PGSIZE = 0) :
    (∀ env, CanAccess arch env .load x s ∧ CanAccess arch env .store x s) ↔ s.Serves arch 0 (s.pte x) := by
  constructor
  · intro h
    obtain ⟨hload, hstore⟩ := h ⟨0, 0, 0, fun _ => 0⟩
    by_cases hboth : permits arch .load (s.pte x) = true ∧ permits arch .store (s.pte x) = true
    · exact .inl hboth
    · right
      constructor
      · -- one of the two takes a fault, and the fault takes memory
        intro hnone
        have hpanic : ∀ access : Access, access ≠ .fetch → ∀ r, usertrapFault arch ⟨0, 0, 0, fun _ => 0⟩ access x s ≠
            some (.resumed, r) := by
          intro access hfetch r hr
          unfold usertrapFault at hr
          rw [pagefaultHandler_noMemory hx hsz hnone] at hr
          revert hr hfetch
          cases arch <;> cases access <;> simp
        have hloads := hload.resolve_right fun ⟨r, hr, _⟩ => hpanic .load (by decide) r hr
        have hstores := hstore.resolve_right fun ⟨r, hr, _⟩ => hpanic .store (by decide) r hr
        exact hboth ⟨hloads, hstores⟩
      · rintro rfl hv
        refine hload.resolve_right ?_
        rintro ⟨t, ht, -⟩
        rw [usertrapFault] at ht
        simp only at ht
        rw [if_pos hv] at ht
        cases ht
  · rintro (⟨hload, hstore⟩ | ⟨hmem, hload⟩) env
    · exact ⟨.inl hload, .inl hstore⟩
    · obtain ⟨t, f, hfault, hflags, hf, hf'⟩ : ∃ t f, pagefaultHandler arch env x s = some (none, t) ∧
          (t.pte x).flags = f ||| faultPerm arch ∧ ((s.pte x).valid = true → f = (s.pte x).flags) ∧
          ((s.pte x).valid = false → f = PTE_V) := pagefaultHandler_serves hx hsz hmax hmem hal
      obtain ⟨hstores, hloads⟩ := permits_faultPerm hflags
      have hstore : usertrapFault arch env .store x s = some (.resumed, t) :=
        usertrapFault_resumes hfault (by decide) (fun _ h => by cases h)
      refine ⟨?_, .inr ⟨t, hstore, hstores⟩⟩
      by_cases hv : arch = .loongarch ∧ (s.pte x).valid = true
      · exact .inl (hload hv.1 hv.2)
      · right
        have hfree : arch = .loongarch → Access.load = .load → (s.pte x).valid = false := fun harch _ =>
          Bool.eq_false_of_not_eq_true fun h => hv ⟨harch, h⟩
        refine ⟨t, usertrapFault_resumes hfault (by decide) hfree, hloads ?_⟩
        cases arch with
        | riscv => exact .inl rfl
        | loongarch =>
          rw [hf' (hfree rfl rfl)]
          exact .inr (by decide)

/-! ## The increment -/

section Increment

variable (hsz : s.sz < 2 ^ 64)

include hsz

/-- The increment is the true difference exactly if that is an `int`. -/
theorem exact_iff : toInt32 (sub64 n s.sz) = (n : Int) - s.sz ↔ BrkFits n s := by
  unfold toInt32 sub64 BrkFits Int.bmod
  dsimp only
  split <;> omega

theorem toU64_increment : toU64 ((n : Int) - s.sz) = sub64 n s.sz := by
  unfold toU64 sub64
  omega

theorem add64_increment (hn : n < 2 ^ 64) : add64 s.sz (sub64 n s.sz) = n := by
  unfold add64 sub64
  omega

theorem increment_stays : toInt32 (sub64 s.sz s.sz) = 0 := by
  rw [sub64, Nat.add_sub_cancel' hsz.le]
  rfl

end Increment

/-- A size is seen as it is by the test of its sign exactly if it is an `int`. -/
theorem toInt32_eq_iff : toInt32 m = m ↔ m < 2 ^ 31 := by
  constructor
  · intro h
    have hlt : toInt32 m < 2 ^ 31 := by
      unfold toInt32 Int.bmod
      dsimp only
      split <;> omega
    omega
  · exact toInt32_of_lt

theorem toInt32_einval : toInt32 (toU64 (-EINVAL)) < 0 := by decide +kernel

/-! ## `growproc` -/

theorem growSize_stays : growSize arch 0 s = some (.ok s.sz, s) := rfl

section GrowSize

variable (hsz : s.sz < 2 ^ 64) (hn : n < 2 ^ 64)

include hsz hn

theorem growSize_shrink (hlt : n < s.sz) :
    growSize arch ((n : Int) - s.sz) s = (uvmdealloc arch s.sz n s).map fun p => (.ok p.1, p.2) := by
  have hneg : ¬(n : Int) - s.sz > 0 := by omega
  have hneg' : (n : Int) - s.sz < 0 := by omega
  rw [growSize, if_neg hneg, if_pos hneg', toU64_increment hsz, add64_increment hsz hn]

theorem growSize_tooHigh (hlt : s.sz < n) (hmax : MAXVA arch - PGSIZE ≤ n) :
    growSize arch ((n : Int) - s.sz) s = some (.error (-1), s) := by
  have hpos : (n : Int) - s.sz > 0 := by omega
  rw [growSize, if_pos hpos, toU64_increment hsz, add64_increment hsz hn, if_pos hmax]

theorem growSize_grow (hlt : s.sz < n) (hmax : n < MAXVA arch - PGSIZE) :
    ∃ e < 0, growSize arch ((n : Int) - s.sz) s = (uvmalloc arch s.sz (s.growEnd n) (PTE_RW arch) s).map fun p =>
      (if p.1 = 0 then .error e else .ok p.1, p.2) := by
  have hpos : (n : Int) - s.sz > 0 := by omega
  unfold growSize growEnd
  rw [if_pos hpos, toU64_increment hsz, add64_increment hsz hn, if_neg (Nat.not_le.mpr hmax)]
  by_cases hbig : (n : Int) - s.sz ≥ 0x10000
  · have hbig' : n - s.sz ≥ 0x10000 := by omega
    have hsum : add64 s.sz 0x10000 = s.sz + 0x10000 := by
      unfold add64
      omega
    rw [if_pos hbig, if_pos hbig', hsum]
    exact ⟨-1, by decide, rfl⟩
  · have hbig' : ¬n - s.sz ≥ 0x10000 := by omega
    rw [if_neg hbig, if_neg hbig']
    exact ⟨-ENOMEM, by decide, rfl⟩

end GrowSize

theorem growproc_error (h : growSize arch i s = some (.error e, t)) : growproc arch i s = some (e, t) := by
  rw [growproc, h, Option.map_some]

theorem growproc_ok (h : growSize arch i s = some (.ok r, t)) : growproc arch i s =
    some (if toInt32 r < 0 then (-EINVAL, t) else (0, { t with sz := add64 t.sz (toU64 i) })) := by
  rw [growproc, h, Option.map_some]

/-! ## `sys_brk` -/

theorem sysBrk_eq (hpos : n ≠ 0) : sysBrk arch n s =
    (growproc arch (toInt32 (sub64 n s.sz)) s).map fun p => (if p.1 < 0 then FAILED else n, p.2) := by
  rw [sysBrk, if_neg hpos]

/-- How `sys_brk` reads an error, and a success. -/
theorem brk_result {c : Prop} [Decidable c] (he : e < 0) {u : Space} :
    ((if (if c then (e, t) else (0, u)).1 < 0 then FAILED else n), (if c then (e, t) else (0, u)).2) =
      if c then (FAILED, t) else (n, u) := by
  by_cases hc : c
  · simp only [hc, if_true, he]
  · simp only [hc, if_false, lt_irrefl]

section SysBrk

variable (hsz : s.sz < 2 ^ 64)

include hsz

theorem sysBrk_error {e : Int} (hpos : n ≠ 0) (hfits : BrkFits n s) (he : e < 0)
    (h : growSize arch ((n : Int) - s.sz) s = some (.error e, t)) : sysBrk arch n s = some (FAILED, t) := by
  have hret : (if e < 0 then FAILED else n) = FAILED := if_pos he
  rw [sysBrk_eq hpos, (exact_iff hsz).mpr hfits, growproc_error h, Option.map_some, hret]

theorem sysBrk_ok {r : Nat} (hpos : n ≠ 0) (hfits : BrkFits n s)
    (h : growSize arch ((n : Int) - s.sz) s = some (.ok r, t)) : sysBrk arch n s =
      some (if toInt32 r < 0 then (FAILED, t) else (n, { t with sz := add64 t.sz (sub64 n s.sz) })) := by
  have herr : (-EINVAL : Int) < 0 := by decide
  rw [sysBrk_eq hpos, (exact_iff hsz).mpr hfits, growproc_ok h, toU64_increment hsz, Option.map_some]
  exact congrArg some (brk_result herr)

/-- The break is asked for, or set to what it is. -/
theorem sysBrk_stays (hstays : n = 0 ∨ n = s.sz) : ∃ ret, sysBrk arch n s = some (ret, s) := by
  by_cases hzero : n = 0
  · rw [sysBrk, if_pos hzero]
    exact ⟨s.sz, rfl⟩
  · have hsame : n = s.sz := hstays.resolve_left hzero
    have hsz' : add64 s.sz (toU64 0) = s.sz := Nat.mod_eq_of_lt hsz
    have hgrow : ∃ r, growproc arch 0 s = some (r, s) := by
      rw [growproc_ok growSize_stays, hsz']
      split
      · exact ⟨_, rfl⟩
      · exact ⟨_, rfl⟩
    obtain ⟨r, hgrow⟩ := hgrow
    rw [sysBrk_eq hzero, hsame, increment_stays hsz, hgrow]
    exact ⟨_, rfl⟩

end SysBrk

/-! ## The ranges -/

theorem growEnd_bounds (hlt : s.sz < n) : s.sz < s.growEnd n ∧ s.growEnd n ≤ n := by
  unfold growEnd
  split <;> omega

theorem growLast_le (hlt : s.sz < n) (hmax : n < MAXVA arch - PGSIZE) : s.growLast n * PGSIZE ≤ MAXVA arch := by
  have hend := (growEnd_bounds hlt).2
  unfold growLast Vmem.pageCeil
  simp only [PGSIZE] at *
  omega

/-- No area between the old break and the new one. -/
theorem clear_of_not_between {lo hi : Nat} (h : ¬s.AreaBetween n) (hlo : min s.sz n ≤ lo) (hhi : hi ≤ max s.sz n) :
    s.Clear lo hi := fun v hv hmeet => h ⟨v, hv, hlo.trans_lt hmeet.1, hmeet.2.trans_le hhi⟩

/-- An area that covers an address of the range. -/
theorem between_of_covers (h : Vma.Covers s.vmas a) (hlo : min s.sz n ≤ a) (hhi : a < max s.sz n) :
    s.AreaBetween n := by
  obtain ⟨v, hv, haddr, hend⟩ := h
  exact ⟨v, hv, hlo.trans_lt hend, haddr.trans_lt hhi⟩

theorem uvmdealloc_size {oldsz newsz : Nat} (hlt : newsz < oldsz)
    (h : uvmdealloc arch oldsz newsz s = some (r, s')) : r = newsz := by
  rw [uvmdealloc, if_neg (Nat.not_le.mpr hlt)] at h
  split at h
  · obtain ⟨t, -, hrest⟩ := Option.bind_eq_some_iff.mp h
    obtain ⟨_, -, heq⟩ := Option.map_eq_some_iff.mp hrest
    cases heq
    rfl
  · cases h
    rfl

/-- The state after a growth that succeeded. -/
def afterGrowth (s : Space) (n : Nat) (leaf : Nat → Pte) : Space :=
  { s.grown leaf (s.answers s.growFirst (s.growLast n)) with sz := n }

section Growth

variable {leaf' : Nat → Pte} (hmax : n < MAXVA arch - PGSIZE) (hclear : ¬s.AreaBetween n)
  (hsupply : ∀ j, s.supply j % PGSIZE = 0)
  (hfill : Leaf.Filled (Vmem.userPerm arch (PTE_RW arch)) s.growFirst (s.growLast n) s.leaf leaf')

include hmax hclear hsupply hfill

/-- What was added can be read and written exactly if the pages outside the part that is mapped at once
serve a load and a store. -/
theorem added_iff : (∀ x, s.sz ≤ x → x < n → ∀ env, CanAccess arch env .load x (s.afterGrowth n leaf') ∧
      CanAccess arch env .store x (s.afterGrowth n leaf')) ↔
    ∀ x, s.sz ≤ x → x < n → ¬(s.growFirst ≤ x / PGSIZE ∧ x / PGSIZE < s.growLast n) →
      s.Serves arch (s.answers s.growFirst (s.growLast n)) (s.pte x) := by
  have hserves : ∀ x, s.sz ≤ x → x < n → ((∀ env, CanAccess arch env .load x (s.afterGrowth n leaf') ∧
      CanAccess arch env .store x (s.afterGrowth n leaf')) ↔
        (s.afterGrowth n leaf').Serves arch 0 ((s.afterGrowth n leaf').pte x)) := by
    intro x h1 h2
    have hx : ¬Vma.Covers (s.afterGrowth n leaf').vmas x := fun h =>
      hclear (between_of_covers h ((Nat.min_le_left ..).trans h1) (lt_max_of_lt_right h2))
    have hbelow : x < MAXVA arch := by omega
    exact canAccess_iff hx h2.le hbelow (hsupply _)
  have hcount : ∀ pte, (s.afterGrowth n leaf').Serves arch 0 pte ↔
      s.Serves arch (s.answers s.growFirst (s.growLast n)) pte := fun pte => by
    have hfirst : (s.afterGrowth n leaf').supply 0 = s.supply (s.answers s.growFirst (s.growLast n)) :=
      congrArg s.supply (Nat.zero_add _)
    unfold Serves
    rw [hfirst]
  constructor
  · intro h x h1 h2 hout
    have hpte : (s.afterGrowth n leaf').pte x = s.pte x := hfill.outside _ hout
    rw [← hcount, ← hpte]
    exact (hserves x h1 h2).mp (h x h1 h2)
  · intro h x h1 h2
    apply (hserves x h1 h2).mpr
    by_cases hin : s.growFirst ≤ x / PGSIZE ∧ x / PGSIZE < s.growLast n
    · exact .inl (permits_userPerm (hfill.inside _ hin.1 hin.2))
    · have hpte : (s.afterGrowth n leaf').pte x = s.pte x := hfill.outside _ hin
      rw [hcount, hpte]
      exact h x h1 h2 hin

end Growth

/-! ## The calls that are right -/

theorem ne_failed (hlt : n < m) (hm : m < 2 ^ 64) : n ≠ FAILED := by
  rintro rfl
  exact absurd hlt (Nat.not_lt.mpr (Nat.le_sub_one_of_lt hm))

/-- A failed call that changes no page. -/
theorem brkDone_failed (hsz : s.sz < 2 ^ 64) (hfits : BrkFits n s)
    (hsize : growSize arch ((n : Int) - s.sz) s = some (.error e, s')) (hb : SameBounds s s')
    (hleaf : s'.leaf = s.leaf) (harea : Vma.Covers s.vmas s.sz) : BrkDone arch n s FAILED s' where
  exact _ := (exact_iff hsz).mpr hfits
  sign _ sz t h := by
    rw [(exact_iff hsz).mpr hfits, hsize] at h
    cases h
  size h := absurd rfl h
  added h := absurd rfl h
  removed h := absurd rfl h
  failed _ := ⟨hb.sz, fun v _ => by rw [hleaf]⟩
  above := by
    apply above_iff.mpr
    rw [hb.vmas, hb.sz]
    exact harea

/-- A call that leaves the break where it is. -/
theorem brkDone_stays {ret : Nat} (hsz : s.sz < 2 ^ 64) (hstays : n = 0 ∨ n = s.sz ∧ s.sz < 2 ^ 31)
    (harea : Vma.Covers s.vmas s.sz) : BrkDone arch n s ret s := by
  have htarget : brkTarget n s = s.sz := by
    unfold brkTarget
    split
    · rfl
    · rename_i hpos
      exact (hstays.resolve_left hpos).1
  constructor
  case exact =>
      intro hpos
      rw [(hstays.resolve_left hpos).1, increment_stays hsz, Int.sub_self]
  case sign =>
      intro hpos sz t h
      rw [(hstays.resolve_left hpos).1, increment_stays hsz, growSize_stays] at h
      cases h
      exact toInt32_of_lt (hstays.resolve_left hpos).2
  case size => exact fun _ => htarget.symm
  case added =>
      intro _ x h1 h2
      rw [htarget] at h2
      exact absurd h2 (Nat.not_lt.mpr h1)
  case removed =>
      intro _ x h1 h2
      rw [htarget] at h1
      exact absurd h2 (Nat.not_lt.mpr h1)
  case failed => exact fun _ => ⟨rfl, fun _ _ => rfl⟩
  case above => exact above_iff.mpr harea

section Correct

variable (hsz : s.sz < 2 ^ 64) (hn : n < 2 ^ 64)

include hsz hn

/-- What a growth that fills its range makes of the size, and what the call returns. -/
theorem growSize_fills (hsupply : ∀ j, s.supply j % PGSIZE = 0) (hlt : s.sz < n) (hmax : n < MAXVA arch - PGSIZE)
    (hfills : s.Fillable s.growFirst (s.growLast n)) :
    ∃ leaf', Leaf.Filled (Vmem.userPerm arch (PTE_RW arch)) s.growFirst (s.growLast n) s.leaf leaf' ∧
      growSize arch ((n : Int) - s.sz) s =
        some (.ok (s.growEnd n), s.grown leaf' (s.answers s.growFirst (s.growLast n))) := by
  have hend := growEnd_bounds hlt
  obtain ⟨leaf', halloc, hfill⟩ : ∃ leaf', uvmalloc arch s.sz (s.growEnd n) (PTE_RW arch) s =
      some (s.growEnd n, s.grown leaf' (s.answers s.growFirst (s.growLast n))) ∧
      Leaf.Filled (Vmem.userPerm arch (PTE_RW arch)) s.growFirst (s.growLast n) s.leaf leaf' :=
    uvmalloc_fills hend.1.le (growLast_le hlt hmax) hsupply hfills
  obtain ⟨e, -, hsize⟩ := growSize_grow hsz hn hlt hmax
  rw [halloc, Option.map_some, if_neg (Nat.ne_zero_of_lt hend.1)] at hsize
  exact ⟨leaf', hfill, hsize⟩

/-- The state after a growth that filled its range, when the sign is right. -/
theorem sysBrk_fills {leaf' : Nat → Pte} (hfits : BrkFits n s) (hlt : s.sz < n)
    (hsize : growSize arch ((n : Int) - s.sz) s =
      some (.ok (s.growEnd n), s.grown leaf' (s.answers s.growFirst (s.growLast n))))
    (hsign : s.growEnd n < 2 ^ 31) : sysBrk arch n s = some (n, s.afterGrowth n leaf') := by
  have hnew : add64 (s.grown leaf' (s.answers s.growFirst (s.growLast n))).sz (sub64 n s.sz) = n :=
    add64_increment hsz hn
  have hpos : ¬toInt32 (s.growEnd n) < 0 := by
    rw [toInt32_of_lt hsign]
    omega
  rw [sysBrk_ok hsz (Nat.ne_zero_of_lt hlt) hfits hsize, if_neg hpos, hnew]
  rfl

/-- The calls of `BrkMeets` do what they are to do. -/
theorem BrkMeets.correct (hsupply : ∀ j, s.supply j % PGSIZE = 0) (h : BrkMeets arch n s) : BrkCorrect arch n s := by
  cases h with
  | stays hstays harea =>
    obtain ⟨ret, hcall⟩ : ∃ ret, sysBrk arch n s = some (ret, s) := sysBrk_stays hsz (hstays.imp_right And.left)
    exact ⟨ret, s, hcall, brkDone_stays hsz hstays harea⟩
  | tooHigh hfits hlt hmax harea =>
    have hsize := growSize_tooHigh hsz hn hlt hmax
    exact ⟨FAILED, s, sysBrk_error hsz (Nat.ne_zero_of_lt hlt) hfits (by decide) hsize,
      brkDone_failed hsz hfits hsize .refl rfl harea⟩
  | refused hfits hlt hmax hrefuses harea =>
    obtain ⟨s', halloc, hleaf, hb⟩ : ∃ s', uvmalloc arch s.sz (s.growEnd n) (PTE_RW arch) s = some (0, s') ∧
        s'.leaf = s.leaf ∧ SameBounds s s' :=
      uvmalloc_refuses (growEnd_bounds hlt).1.le (growLast_le hlt hmax) hsupply hrefuses
    obtain ⟨e, he, hsize⟩ := growSize_grow hsz hn hlt hmax
    rw [halloc, Option.map_some, if_pos rfl] at hsize
    exact ⟨FAILED, s', sysBrk_error hsz (Nat.ne_zero_of_lt hlt) hfits he hsize,
      brkDone_failed hsz hfits hsize hb hleaf harea⟩
  | grows hfits hlt hmax hclear hfills hsign hserves harea =>
    obtain ⟨leaf', hfill, hsize⟩ := growSize_fills hsz hn hsupply hlt hmax hfills
    have htarget : brkTarget n s = n := if_neg (Nat.ne_zero_of_lt hlt)
    refine ⟨n, s.afterGrowth n leaf', sysBrk_fills hsz hn hfits hlt hsize hsign, ?_⟩
    constructor
    case exact => exact fun _ => (exact_iff hsz).mpr hfits
    case sign =>
        intro _ sz t h
        rw [(exact_iff hsz).mpr hfits, hsize] at h
        cases h
        exact toInt32_of_lt hsign
    case size => exact fun _ => htarget.symm
    case added =>
        intro _
        rw [htarget]
        exact (added_iff hmax hclear hsupply hfill).mpr hserves
    case removed =>
        intro _ x h1 h2
        rw [htarget] at h1
        exact absurd (h1.trans_lt h2) (Nat.not_lt.mpr hlt.le)
    case failed =>
        have hmax' := Leaf.maxva_lt arch
        exact fun h => absurd h (ne_failed hmax (by omega))
    case above => exact above_iff.mpr harea
  | shrinks hfits hlt hpos hpage hsign hvacant harea =>
    have htarget : brkTarget n s = n := if_neg hpos
    have hnneg : ¬toInt32 n < 0 := by
      rw [toInt32_of_lt hsign]
      omega
    have hsize : growSize arch ((n : Int) - s.sz) s = some (.ok n, s) := by
      rw [growSize_shrink hsz hn hlt, uvmdealloc, if_neg (Nat.not_le.mpr hlt), if_neg (Nat.not_lt.mpr hpage),
        Option.map_some]
    have hcall : sysBrk arch n s = some (n, { s with sz := n }) := by
      rw [sysBrk_ok hsz hpos hfits hsize, if_neg hnneg, add64_increment hsz hn]
    refine ⟨n, _, hcall, ?_⟩
    constructor
    case exact => exact fun _ => (exact_iff hsz).mpr hfits
    case sign =>
        intro _ sz t h
        rw [(exact_iff hsz).mpr hfits, hsize] at h
        cases h
        exact toInt32_of_lt hsign
    case size => exact fun _ => htarget.symm
    case added =>
        intro _ x h1 h2
        rw [htarget] at h2
        exact absurd (h1.trans_lt h2) (Nat.not_lt.mpr hlt.le)
    case removed =>
        intro _ x h1 h2
        rw [htarget] at h1
        exact hvacant x h1 h2
    case failed => exact fun h => absurd h (ne_failed hlt hsz)
    case above => exact above_iff.mpr harea

/-! ## No other call is, unless its range meets an area -/

theorem meets_of_grown {ret : Nat} (hsupply : ∀ j, s.supply j % PGSIZE = 0) (hclear : ¬s.AreaBetween n)
    (hlt : s.sz < n) (hcall : sysBrk arch n s = some (ret, s')) (hdone : BrkDone arch n s ret s') :
    BrkMeets arch n s := by
  have hpos : n ≠ 0 := Nat.ne_zero_of_lt hlt
  have hfits : BrkFits n s := (exact_iff hsz).mp (hdone.exact hpos)
  by_cases hmax : n < MAXVA arch - PGSIZE
  · -- a call that leaves the break where it is leaves it outside the areas
    have hmoved : ¬SameBounds s s' := fun hb => by
      have harea := above_iff.mp hdone.above
      rw [hb.vmas, hb.sz] at harea
      exact hclear (between_of_covers harea (Nat.min_le_left ..) (lt_max_of_lt_right hlt))
    have hend := growEnd_bounds hlt
    have hrange : s.Clear s.sz (s.growEnd n) :=
      clear_of_not_between hclear (Nat.min_le_left ..) (hend.2.trans (Nat.le_max_right ..))
    obtain ⟨e, he, hsize⟩ := growSize_grow hsz hn hlt hmax
    cases halloc : uvmalloc arch s.sz (s.growEnd n) (PTE_RW arch) s with
    | none =>
      rw [halloc, Option.map_none] at hsize
      rw [sysBrk_eq hpos, (exact_iff hsz).mpr hfits, growproc, hsize, Option.map_none, Option.map_none] at hcall
      cases hcall
    | some p =>
      obtain ⟨r, t⟩ := p
      obtain ⟨hb, hr⟩ := uvmalloc_cases hend.1.le (growLast_le hlt hmax) hsupply hrange halloc
      rw [halloc, Option.map_some] at hsize
      by_cases hzero : r = 0
      · rw [if_pos hzero] at hsize
        rw [sysBrk_error hsz hpos hfits he hsize] at hcall
        cases hcall
        exact absurd hb hmoved
      · rw [if_neg hzero] at hsize
        have hsign : toInt32 r = r := by
          apply hdone.sign hpos r t
          rw [(exact_iff hsz).mpr hfits]
          exact hsize
        have hfills : s.Fillable s.growFirst (s.growLast n) := by
          rcases hr with hr | hr | hr
          · exact absurd hr hzero
          · have hneg := toInt32_einval
            rw [← hr, hsign] at hneg
            exact absurd hneg (by omega)
          · exact hr
        obtain ⟨leaf', hfill, hsize'⟩ := growSize_fills hsz hn hsupply hlt hmax hfills
        rw [hsize] at hsize'
        cases hsize'
        have hsmall : s.growEnd n < 2 ^ 31 := toInt32_eq_iff.mp hsign
        rw [sysBrk_fills hsz hn hfits hlt hsize hsmall] at hcall
        cases hcall
        have hmax' := Leaf.maxva_lt arch
        have hadded := hdone.added (ne_failed hmax (by omega))
        rw [brkTarget, if_neg hpos] at hadded
        exact .grows hfits hlt hmax hclear hfills hsmall ((added_iff hmax hclear hsupply hfill).mp hadded)
          (above_iff.mp hdone.above)
  · have hsize : growSize arch ((n : Int) - s.sz) s = some (.error (-1), s) :=
      growSize_tooHigh hsz hn hlt (Nat.not_lt.mp hmax)
    rw [sysBrk_error hsz hpos hfits (by decide) hsize] at hcall
    cases hcall
    exact .tooHigh hfits hlt (Nat.not_lt.mp hmax) (above_iff.mp hdone.above)

/-- A shrink with no area in its range leaves the break outside the areas. -/
theorem not_done_of_shrunk {ret : Nat} (hclear : ¬s.AreaBetween n) (hpos : n ≠ 0) (hlt : n < s.sz)
    (hcall : sysBrk arch n s = some (ret, s')) : ¬BrkDone arch n s ret s' := by
  intro hdone
  have hfits : BrkFits n s := (exact_iff hsz).mp (hdone.exact hpos)
  have hrange : s.Clear n s.sz := clear_of_not_between hclear (Nat.min_le_right ..) (Nat.le_max_left ..)
  have hsize : growSize arch ((n : Int) - s.sz) s = (uvmdealloc arch s.sz n s).map fun p => (.ok p.1, p.2) :=
    growSize_shrink hsz hn hlt
  cases hdealloc : uvmdealloc arch s.sz n s with
  | none =>
    rw [hdealloc, Option.map_none] at hsize
    rw [sysBrk_eq hpos, (exact_iff hsz).mpr hfits, growproc, hsize, Option.map_none, Option.map_none] at hcall
    cases hcall
  | some p =>
    obtain ⟨r, t⟩ := p
    rw [hdealloc, Option.map_some] at hsize
    have hr : r = n := uvmdealloc_size hlt hdealloc
    have hb : SameBounds s t := uvmdealloc_bounds hrange hdealloc
    have hsign : toInt32 r = r := by
      apply hdone.sign hpos r t
      rw [(exact_iff hsz).mpr hfits]
      exact hsize
    have hnneg : ¬toInt32 r < 0 := by
      rw [hsign]
      omega
    rw [sysBrk_ok hsz hpos hfits hsize, if_neg hnneg] at hcall
    cases hcall
    have harea : Vma.Covers t.vmas (add64 t.sz (sub64 n s.sz)) := above_iff.mp hdone.above
    rw [hb.vmas, hb.sz, add64_increment hsz hn] at harea
    exact hclear (between_of_covers harea (Nat.min_le_right ..) (lt_max_of_lt_left hlt))

end Correct

/-- When a call of `brk` does what it is to do. The second half leaves out the calls whose range meets an
area. -/
theorem sysBrk_correct (hsz : s.sz < 2 ^ 64) (hn : n < 2 ^ 64) (hsupply : ∀ j, s.supply j % PGSIZE = 0) :
    (BrkMeets arch n s → BrkCorrect arch n s) ∧ (BrkCorrect arch n s → BrkMeets arch n s ∨ s.AreaBetween n) := by
  refine ⟨BrkMeets.correct hsz hn hsupply, ?_⟩
  rintro ⟨ret, s', hcall, hdone⟩
  by_cases hclear : s.AreaBetween n
  · exact .inr hclear
  left
  by_cases hstays : n = 0 ∨ n = s.sz
  · obtain ⟨ret', hsame⟩ : ∃ ret', sysBrk arch n s = some (ret', s) := sysBrk_stays hsz hstays
    rw [hcall] at hsame
    cases hsame
    refine .stays ?_ (above_iff.mp hdone.above)
    by_cases hzero : n = 0
    · exact .inl hzero
    · have heq : n = s.sz := hstays.resolve_left hzero
      refine .inr ⟨heq, toInt32_eq_iff.mp (hdone.sign hzero s.sz s ?_)⟩
      rw [heq, increment_stays hsz, growSize_stays]
  · rw [not_or] at hstays
    rcases Nat.lt_or_gt_of_ne hstays.2 with hlt | hgt
    · exact absurd hdone (not_done_of_shrunk hsz hn hclear hstays.1 hlt hcall)
    · exact meets_of_grown hsz hn hsupply hclear hgt hcall hdone

/-- A heap that ends two pages below an area. -/
def heapBelow : Space := { oneArea with sz := 0xe000 }

/-- The break is set to where the area begins. -/
theorem sysBrk_correct_twoPages : BrkCorrect .riscv 0x10000 heapBelow := by
  have hsupply : ∀ j, heapBelow.supply j % PGSIZE = 0 := fun j => by
    simp only [heapBelow, oneArea, PGSIZE]
    omega
  refine (sysBrk_correct (by decide) (by decide) hsupply).1 (.grows ?_ (by decide) (by decide) ?_ ?_ (by decide) ?_ ?_)
  · constructor <;> decide
  · rintro ⟨v, hv, hmeet⟩
    cases List.mem_singleton.mp hv
    exact absurd hmeet (by decide)
  · exact ⟨fun _ _ _ => Vmem.valid_zero, .inr (.inl (by decide))⟩
  · intro x h1 h2 hout
    refine absurd ?_ hout
    have hfirst : heapBelow.growFirst = 0xe := by decide
    have hlast : heapBelow.growLast 0x10000 = 0x10 := by decide
    have hsz : heapBelow.sz = 0xe000 := rfl
    rw [hfirst, hlast]
    simp only [hsz, PGSIZE] at *
    omega
  · exact ⟨_, List.mem_singleton_self _, by decide, by decide⟩

/-- A heap that no area follows. -/
def plainHeap : Space := { oneArea with vmas := [], sz := 0x10000 }

/-- With one page more, the first address behind the heap can be reached. With 4 GiB and one page more, the
call reports the break that was asked for, and the size grows by the page. -/
theorem not_brkCorrect_plain : ¬BrkCorrect .riscv 0x11000 plainHeap ∧ ¬BrkCorrect .riscv 0x100011000 plainHeap ∧
    ((sysBrk .riscv 0x100011000 plainHeap).map fun p => (p.1, p.2.sz)) = some (0x100011000, 0x11000) := by
  refine ⟨?_, ?_, by decide +kernel⟩
  · rintro ⟨ret, s', hcall, hdone⟩
    have hvmas : (sysBrk .riscv 0x11000 plainHeap).map (fun p => p.2.vmas) = some [] := by decide +kernel
    rw [hcall] at hvmas
    have hnone : s'.vmas = [] := Option.some.inj hvmas
    obtain ⟨v, hv, -⟩ := above_iff.mp hdone.above
    rw [hnone] at hv
    cases hv
  · rintro ⟨ret, s', -, hdone⟩
    exact absurd (hdone.exact (by decide)) (by decide +kernel)

end Space

end SC7
