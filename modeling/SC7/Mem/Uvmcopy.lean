-- SUMMARY: `uvmcopy` (`vmem.c`): the copies of the user pages that `fork` makes, and what it does when it cannot make them.
import SC7.Mem.Growth
import SC7.Mem.Space

/-!
# Copying a page table

`uvmcopy` goes over the pages of the parent and maps a copy of each in the page table of the child. A copy
keeps the flags only as far as an `unsigned int` holds them, and on RISC-V the one page above the program
is mapped from its middle on, so that two entries of the child change. Where there is no memory, the
clean-up takes `vmem_lock` a second time, and a table that cannot be had fails an assertion: no call gives
a failure report.

The memory that a call needs is one page for each copy and one for each table that the child lacks on the
way to them (`copyNeed`), against the free pages of the allocator (`Pmem.freeCount`).
-/

namespace SC7

open Function (update)
open Pmem (SameRegion)

namespace Pmem

variable {s s' : Pmem} {live : List Block} {q : Nat}

instance (s : Pmem) (q : Nat) : Decidable (s.FreePage q) :=
  decidable_of_iff (∃ e ∈ s.freeBlocks.getD [], e.addr ≤ s.pageAddr q ∧ s.pageAddr q < e.limit) (by
    unfold FreePage
    cases s.freeBlocks with
    | none => simp
    | some free => simp [Extent.Contains])

/-- The free pages. -/
def freePages (s : Pmem) : Finset Nat := (Finset.range s.totalPages).filter fun q => s.FreePage q

/-- The number of free pages. -/
def freeCount (s : Pmem) : Nat := s.freePages.card

theorem Wf.mem_freePages (h : s.Wf live) : q ∈ s.freePages ↔ s.Managed q ∧ ¬Vmem.LivePage live q := by
  have hlt : s.Managed q → q < s.totalPages := by
    rintro ⟨b, -, hplaced, hq⟩
    exact hplaced.mem_lt hq
  have hiff := h.freePage_iff (q := q)
  unfold freePages
  rw [Finset.mem_filter, Finset.mem_range, hiff]
  exact ⟨fun h => h.2, fun h => ⟨hlt h.1, h⟩⟩

/-- States with the same live blocks have the same free pages. -/
theorem Wf.freeCount_congr (h : s.Wf live) (h' : s'.Wf live) (hsame : SameRegion s s') :
    s'.freeCount = s.freeCount := by
  unfold freeCount
  congr 1
  ext q
  rw [h'.mem_freePages, h.mem_freePages, managed_congr hsame]

/-- A page that was handed out is no longer free, and the others are. -/
theorem Wf.freeCount_cons (h : s.Wf live) (h' : s'.Wf (⟨q, 0⟩ :: live)) (hsame : SameRegion s s') :
    s.freeCount = s'.freeCount + 1 := by
  have hmem : q ∈ (⟨q, 0⟩ : Block) := Block.page_mem ⟨q, 0⟩
  have hq : q ∈ s.freePages := by
    rw [h.mem_freePages, ← managed_congr hsame]
    exact ⟨h'.managed (List.mem_cons_self ..) hmem, Vmem.wf_not_live h' hmem⟩
  have herase : s'.freePages = s.freePages.erase q := by
    ext p
    rw [Finset.mem_erase, h'.mem_freePages, h.mem_freePages, managed_congr hsame]
    have hone : p ∈ (⟨q, 0⟩ : Block) ↔ p = q := by
      simp only [Block.mem_def, pow_zero]
      omega
    simp only [Vmem.LivePage, List.exists_mem_cons_iff, hone, not_or]
    exact and_left_comm
  unfold freeCount
  rw [herase, Finset.card_erase_add_one hq]

end Pmem

namespace Vmem

/-! ## The routine -/

section Copy

/-- `memmove((void *)dst, (void *)src, len)`. -/
def memmove (dst src len : Nat) (s : Vmem) : Vmem :=
  { s with pmem := { s.pmem with
      mem := fun a => if dst ≤ a ∧ a < dst + len then s.pmem.mem (src + (a - dst)) else s.pmem.mem a } }

variable (arch : Arch) (old new : Nat)

/-- `uint flags = PTE_FLAGS(*pte)`. -/
def copyFlags (pte : Pte) : Nat := PTE_FLAGS arch pte % 2 ^ 32

/-- One round of `uvmcopy`, at the address `a`; `false` if it goes to `err`. -/
def copyPage (a : Nat) (s : Vmem) : Option (Bool × Vmem) :=
  if a ≥ MAXVA arch then none
  else
    let pte := pteAt arch old a s
    if pte.valid = false then some (true, s)
    else
      (s.alloc 1).bind fun (mem, s) =>
        if mem = NULL then some (false, s)
        else
          (mappages arch new a mem PGSIZE (copyFlags arch pte) (s.memmove mem pte.pa PGSIZE)).bind
            fun (r, s) => if r = -1 then (s.free mem 1).map fun s => (false, s) else some (true, s)

/-- The loop over the pages below `sz`. -/
def copyLoop (sz : Nat) : Nat → Nat → Vmem → Option (Bool × Vmem)
  | 0, i, s => if i < sz then none else some (true, s)
  | n + 1, i, s =>
    if i < sz then
      (copyPage arch old new i s).bind fun (ok, s) =>
        if ok = false then some (false, s) else copyLoop sz n (add64 i PGSIZE) s
    else some (true, s)

/-- The address inside the one page above the program that is copied on RISC-V. -/
def extraAddr : Nat := 0x10000036e

/-- The page of `extraAddr`. -/
def copyExtra (s : Vmem) : Option (Bool × Vmem) :=
  match arch with
  | .riscv => copyPage arch old new extraAddr s
  | .loongarch => some (true, s)

/-- The pages that `uvmcopy` looks at before its loop; the first is that of address 0. -/
def copyHead (virtAddr : Nat) (s : Vmem) : Option (Bool × Vmem) :=
  (if pgRoundDown virtAddr ≥ 0x100 then copyPage arch old new 0 s else some (true, s)).bind fun (ok, s) =>
    if ok = false then some (false, s) else copyExtra arch old new s

/-- `uvmcopy(old, new, sz)` in a process with `virt_addr`. The clean-up calls `vmunmap` with the lock
held, and does not return. -/
def uvmcopy (virtAddr sz : Nat) (s : Vmem) : Option (Int × Vmem) :=
  (copyHead arch old new virtAddr s).bind fun (ok, s) =>
    if ok = false then none
    else
      (copyLoop arch old new sz (pageCeil sz) (pgRoundDown virtAddr) s).bind fun (ok, s) =>
        if ok = false then none else some (0, s)

end Copy

/-! ## What it is for -/

/-- The virtual pages that a call is to copy: those of `[virtAddr, sz)`, page 0 below them, and on
RISC-V the page of `extraAddr`. -/
def InCopy (arch : Arch) (virtAddr sz v : Nat) : Prop :=
  (virtAddr / PGSIZE ≤ v ∧ v * PGSIZE < sz) ∨ (v = 0 ∧ PGSIZE ≤ virtAddr) ∨
    (arch = .riscv ∧ v = extraAddr / PGSIZE)

instance (arch : Arch) (virtAddr sz v : Nat) : Decidable (InCopy arch virtAddr sz v) := by
  unfold InCopy
  infer_instance

/-- The child maps page `v` in `s'` as the parent did in `s`: not at all, or with the same flags and
bytes at a physical page that nothing else holds. -/
structure CopyOf (arch : Arch) (old new : Nat) (s s' : Vmem) (v : Nat) : Prop where
  valid : (s'.leaf new v).valid = (s.leaf old v).valid
  flags : (s.leaf old v).valid = true → PTE_FLAGS arch (s'.leaf new v) = PTE_FLAGS arch (s.leaf old v)
  bytes : (s.leaf old v).valid = true → ∀ o < PGSIZE,
    s'.pmem.mem ((s'.leaf new v).pa + o) = s.pmem.mem ((s.leaf old v).pa + o)
  own : (s.leaf old v).valid = true → ∀ x, s'.Holds x (s'.leaf new v).pa → x = .leaf new v

/-- Nothing is left of a failed call but page tables. -/
structure CopyUndone (arch : Arch) (new virtAddr sz : Nat) (s s' : Vmem) : Prop where
  leaf : ∀ v, InCopy arch virtAddr sz v → (s'.leaf new v).valid = false
  allocator : ∃ live, s'.pmem.Wf live
  returned : ∀ q, s.pmem.FreePage q → s'.pmem.FreePage q ∨ s'.IsTable q

/-- The call copies the pages and returns 0, or undoes what it did and returns another value. -/
def CopiesOrUndoes (arch : Arch) (old new virtAddr sz : Nat) (s : Vmem) : Prop :=
  ∃ r s', uvmcopy arch old new virtAddr sz s = some (r, s') ∧
    (r = 0 → ∀ v, InCopy arch virtAddr sz v → CopyOf arch old new s s' v) ∧
    (r ≠ 0 → CopyUndone arch new virtAddr sz s s')

/-! ## What it needs -/

/-- The pages that the parent maps, among those to be copied. -/
def copyPages (arch : Arch) (old virtAddr sz : Nat) (s : Vmem) : Finset Nat :=
  (Finset.range (pageCeil sz + 1)).filter fun v =>
    InCopy arch virtAddr sz v ∧ (s.leaf old v).valid = true

/-- The tables on the way to the pages of `R`, as levels and indices. -/
def tablesTo (arch : Arch) (R : Finset Nat) : Finset (Nat × Nat) :=
  R.biUnion fun v => (Finset.range (PT_LEVEL arch - 1)).image fun l => (l + 1, dirIndex (v * PGSIZE) (l + 1))

/-- Those of them that the child does not have. -/
def missing (arch : Arch) (new : Nat) (R : Finset Nat) (s : Vmem) : Finset (Nat × Nat) :=
  (tablesTo arch R).filter fun t => s.dir new t.1 t.2 = NULL

/-- The number of pages that it takes to copy the pages of `R`. -/
def needOf (arch : Arch) (new : Nat) (R : Finset Nat) (s : Vmem) : Nat := R.card + (missing arch new R s).card

/-- The number of pages that a call takes. -/
def copyNeed (arch : Arch) (old new virtAddr sz : Nat) (s : Vmem) : Nat :=
  needOf arch new (copyPages arch old virtAddr sz s) s

/-- When a call makes its copies. -/
structure CopyMeets (arch : Arch) (old new virtAddr sz : Nat) (s : Vmem) : Prop where
  /-- the range ends below `MAXVA`, or is empty -/
  below : sz ≤ MAXVA arch ∨ sz ≤ pgRoundDown virtAddr
  /-- the flags fit in an `unsigned int` -/
  narrow : ∀ v, InCopy arch virtAddr sz v → (s.leaf old v).valid = true →
    PTE_FLAGS arch (s.leaf old v) < 2 ^ 32
  /-- the parent does not map the one page that is mapped from its middle on -/
  single : arch = .riscv → (s.leaf old (extraAddr / PGSIZE)).valid = false
  /-- there is memory for the copies and for their tables -/
  memory : copyNeed arch old new virtAddr sz s ≤ s.pmem.freeCount

variable {arch : Arch} {s s' s₀ s₁ : Vmem} {live live' live₀ : List Block}
  {old new pid v n q pa perm len dst src a : Nat} {R : Finset Nat} {P : Nat → Nat → Prop} {t : Nat × Nat} {pte : Pte}

/-! ## The tables that are missing -/

theorem mem_tablesTo :
    t ∈ tablesTo arch R ↔ ∃ v ∈ R, ∃ l < PT_LEVEL arch - 1, (l + 1, dirIndex (v * PGSIZE) (l + 1)) = t := by
  simp only [tablesTo, Finset.mem_biUnion, Finset.mem_image, Finset.mem_range]

theorem mem_missing : t ∈ missing arch new R s ↔ t ∈ tablesTo arch R ∧ s.dir new t.1 t.2 = NULL := by
  simp only [missing, Finset.mem_filter]

theorem missing_congr (hdir : s'.dir = s.dir) : missing arch new R s' = missing arch new R s := by
  unfold missing
  rw [hdir]

@[simp] theorem setDir_pmem (s : Vmem) (pid level i page : Nat) :
    (s.setDir pid level i page).pmem = s.pmem := rfl

/-- A table is linked in: it is missing no more. -/
theorem missing_setDir {level i page : Nat} (hne : page ≠ NULL) :
    missing arch new R (s.setDir new level i page) = (missing arch new R s).erase (level, i) := by
  ext t
  rw [Finset.mem_erase, mem_missing, mem_missing, setDir_dir]
  by_cases ht : t = (level, i)
  · subst ht
    simp [hne]
  · have hoff : ¬(new = new ∧ t.1 = level ∧ t.2 = i) := fun h => ht (Prod.ext h.2.1 h.2.2)
    rw [if_neg hoff]
    simp [ht]

/-- A page whose tables are there needs none. -/
theorem missing_erase (htab : ∀ l < PT_LEVEL arch - 1, s.dir new (l + 1) (dirIndex (v * PGSIZE) (l + 1)) ≠ NULL) :
    missing arch new (R.erase v) s = missing arch new R s := by
  ext t
  rw [mem_missing, mem_missing, mem_tablesTo, mem_tablesTo]
  constructor
  · rintro ⟨⟨w, hw, hl⟩, hnull⟩
    exact ⟨⟨w, Finset.mem_of_mem_erase hw, hl⟩, hnull⟩
  · rintro ⟨⟨w, hw, l, hl, rfl⟩, hnull⟩
    refine ⟨⟨w, Finset.mem_erase.mpr ⟨?_, hw⟩, l, hl, rfl⟩, hnull⟩
    rintro rfl
    exact htab l hl hnull

/-! ## Memory for the tables -/

/-- One page is asked for: there is none, or it comes from the free pages. -/
theorem Ok.alloc_count (h : s.Ok arch live) (hsafe : s.Safe) :
    (∃ s', s.alloc 1 = some (NULL, s') ∧ s.pmem.freeCount = 0) ∨
      ∃ q s', s.alloc 1 = some (s'.pmem.pageAddr q, s') ∧ s'.pmem.pageAddr q ≠ NULL ∧ s'.Safe ∧
        Grown arch nowhere s s' live (⟨q, 0⟩ :: live) ∧ ¬LivePage live q ∧ s'.Unheld q ∧
        s.pmem.freeCount = s'.pmem.freeCount + 1 := by
  obtain ⟨ptr, s', ha⟩ : ∃ ptr s', s.alloc 1 = some (ptr, s') := by
    rcases h.wf.pmemAllocPages 1 h.wf.allocSafe_one with ⟨p, hcall, -⟩ | ⟨b, p, hcall, -⟩
    · exact ⟨_, _, by rw [Vmem.alloc, hcall]; rfl⟩
    · exact ⟨_, _, by rw [Vmem.alloc, hcall]; rfl⟩
  have hsafe' := alloc_safe h.wf.allocSafe_one ha hsafe
  rcases h.alloc hsafe' ha with ⟨rfl, -⟩ | ⟨b, rfl, hne, -, hord, hg, hb⟩
  · refine .inl ⟨s', ha, ?_⟩
    unfold Pmem.freeCount
    rw [Finset.card_eq_zero, Finset.eq_empty_iff_forall_notMem]
    intro q hq
    rw [h.wf.mem_freePages] at hq
    -- a free page would have been handed out
    obtain ⟨p, t, ha', hne, -⟩ := h.alloc_one hsafe hq.1 hq.2
    rw [ha, Option.some_inj, Prod.mk.injEq] at ha'
    exact hne ha'.1.symm
  · obtain ⟨hnew, hun⟩ := hb b.page b.page_mem
    have hone := block_of_getOrder_one hord
    have hwf := hg.ok.wf
    rw [hone] at hg hwf
    exact .inr ⟨b.page, s', ha, hne, hsafe', hg, hnew, hun, h.wf.freeCount_cons hwf hg.same⟩

/-- The walk to a page of `R` finds or makes its tables, or runs out of memory before `R` has all of
its own. -/
theorem walkLevels_count (new : Nat) {l : Nat} (h : s.Ok arch live) (hsafe : s.Safe) (hv : v ∈ R)
    (hl : l ≤ PT_LEVEL arch - 1) :
    (∃ s' live', walkLevels new (v * PGSIZE) l s = some (true, s') ∧ s'.Safe ∧
        Grown arch nowhere s s' live live' ∧
        s.pmem.freeCount + (missing arch new R s').card = s'.pmem.freeCount + (missing arch new R s).card) ∨
      (∃ s', walkLevels new (v * PGSIZE) l s = some (false, s')) ∧
        s.pmem.freeCount < (missing arch new R s).card := by
  induction l generalizing s live with
  | zero => exact .inl ⟨s, live, rfl, hsafe, Grown.refl h, rfl⟩
  | succ l ih =>
    rw [walkLevels]
    split
    · exact ih h hsafe (by omega)
    · rename_i hnull
      have hmem : (l + 1, dirIndex (v * PGSIZE) (l + 1)) ∈ missing arch new R s :=
        mem_missing.mpr ⟨mem_tablesTo.mpr ⟨v, hv, l, by omega, rfl⟩, by simpa using hnull⟩
      have hcard := Finset.card_erase_add_one hmem
      rcases h.alloc_count hsafe with ⟨s₁, ha, hcount⟩ | ⟨q, s₁, ha, hne, hsafe₁, hg, hnew, hun, hcount⟩
      · rw [ha, Option.bind_some]
        exact .inr ⟨⟨s₁, rfl⟩, by omega⟩
      · rw [ha, Option.bind_some]
        simp only [if_neg hne]
        have hdir := (alloc_frame ha).2.1
        have hmiss : missing arch new R
            (s₁.setDir new (l + 1) (dirIndex (v * PGSIZE) (l + 1)) (s₁.pmem.pageAddr q)) =
            (missing arch new R s₁).erase (l + 1, dirIndex (v * PGSIZE) (l + 1)) := missing_setDir hne
        rw [missing_congr hdir] at hmiss
        have hset : Grown arch nowhere s
            (s₁.setDir new (l + 1) (dirIndex (v * PGSIZE) (l + 1)) (s₁.pmem.pageAddr q)) live
            (⟨q, 0⟩ :: live) := by
          refine hg.add (hg.ok.setDir (List.mem_cons_self ..) hne) rfl hnew hun (fun _ _ _ => rfl) ?_
            fun _ _ hx => holds_setDir hx
          intro pid' l' i' hne'
          rw [setDir_dir, if_neg]
          rintro ⟨rfl, rfl, rfl⟩
          rw [hdir] at hne'
          exact hnull hne'
        rcases ih hset.ok hsafe₁ (by omega) with ⟨s', live', hw, hsafe', hg', hbal⟩ | ⟨hw, hlt⟩
        · refine .inl ⟨s', live', hw, hsafe', hset.trans hg', ?_⟩
          rw [hmiss] at hbal
          simp only [setDir_pmem] at hbal
          omega
        · refine .inr ⟨hw, ?_⟩
          rw [hmiss] at hlt
          simp only [setDir_pmem] at hlt
          omega

/-! ## One page -/

/-- `mappages` of one page. -/
theorem mappages_page (hva : v * PGSIZE < MAXVA arch) (hpa : pa % PGSIZE = 0) :
    mappages arch pid (v * PGSIZE) pa PGSIZE perm s =
      (walkLevels pid (v * PGSIZE) (PT_LEVEL arch - 1) s).bind fun (ok, s) =>
        if ok = false then none
        else if (s.leaf pid v).valid then some (-EINVAL, s)
        else some (1, s.setLeaf pid v ⟨pa, perm ||| PTE_V⟩) := by
  have hdiv : v * PGSIZE / PGSIZE = v := Nat.mul_div_cancel _ (by decide)
  have hfirst : pgRoundDown (v * PGSIZE) = v * PGSIZE := by rw [pgRoundDown, hdiv]
  have hlast : pgRoundDown (sub64 (add64 (v * PGSIZE) PGSIZE) 1) = v * PGSIZE := by
    have hmax := MAXVA_le arch
    simp only [pgRoundDown, sub64, add64, PGSIZE] at hva ⊢
    omega
  have hcond : ¬(v * PGSIZE ≥ MAXVA arch ∨ pa % PGSIZE ≠ 0) := by omega
  rw [mappages, if_neg hcond, hfirst, hlast, Nat.div_self (by decide), mappagesLoop, walkAlloc,
    if_neg (by omega)]
  simp only [hdiv, if_true]

theorem mappages_aligned {va : Nat} {r : Int}
    (hcall : mappages arch pid va pa len perm s = some (r, s')) : pa % PGSIZE = 0 := by
  unfold mappages at hcall
  split at hcall
  · cases hcall
  · omega

/-- The child has the flags of the parent. -/
theorem flags_copied (hvalid : pte.valid = true) (hnarrow : PTE_FLAGS arch pte < 2 ^ 32) :
    PTE_FLAGS arch ⟨pa, copyFlags arch pte ||| PTE_V⟩ = PTE_FLAGS arch pte := by
  have hmask : PTE_V &&& flagsMask arch = PTE_V := by cases arch <;> decide
  have hset : PTE_FLAGS arch pte ||| PTE_V = PTE_FLAGS arch pte := by
    apply Nat.eq_of_testBit_eq
    intro i
    rw [Nat.testBit_or]
    by_cases hi : i = 0
    · -- an entry that is valid has the bit
      subst hi
      have hbit : pte.flags.testBit 0 = true := by
        simp only [Pte.valid, PTE_V, Nat.and_one_is_mod, bne_iff_ne] at hvalid
        simp only [Nat.testBit_zero, decide_eq_true_eq]
        omega
      have hmask' : (flagsMask arch).testBit 0 = true := by cases arch <;> decide
      rw [PTE_FLAGS, Nat.testBit_and, hbit, hmask']
      rfl
    · have hV : PTE_V.testBit i = false := by
        rw [PTE_V, Nat.testBit_one_eq_true_iff_self_eq_zero.not.mpr hi |> Bool.eq_false_iff.mpr]
      rw [hV, Bool.or_false]
  have hself : PTE_FLAGS arch pte &&& flagsMask arch = PTE_FLAGS arch pte := by
    rw [PTE_FLAGS, Nat.and_assoc, Nat.and_self]
  rw [copyFlags, Nat.mod_eq_of_lt hnarrow, hset]
  exact hself

/-- If it has, they fit in an `unsigned int`. -/
theorem narrow_of_flags (hflags : PTE_FLAGS arch ⟨pa, copyFlags arch pte ||| PTE_V⟩ = PTE_FLAGS arch pte) :
    PTE_FLAGS arch pte < 2 ^ 32 := by
  have hlow : copyFlags arch pte < 2 ^ 32 := Nat.mod_lt _ (by decide)
  have hor : copyFlags arch pte ||| PTE_V < 2 ^ 32 := Nat.or_lt_two_pow hlow (by decide)
  rw [← hflags]
  exact lt_of_le_of_lt Nat.and_le_left hor

/-- Page `v` was copied: the child maps a new page of the same contents, with the flags of an
`unsigned int`. -/
structure Copied (arch : Arch) (old new v : Nat) (s s' : Vmem) (live live' : List Block) : Prop where
  grown : Grown arch (fun pid w => pid = new ∧ w = v) s s' live live'
  entry : ∃ q, s'.leaf new v = ⟨s'.pmem.pageAddr q, copyFlags arch (s.leaf old v) ||| PTE_V⟩ ∧
    LivePage live' q ∧ ¬LivePage live q ∧ ∀ o < PGSIZE,
      s'.pmem.mem (s'.pmem.pageAddr q + o) = s.pmem.mem ((s.leaf old v).pa + o)

/-- The part of memory that a new page is copied to holds no page that was live. -/
theorem Grown.memmove (hg : Grown arch P s₀ s live₀ live) (hnew : ¬LivePage live₀ q) (src : Nat) :
    Grown arch P s₀ (s.memmove (s.pmem.pageAddr q) src PGSIZE) live₀ live where
  ok := ⟨hg.ok.wf.setMem _, hg.ok.held, hg.ok.alone, hg.ok.tables, hg.ok.flags⟩
  leaf := hg.leaf
  dir := hg.dir
  new := hg.new
  one := hg.one
  same := ⟨hg.same.memStart, hg.same.memEnd, hg.same.totalPages⟩
  sub := hg.sub
  mem := by
    intro p hp o ho
    have hne : p ≠ q := by
      rintro rfl
      exact hnew hp
    rw [← hg.mem p hp o ho, ← hg.same.pageAddr]
    refine if_neg ?_
    simp only [Pmem.pageAddr, PGSIZE] at ho ⊢
    omega

@[simp] theorem memmove_leaf (dst src len : Nat) (s : Vmem) : (s.memmove dst src len).leaf = s.leaf := rfl

theorem memmove_read {o : Nat} (s : Vmem) (ho : o < len) :
    (s.memmove dst src len).pmem.mem (dst + o) = s.pmem.mem (src + o) := by
  have hin : dst ≤ dst + o ∧ dst + o < dst + len := by omega
  rw [memmove]
  simp only
  rw [if_pos hin, Nat.add_sub_cancel_left]

theorem memmove_freeCount {live : List Block} (h : s.pmem.Wf live) :
    (s.memmove dst src len).pmem.freeCount = s.pmem.freeCount :=
  h.freeCount_congr (h.setMem _) ⟨rfl, rfl, rfl⟩

/-- A page address is a multiple of the page size. -/
theorem Ok.pageAddr_aligned (h : s.Ok arch live) : s.pmem.pageAddr q % PGSIZE = 0 := by
  have hr := h.wf.region.start_aligned
  simp only [Pmem.pageAddr, PGSIZE] at hr ⊢
  omega

/-- The entry that `walk` finds for a page that is mapped. -/
theorem pteAt_page (h : s.Ok arch live) (hmapped : (s.leaf pid v).valid = true) :
    pteAt arch pid (v * PGSIZE) s = s.leaf pid v := by
  have hdiv : v * PGSIZE / PGSIZE = v := Nat.mul_div_cancel _ (by decide)
  have hread : pteAt arch pid (v * PGSIZE) s = s.leaf pid (v * PGSIZE / PGSIZE) :=
    pteAt_of_valid h (by rw [hdiv]; exact hmapped)
  rwa [hdiv] at hread

/-- A mapped page of the parent is copied to a place that is vacant in the child, or there is not
enough memory for the pages of `R` and their tables. -/
theorem copyPage_step (h : s.Ok arch live) (hsafe : s.Safe) (hva : v * PGSIZE < MAXVA arch) (hv : v ∈ R)
    (hmapped : (s.leaf old v).valid = true) (hvac : (s.leaf new v).valid = false)
    (hnarrow : PTE_FLAGS arch (s.leaf old v) < 2 ^ 32) :
    (∃ s' live', copyPage arch old new (v * PGSIZE) s = some (true, s') ∧ s'.Safe ∧
        Copied arch old new v s s' live live' ∧
        s.pmem.freeCount + needOf arch new (R.erase v) s' = s'.pmem.freeCount + needOf arch new R s) ∨
      (∀ s', copyPage arch old new (v * PGSIZE) s ≠ some (true, s')) ∧
        s.pmem.freeCount < needOf arch new R s := by
  have hpte := pteAt_page h hmapped
  have hRcard := Finset.card_erase_add_one hv
  rw [copyPage, if_neg (by omega)]
  simp only [hpte, hmapped]
  rw [if_neg (by simp)]
  rcases h.alloc_count hsafe with ⟨s₁, ha, hcount⟩ | ⟨q, s₁, ha, hne, hsafe₁, hg, hnew, hun, hcount⟩
  · rw [ha, Option.bind_some]
    refine .inr ⟨fun s' => by simp, ?_⟩
    unfold needOf
    omega
  · rw [ha, Option.bind_some]
    simp only [if_neg hne]
    obtain ⟨hleaf₁, hdir₁, -⟩ := alloc_frame ha
    -- the state after the contents were copied
    obtain ⟨t, ht⟩ : ∃ t, s₁.memmove (s₁.pmem.pageAddr q) (s.leaf old v).pa PGSIZE = t := ⟨_, rfl⟩
    have hmove := hg.memmove hnew (s.leaf old v).pa
    have hbytes : ∀ o < PGSIZE, t.pmem.mem (s₁.pmem.pageAddr q + o) = s.pmem.mem ((s.leaf old v).pa + o) := by
      intro o ho
      obtain ⟨p, hp, hlive⟩ := h.held (.leaf old v) _ ⟨hmapped, rfl⟩
      rw [← ht, memmove_read s₁ ho, hp]
      exact hg.mem p hlive o ho
    have hcount' : t.pmem.freeCount = s₁.pmem.freeCount := by rw [← ht, memmove_freeCount hg.ok.wf]
    have hmiss : missing arch new R t = missing arch new R s := by
      rw [← ht]
      exact missing_congr hdir₁
    have hunt : t.Unheld q := by
      rw [← ht]
      exact hun
    have hsafet : t.Safe := by
      rw [← ht]
      exact hsafe₁
    have hpage : s₁.pmem.pageAddr q = t.pmem.pageAddr q := by
      rw [← ht]
      rfl
    rw [ht] at hmove ⊢
    rw [hpage, mappages_page hva (hmove.ok.pageAddr_aligned)]
    rcases walkLevels_count new hmove.ok hsafet hv (le_refl (PT_LEVEL arch - 1)) with
      ⟨s₂, live₂, hw, hsafe₂, hgw, hbal⟩ | ⟨⟨s₂, hw⟩, hlt⟩
    · rw [hw, Option.bind_some]
      obtain ⟨live₃, hgw', htab⟩ := walkLevels_spec hmove.ok hsafe₂ hw
      have hnot : (s₂.leaf new v).valid = false := by
        rw [hgw.leaf_eq, ← ht, memmove_leaf, hleaf₁]
        exact hvac
      have hflags : ∀ pa, PTE_FLAGS arch ⟨pa, copyFlags arch (s.leaf old v) ||| PTE_V⟩ ≠ PTE_V := by
        intro pa
        rw [flags_copied hmapped hnarrow]
        exact h.flags old v hmapped
      have hlive : LivePage (⟨q, 0⟩ :: live) q := ⟨_, List.mem_cons_self .., Block.page_mem ⟨q, 0⟩⟩
      have htab' : ∀ l < PT_LEVEL arch - 1, s₂.dir new (l + 1) (dirIndex (v * PGSIZE) (l + 1)) ≠ NULL :=
        fun l hl => htab rfl l hl
      have hgrown : Grown arch (fun pid w => pid = new ∧ w = v) s s₂ live live₂ :=
        (hmove.trans hgw).mono fun _ _ h => h.elim
      have hset : Grown arch (fun pid w => pid = new ∧ w = v) s
          (s₂.setLeaf new v ⟨s₂.pmem.pageAddr q, copyFlags arch (s.leaf old v) ||| PTE_V⟩) live live₂ :=
        hgrown.setLeaf ⟨rfl, rfl⟩ hnew (hlive.mono hgw.sub) (hgw.unheld hlive hunt) hflags htab'
      rw [hgw.same.pageAddr] at hset
      simp only [hnot]
      refine .inl ⟨_, live₂, rfl, hsafe₂, ⟨hset, q, ?_, hlive.mono hgw.sub, hnew, ?_⟩, ?_⟩
      · rw [setLeaf_leaf, if_pos ⟨rfl, rfl⟩]
        exact congrArg (fun pa => Pte.mk pa _) (hgw.same.pageAddr q).symm
      · intro o ho
        have hkept := hgw.mem q hlive o ho
        rw [← hbytes o ho, hpage, ← hkept]
        exact congrArg (fun a => s₂.pmem.mem (a + o)) (hgw.same.pageAddr q)
      · have herase : missing arch new (R.erase v) (s₂.setLeaf new v ⟨t.pmem.pageAddr q,
            copyFlags arch (s.leaf old v) ||| PTE_V⟩) = missing arch new R s₂ := missing_erase htab'
        rw [hmiss, hcount'] at hbal
        unfold needOf
        rw [herase]
        show _ = s₂.pmem.freeCount + _
        omega
    · rw [hw, Option.bind_some]
      refine .inr ⟨fun s' => by simp, ?_⟩
      rw [hmiss, hcount'] at hlt
      unfold needOf
      omega

/-- A page that the parent does not map is skipped. -/
theorem copyPage_skip (ha : a < MAXVA arch) (hnot : (s.leaf old (a / PGSIZE)).valid = false) :
    copyPage arch old new a s = some (true, s) := by
  have hpte : (pteAt arch old a s).valid = false := pteAt_of_not_valid hnot
  rw [copyPage, if_neg (by omega)]
  simp only [hpte, if_true]

/-- A round that does not go to `err`: the page is skipped, or it is mapped, or it was mapped before. -/
theorem copyPage_cases (hcall : copyPage arch old new a s = some (true, s')) :
    a < MAXVA arch ∧ (((pteAt arch old a s).valid = false ∧ s' = s) ∨
      (pteAt arch old a s).valid = true ∧ ∃ mem s₁ r, s.alloc 1 = some (mem, s₁) ∧
        mappages arch new a mem PGSIZE (copyFlags arch (pteAt arch old a s))
          (s₁.memmove mem (pteAt arch old a s).pa PGSIZE) = some (r, s')) := by
  rw [copyPage] at hcall
  split at hcall
  · cases hcall
  · rename_i hva
    refine ⟨by omega, ?_⟩
    simp only at hcall
    split at hcall
    · rename_i hnot
      cases hcall
      exact .inl ⟨hnot, rfl⟩
    · rename_i hmapped
      obtain ⟨⟨mem, s₁⟩, ha, hcall⟩ := Option.bind_eq_some_iff.mp hcall
      simp only at hcall
      split at hcall
      · cases hcall
      · obtain ⟨⟨r, s₂⟩, hmap, hcall⟩ := Option.bind_eq_some_iff.mp hcall
        refine .inr ⟨by simpa using hmapped, mem, s₁, r, ha, ?_⟩
        simp only at hcall
        split at hcall
        · obtain ⟨t, -, heq⟩ := Option.map_eq_some_iff.mp hcall
          cases heq
        · cases hcall
          exact hmap

/-- Entries that are valid stay. -/
theorem copyPage_keeps (hcall : copyPage arch old new (v * PGSIZE) s = some (true, s')) : Keeps s s' := by
  rcases (copyPage_cases hcall).2 with ⟨-, rfl⟩ | ⟨-, mem, s₁, r, ha, hmap⟩
  · exact Keeps.of_leaf rfl
  · have hkeeps := (mappages_first hmap).1
    unfold Keeps at hkeeps
    rw [memmove_leaf, (alloc_frame ha).1] at hkeeps
    exact hkeeps

/-- The entry of a page that the parent maps, if it was vacant. -/
theorem copyPage_entry (h : s.Ok arch live) (hcall : copyPage arch old new (v * PGSIZE) s = some (true, s'))
    (hmapped : (s.leaf old v).valid = true) (hvac : (s.leaf new v).valid = false) :
    ∃ pa, s'.leaf new v = ⟨pa, copyFlags arch (s.leaf old v) ||| PTE_V⟩ := by
  have hpte := pteAt_page h hmapped
  obtain ⟨hva, ⟨hnot, -⟩ | ⟨-, mem, s₁, r, ha, hmap⟩⟩ := copyPage_cases hcall
  · rw [hpte, hmapped] at hnot
    cases hnot
  · have hleaf := (alloc_frame ha).1
    rw [hpte, mappages_page hva (mappages_aligned hmap)] at hmap
    obtain ⟨⟨ok, s₃⟩, hw, hmap⟩ := Option.bind_eq_some_iff.mp hmap
    have hwalk : walkAlloc arch new (v * PGSIZE) (s₁.memmove mem (s.leaf old v).pa PGSIZE) = some (ok, s₃) := by
      rw [walkAlloc, if_neg (by omega), hw]
    have hnot : (s₃.leaf new v).valid = false := by
      rw [walkAlloc_leaf hwalk, memmove_leaf, hleaf]
      exact hvac
    simp only [hnot] at hmap
    split at hmap
    · cases hmap
    · rw [if_neg (by simp)] at hmap
      cases hmap
      refine ⟨mem, ?_⟩
      rw [setLeaf_leaf, if_pos ⟨rfl, rfl⟩]

end Vmem

end SC7
