-- SUMMARY: What the page tables hold: every page of a table or a mapping is live in the allocator, and the effect of each routine on that.
import SC7.Mem.Vmem

/-!
# Pages that are in use

A page is held by a leaf entry that maps it or by a directory entry that leads to it as a table.
`Vmem.Ok` says that every held page belongs to a live block of the allocator, `Vmem.Exclusive` that no
page is held twice.
-/

namespace SC7

open Function (update)
open Pmem (SameRegion)

namespace Vmem

/-- The places that can hold a page. -/
inductive Holder where
  | leaf (pid vpn : Nat)
  | dir (pid level i : Nat)
  deriving DecidableEq

/-- The place holds the page at `a`. -/
def Holds (s : Vmem) : Holder → Nat → Prop
  | .leaf pid vpn, a => (s.leaf pid vpn).valid = true ∧ (s.leaf pid vpn).pa = a
  | .dir pid level i, a => s.dir pid level i ≠ NULL ∧ s.dir pid level i = a

/-- Page `q` belongs to a live block. -/
def LivePage (live : List Block) (q : Nat) : Prop := ∃ b ∈ live, q ∈ b

structure Ok (arch : Arch) (s : Vmem) (live : List Block) : Prop where
  wf : s.pmem.Wf live
  held : ∀ x a, s.Holds x a → ∃ q, a = s.pmem.pageAddr q ∧ LivePage live q
  /-- a table has a block of its own -/
  alone : ∀ pid l i, s.dir pid l i ≠ NULL → ∃ q, s.dir pid l i = s.pmem.pageAddr q ∧ ⟨q, 0⟩ ∈ live
  /-- a mapped page can be reached -/
  tables : ∀ pid vpn, (s.leaf pid vpn).valid = true → ∀ l < PT_LEVEL arch - 1,
    s.dir pid (l + 1) (dirIndex (vpn * PGSIZE) (l + 1)) ≠ NULL
  /-- and has more flags than `PTE_V` -/
  flags : ∀ pid vpn, (s.leaf pid vpn).valid = true → PTE_FLAGS arch (s.leaf pid vpn) ≠ PTE_V

/-- No page is held twice. -/
def Exclusive (s : Vmem) : Prop := ∀ x y a, s.Holds x a → s.Holds y a → x = y

/-- No request so far needed an unsafe rebuild. -/
def Safe (s : Vmem) : Prop := ∀ r ∈ s.asked, r.1.AllocSafe r.2

/-- Page `q` is held by nobody. -/
def Unheld (s : Vmem) (q : Nat) : Prop := ∀ x, ¬s.Holds x (s.pmem.pageAddr q)

variable {arch : Arch} {s s' s₁ : Vmem} {live live' : List Block} {pid vpn q va a ptr level i l : Nat} {b : Block}
  {x : Holder} {n : Int} {pte : Pte} {ok : Bool}

/-! ## Entries -/

theorem valid_zero : Pte.zero.valid = false := rfl

theorem valid_mk (pa perm : Nat) : (⟨pa, perm ||| PTE_V⟩ : Pte).valid = true := by
  have hbit : ((perm ||| PTE_V) &&& PTE_V).testBit 0 = true := by simp [PTE_V]
  simp only [Pte.valid, bne_iff_ne, ne_eq]
  intro h0
  rw [h0] at hbit
  simp at hbit

/-- Fresh user memory is marked as user memory. -/
theorem flags_userPerm (arch : Arch) (pa perm : Nat) :
    PTE_FLAGS arch ⟨pa, userPerm arch perm ||| PTE_V⟩ ≠ PTE_V := by
  -- the bit of `PTE_U` is set on the left only
  intro h
  cases arch with
  | riscv =>
    have hbit := congrArg (fun n => n.testBit 4) h
    have hU : (PTE_U .riscv).testBit 4 = true := by decide
    have hmask : (flagsMask .riscv).testBit 4 = true := by decide
    have hV : PTE_V.testBit 4 = false := by decide
    simp only [PTE_FLAGS, userPerm, Nat.testBit_and, Nat.testBit_or, hU, hmask, hV] at hbit
    simp at hbit
  | loongarch =>
    have hbit := congrArg (fun n => n.testBit 2) h
    have hU : (PTE_U .loongarch).testBit 2 = true := by decide
    have hmask : (flagsMask .loongarch).testBit 2 = true := by decide
    have hV : PTE_V.testBit 2 = false := by decide
    simp only [PTE_FLAGS, userPerm, Nat.testBit_and, Nat.testBit_or, hU, hmask, hV] at hbit
    simp at hbit

@[simp] theorem setLeaf_leaf (s : Vmem) (pid vpn : Nat) (pte : Pte) (pid' vpn' : Nat) :
    (s.setLeaf pid vpn pte).leaf pid' vpn' =
      if pid' = pid ∧ vpn' = vpn then pte else s.leaf pid' vpn' := by
  unfold setLeaf
  by_cases hp : pid' = pid
  · subst hp
    by_cases hv : vpn' = vpn
    · simp [hv]
    · simp [hv]
  · simp [hp]

@[simp] theorem setDir_dir (s : Vmem) (pid level i page pid' level' i' : Nat) :
    (s.setDir pid level i page).dir pid' level' i' =
      if pid' = pid ∧ level' = level ∧ i' = i then page else s.dir pid' level' i' := by
  unfold setDir
  by_cases hp : pid' = pid
  · subst hp
    by_cases hl : level' = level
    · subst hl
      by_cases hi : i' = i
      · simp [hi]
      · simp [hi]
    · simp [hl]
  · simp [hp]

@[simp] theorem setLeaf_asked (s : Vmem) (pid vpn : Nat) (pte : Pte) :
    (s.setLeaf pid vpn pte).asked = s.asked := rfl

@[simp] theorem memset_leaf (s : Vmem) (addr len : Nat) : (s.memset addr len).leaf = s.leaf := rfl

@[simp] theorem memset_asked (s : Vmem) (addr len : Nat) : (s.memset addr len).asked = s.asked := rfl

/-- The index of a table only depends on the page. -/
theorem dirIndex_page (va level : Nat) : dirIndex (va / PGSIZE * PGSIZE) level = dirIndex va level := by
  have hpow : ∀ m : Nat, m / 2 ^ (12 + 9 * level) = m / PGSIZE / 2 ^ (9 * level) := by
    intro m
    rw [Nat.div_div_eq_div_mul, Nat.pow_add]
  simp only [dirIndex, Nat.shiftRight_eq_div_pow, hpow]
  rw [Nat.mul_div_cancel _ (by decide : 0 < PGSIZE)]

/-- A valid entry is what the walk finds. -/
theorem pteAt_of_valid (h : s.Ok arch live) (hv : (s.leaf pid (va / PGSIZE)).valid = true) :
    pteAt arch pid va s = s.leaf pid (va / PGSIZE) := by
  unfold pteAt
  rw [if_pos]
  unfold hasTables
  rw [List.all_eq_true]
  intro l hl
  have hne := h.tables pid (va / PGSIZE) hv l (List.mem_range.mp hl)
  rw [dirIndex_page] at hne
  simpa using hne

theorem pteAt_of_not_valid (hv : (s.leaf pid (va / PGSIZE)).valid = false) : (pteAt arch pid va s).valid = false := by
  unfold pteAt
  split
  · exact hv
  · exact valid_zero

/-! ## The allocator underneath -/

/-- What `Ok` and `Exclusive` read of a state. -/
theorem holds_congr (hleaf : s'.leaf = s.leaf) (hdir : s'.dir = s.dir) : s'.Holds x a ↔ s.Holds x a := by
  cases x with
  | leaf pid vpn => simp only [Holds, hleaf]
  | dir pid level i => simp only [Holds, hdir]

theorem LivePage.mono {live live' : List Block} (hsub : ∀ b ∈ live, b ∈ live') (h : LivePage live q) :
    LivePage live' q := by
  obtain ⟨b, hb, hq⟩ := h
  exact ⟨b, hsub b hb, hq⟩

/-- The allocator changed, and every live block is still live. -/
theorem Ok.of_pmem (h : s.Ok arch live) (hleaf : s'.leaf = s.leaf) (hdir : s'.dir = s.dir)
    (hsame : SameRegion s.pmem s'.pmem) (hwf : s'.pmem.Wf live') (hsub : ∀ b ∈ live, b ∈ live') :
    s'.Ok arch live' where
  wf := hwf
  held := by
    intro x a hx
    obtain ⟨q, rfl, hq⟩ := h.held x a ((holds_congr hleaf hdir).mp hx)
    exact ⟨q, (hsame.pageAddr q).symm, hq.mono hsub⟩
  alone := by
    intro pid l i hne
    rw [hdir] at hne ⊢
    obtain ⟨q, hq, hlive⟩ := h.alone pid l i hne
    exact ⟨q, by rw [hsame.pageAddr]; exact hq, hsub _ hlive⟩
  tables := by
    rw [hleaf, hdir]
    exact h.tables
  flags := by
    rw [hleaf]
    exact h.flags

/-- A block that is not live is held by nobody. -/
theorem Ok.unheld_of_not_live (h : s.Ok arch live) (hq : ¬LivePage live q) : s.Unheld q := by
  intro x hx
  obtain ⟨q', heq, hlive⟩ := h.held x _ hx
  rw [Pmem.pageAddr_inj heq] at hq
  exact hq hlive

theorem wf_not_live {p : Pmem} (hwf : p.Wf (b :: live)) (hq : q ∈ b) : ¬LivePage live q := by
  rintro ⟨b', hb', hq'⟩
  have heq := hwf.eq_of_mem (List.mem_cons_self ..) (List.mem_cons_of_mem _ hb') hq hq'
  rw [heq] at hwf
  exact (List.nodup_cons.mp hwf.nodup).1 hb'

/-- Memory was only added. Leaf entries changed at the places `P` at most, and a page that was live
is held where it was held before and keeps its contents. -/
structure Grown (arch : Arch) (P : Nat → Nat → Prop) (s s' : Vmem) (live live' : List Block) :
    Prop where
  ok : s'.Ok arch live'
  leaf : ∀ pid vpn, ¬P pid vpn → s'.leaf pid vpn = s.leaf pid vpn
  dir : ∀ pid l i, s.dir pid l i ≠ NULL → s'.dir pid l i = s.dir pid l i
  new : ∀ x q, s'.Holds x (s.pmem.pageAddr q) → LivePage live q → s.Holds x (s.pmem.pageAddr q)
  one : ∀ x y a, s'.Holds x a → s'.Holds y a → x = y ∨ s.Holds x a ∧ s.Holds y a
  same : SameRegion s.pmem s'.pmem
  sub : ∀ b ∈ live, b ∈ live'
  mem : ∀ q, LivePage live q → ∀ o < PGSIZE,
    s'.pmem.mem (s.pmem.pageAddr q + o) = s.pmem.mem (s.pmem.pageAddr q + o)

/-- No leaf entry. -/
def nowhere (_ _ : Nat) : Prop := False

namespace Grown

variable {live₁ live₂ : List Block} {P Q : Nat → Nat → Prop}

theorem refl (h : s.Ok arch live) : Grown arch P s s live live :=
  ⟨h, fun _ _ _ => rfl, fun _ _ _ _ => rfl, fun _ _ hx _ => hx, fun _ _ _ hx hy => .inr ⟨hx, hy⟩,
    SameRegion.refl _, fun _ hb => hb, fun _ _ _ _ => rfl⟩

theorem mono (h : Grown arch P s s' live live') (hPQ : ∀ pid vpn, P pid vpn → Q pid vpn) :
    Grown arch Q s s' live live' :=
  { h with leaf := fun pid vpn hQ => h.leaf pid vpn fun hP => hQ (hPQ pid vpn hP) }

theorem trans (h₁ : Grown arch P s s₁ live live₁) (h₂ : Grown arch P s₁ s' live₁ live₂) :
    Grown arch P s s' live live₂ where
  ok := h₂.ok
  leaf := fun pid vpn hP => (h₂.leaf pid vpn hP).trans (h₁.leaf pid vpn hP)
  dir := by
    intro pid l i hne
    have h := h₁.dir pid l i hne
    rw [h₂.dir pid l i (by rw [h]; exact hne), h]
  new := by
    intro x q hx hq
    refine h₁.new x q ?_ hq
    rw [← h₁.same.pageAddr] at hx ⊢
    exact h₂.new x q hx (hq.mono h₁.sub)
  one := by
    intro x y a hx hy
    rcases h₂.one x y a hx hy with heq | ⟨hx, hy⟩
    · exact .inl heq
    · exact h₁.one x y a hx hy
  same := h₁.same.trans h₂.same
  sub := fun b hb => h₂.sub b (h₁.sub b hb)
  mem := by
    intro q hq o ho
    have h := h₂.mem q (hq.mono h₁.sub) o ho
    rw [h₁.same.pageAddr] at h
    rw [h, h₁.mem q hq o ho]

/-- Only the allocator changed. -/
theorem of_pmem (h : s.Ok arch live) (hleaf : s'.leaf = s.leaf) (hdir : s'.dir = s.dir)
    (hsame : SameRegion s.pmem s'.pmem) (hwf : s'.pmem.Wf live') (hsub : ∀ b ∈ live, b ∈ live')
    (hmem : ∀ q, LivePage live q → ∀ o < PGSIZE,
      s'.pmem.mem (s.pmem.pageAddr q + o) = s.pmem.mem (s.pmem.pageAddr q + o)) :
    Grown arch P s s' live live' where
  ok := h.of_pmem hleaf hdir hsame hwf hsub
  leaf := fun _ _ _ => by rw [hleaf]
  dir := fun _ _ _ _ => by rw [hdir]
  new := fun _ _ hx _ => (holds_congr hleaf hdir).mp hx
  one := fun _ _ _ hx hy => .inr ⟨(holds_congr hleaf hdir).mp hx, (holds_congr hleaf hdir).mp hy⟩
  same := hsame
  sub := hsub
  mem := hmem

theorem leaf_eq (h : Grown arch nowhere s s' live live') : s'.leaf = s.leaf :=
  funext fun pid => funext fun vpn => h.leaf pid vpn id

theorem excl (h : Grown arch P s s' live live') (hx : s.Exclusive) : s'.Exclusive := by
  intro x y a hxa hya
  rcases h.one x y a hxa hya with heq | ⟨hxa, hya⟩
  · exact heq
  · exact hx x y a hxa hya

theorem unheld (h : Grown arch P s s' live live') (hq : LivePage live q) (hun : s.Unheld q) :
    s'.Unheld q := by
  intro x hx
  rw [h.same.pageAddr] at hx
  exact hun x (h.new x q hx hq)

/-- One place came to hold a new page that nobody held; the others hold what they held. -/
theorem add (h : Grown arch P s s₁ live live₁) (hok : s'.Ok arch live₁) {x₀ : Holder}
    (hpmem : s'.pmem = s₁.pmem) (hnew : ¬LivePage live q) (hun : s₁.Unheld q)
    (hleaf : ∀ pid vpn, ¬P pid vpn → s'.leaf pid vpn = s₁.leaf pid vpn)
    (hdir : ∀ pid l i, s₁.dir pid l i ≠ NULL → s'.dir pid l i = s₁.dir pid l i)
    (hold : ∀ x a, s'.Holds x a → (x = x₀ ∧ a = s₁.pmem.pageAddr q) ∨ s₁.Holds x a) :
    Grown arch P s s' live live₁ where
  ok := hok
  leaf := fun pid vpn hP => (hleaf pid vpn hP).trans (h.leaf pid vpn hP)
  dir := by
    intro pid l i hne
    have heq := h.dir pid l i hne
    rw [hdir pid l i (by rw [heq]; exact hne), heq]
  new := by
    intro x q' hx hq'
    rcases hold x _ hx with ⟨-, heq⟩ | hx
    · rw [h.same.pageAddr] at heq
      rw [Pmem.pageAddr_inj heq] at hq'
      exact absurd hq' hnew
    · exact h.new x q' hx hq'
  one := by
    intro x y a hx hy
    rcases hold x a hx with ⟨rfl, rfl⟩ | hx
    · rcases hold y _ hy with ⟨rfl, -⟩ | hy
      · exact .inl rfl
      · exact absurd hy (hun y)
    · rcases hold y a hy with ⟨-, rfl⟩ | hy
      · exact absurd hx (hun x)
      · exact h.one x y a hx hy
  same := by rw [hpmem]; exact h.same
  sub := h.sub
  mem := by rw [hpmem]; exact h.mem

end Grown

/-- What an allocation leaves alone, and what it adds to the record. -/
theorem alloc_frame (ha : s.alloc n = some (ptr, s')) :
    s'.leaf = s.leaf ∧ s'.dir = s.dir ∧ s'.asked = (s.pmem, n) :: s.asked := by
  obtain ⟨⟨ptr', p⟩, -, heq⟩ := Option.map_eq_some_iff.mp ha
  simp only [Prod.mk.injEq] at heq
  rw [← heq.2]
  exact ⟨rfl, rfl, rfl⟩

theorem alloc_asked (ha : s.alloc n = some (ptr, s')) : s.asked <:+ s'.asked := by
  rw [(alloc_frame ha).2.2]
  exact List.suffix_cons _ _

theorem free_asked (hf : s.free ptr n = some s') : s'.asked = s.asked := by
  obtain ⟨p, -, rfl⟩ := Option.map_eq_some_iff.mp hf
  rfl

theorem Safe.of_suffix (h : s'.Safe) (hsuf : s.asked <:+ s'.asked) : s.Safe :=
  fun r hr => h r (hsuf.subset hr)

/-- An allocation fails without a trace, or hands out a block that nobody holds. -/
theorem Ok.alloc (h : s.Ok arch live) (hsafe : s'.Safe) (ha : s.alloc n = some (ptr, s')) :
    (ptr = NULL ∧ Grown arch nowhere s s' live live) ∨
      ∃ b, ptr = s'.pmem.pageAddr b.page ∧ ptr ≠ NULL ∧ n ≤ 2 ^ b.order ∧
        getOrder n.toNat = b.order ∧ Grown arch nowhere s s' live (b :: live) ∧
        ∀ q ∈ b, ¬LivePage live q ∧ s'.Unheld q := by
  unfold Vmem.alloc at ha
  obtain ⟨⟨ptr', p⟩, hp, heq⟩ := Option.map_eq_some_iff.mp ha
  simp only [Prod.mk.injEq] at heq
  obtain ⟨rfl, rfl⟩ := heq
  have hreq : s.pmem.AllocSafe n := hsafe (s.pmem, n) (List.mem_cons_self ..)
  rcases h.wf.pmemAllocPages n hreq with ⟨p', hcall, hwf, hsame, hmem⟩ | ⟨b, p', hcall, hne, hh, hord⟩
  · rw [hcall] at hp
    cases hp
    refine .inl ⟨rfl, Grown.of_pmem h rfl rfl hsame hwf (fun _ hb => hb) fun q _ o _ => ?_⟩
    exact congrFun hmem _
  · rw [hcall] at hp
    cases hp
    refine .inr ⟨b, (hh.same.pageAddr _).symm, hne, hh.room, hord, Grown.of_pmem h rfl rfl hh.same
      hh.wf (fun _ hb => List.mem_cons_of_mem _ hb) ?_, ?_⟩
    · rintro q ⟨b', hb', hq⟩ o ho
      exact hh.mem_live hb' hq ho
    · intro q hq
      have hnew := wf_not_live hh.wf hq
      refine ⟨hnew, fun x hx => ?_⟩
      have hpa : p.pageAddr q = s.pmem.pageAddr q := hh.same.pageAddr q
      rw [hpa] at hx
      exact h.unheld_of_not_live hnew x ((holds_congr rfl rfl).mp hx)

/-! ## Entries change -/

/-- An unheld live page is mapped at a free place. -/
theorem Ok.setLeaf (h : s.Ok arch live) (hq : LivePage live q)
    (hpa : pte.pa = s.pmem.pageAddr q) (hflags : PTE_FLAGS arch pte ≠ PTE_V)
    (htab : ∀ l < PT_LEVEL arch - 1, s.dir pid (l + 1) (dirIndex (vpn * PGSIZE) (l + 1)) ≠ NULL) :
    (s.setLeaf pid vpn pte).Ok arch live where
  wf := h.wf
  held := by
    intro x a hx
    cases x with
    | leaf pid' vpn' =>
      simp only [Holds, setLeaf_leaf] at hx
      split at hx
      · exact ⟨q, hx.2.symm.trans hpa, hq⟩
      · exact h.held (.leaf pid' vpn') a hx
    | dir pid' level i => exact h.held (.dir pid' level i) a hx
  alone := h.alone
  tables := by
    intro pid' vpn' hv
    rw [setLeaf_leaf] at hv
    split at hv
    · rename_i heq
      rw [heq.1, heq.2]
      exact htab
    · exact h.tables pid' vpn' hv
  flags := by
    intro pid' vpn' hv
    rw [setLeaf_leaf] at hv ⊢
    split at hv
    · rename_i heq
      rw [if_pos heq]
      exact hflags
    · rename_i hne
      rw [if_neg hne]
      exact h.flags pid' vpn' hv

theorem holds_setLeaf (hx : (s.setLeaf pid vpn pte).Holds x a) : (x = .leaf pid vpn ∧ a = pte.pa) ∨ s.Holds x a := by
  cases x with
  | leaf pid' vpn' =>
    simp only [Holds, setLeaf_leaf] at hx
    split at hx
    · rename_i heq
      exact .inl ⟨by rw [heq.1, heq.2], hx.2.symm⟩
    · exact .inr hx
  | dir pid' level i => exact .inr hx

theorem holds_setDir {page : Nat}
    (hx : (s.setDir pid level i page).Holds x a) : (x = .dir pid level i ∧ a = page) ∨ s.Holds x a := by
  cases x with
  | leaf pid' vpn' => exact .inr hx
  | dir pid' level' i' =>
    simp only [Holds, setDir_dir] at hx
    split at hx
    · rename_i heq
      exact .inl ⟨by rw [heq.1, heq.2.1, heq.2.2], hx.2.symm⟩
    · exact .inr hx

/-- A new table is linked in at a free place. -/
theorem Ok.setDir (h : s.Ok arch live) (hq : ⟨q, 0⟩ ∈ live) (hne : s.pmem.pageAddr q ≠ NULL) :
    (s.setDir pid level i (s.pmem.pageAddr q)).Ok arch live where
  wf := h.wf
  held := by
    intro x a hx
    rcases holds_setDir hx with ⟨-, rfl⟩ | hx
    · exact ⟨q, rfl, ⟨q, 0⟩, hq, Block.page_mem _⟩
    · exact h.held x a hx
  alone := by
    intro pid' l i' hne'
    rw [setDir_dir] at hne' ⊢
    split
    · exact ⟨q, rfl, hq⟩
    · rename_i hoff
      rw [if_neg hoff] at hne'
      exact h.alone pid' l i' hne'
  tables := by
    intro pid' vpn' hv l hl
    rw [setDir_dir]
    split
    · exact hne
    · exact h.tables pid' vpn' hv l hl
  flags := h.flags

/-! ## Walking -/

theorem walkLevels_asked (hw : walkLevels pid va l s = some (ok, s')) : s.asked <:+ s'.asked := by
  induction l generalizing s with
  | zero =>
    cases hw
    exact List.suffix_rfl
  | succ l ih =>
    unfold walkLevels at hw
    split at hw
    · exact ih hw
    · obtain ⟨⟨pt, s₁⟩, ha, hw⟩ := Option.bind_eq_some_iff.mp hw
      have hs₁ : s.asked <:+ s₁.asked := alloc_asked ha
      simp only at hw
      split at hw
      · cases hw
        exact hs₁
      · have hset : (s₁.setDir pid (l + 1) (dirIndex va (l + 1)) pt).asked <:+ s'.asked := ih hw
        exact hs₁.trans hset

/-- A request for one page is answered by a block of one page. -/
theorem block_of_getOrder_one (h : getOrder (1 : Int).toNat = b.order) : b = ⟨b.page, 0⟩ := by
  have hone : getOrder (1 : Int).toNat = 0 := rfl
  have horder : b.order = 0 := by
    rw [hone] at h
    exact_mod_cast h.symm
  rw [← horder]

/-- The walk finds or makes the tables on its way. -/
theorem walkLevels_spec (h : s.Ok arch live) (hsafe : s'.Safe) (hw : walkLevels pid va l s = some (ok, s')) :
    ∃ live', Grown arch nowhere s s' live live' ∧
      (ok = true → ∀ j < l, s'.dir pid (j + 1) (dirIndex va (j + 1)) ≠ NULL) := by
  induction l generalizing s live with
  | zero =>
    cases hw
    exact ⟨live, Grown.refl h, fun _ j hj => absurd hj (Nat.not_lt_zero j)⟩
  | succ l ih =>
    unfold walkLevels at hw
    split at hw
    · rename_i hne
      obtain ⟨live', hwalk, hdirs⟩ := ih h hw
      refine ⟨live', hwalk, fun hok j hj => ?_⟩
      by_cases hjl : j = l
      · rw [hjl, hwalk.dir _ _ _ hne]
        exact hne
      · exact hdirs hok j (by omega)
    · rename_i hnull
      obtain ⟨⟨pt, s₁⟩, ha, hw⟩ := Option.bind_eq_some_iff.mp hw
      simp only at hw
      split at hw
      · rename_i hpt
        cases hw
        obtain ⟨-, hg⟩ | ⟨b, -, hne, -⟩ := h.alloc hsafe ha
        · exact ⟨live, hg, fun hok => by cases hok⟩
        · exact absurd hpt hne
      · rename_i hpt
        have hsuf : (s₁.setDir pid (l + 1) (dirIndex va (l + 1)) pt).asked <:+ s'.asked := walkLevels_asked hw
        have hsafe₁ : s₁.Safe := hsafe.of_suffix (show s₁.asked <:+ s'.asked from hsuf)
        obtain ⟨hnull', -⟩ | ⟨b, rfl, hne, -, hord, hg, hb⟩ := h.alloc hsafe₁ ha
        · exact absurd hnull' hpt
        · -- the new table is the only page of the new block
          obtain ⟨hnew, hun⟩ := hb b.page b.page_mem
          have hzero : b = ⟨b.page, 0⟩ := block_of_getOrder_one hord
          have hmem : ⟨b.page, 0⟩ ∈ b :: live := by
            rw [← hzero]
            exact List.mem_cons_self ..
          have hset : Grown arch nowhere s
              (s₁.setDir pid (l + 1) (dirIndex va (l + 1)) (s₁.pmem.pageAddr b.page)) live (b :: live) := by
            refine hg.add (hg.ok.setDir hmem hne) rfl hnew hun (fun _ _ _ => rfl) ?_
              fun _ _ hx => holds_setDir hx
            intro pid' l' i' hne'
            rw [setDir_dir, if_neg]
            rintro ⟨rfl, rfl, rfl⟩
            rw [(alloc_frame ha).2.1] at hne'
            exact hnull hne'
          obtain ⟨live', hwalk, hdirs⟩ := ih hset.ok hw
          refine ⟨live', hset.trans hwalk, fun hok j hj => ?_⟩
          by_cases hjl : j = l
          · have hthere : (s₁.setDir pid (l + 1) (dirIndex va (l + 1)) (s₁.pmem.pageAddr b.page)).dir pid
                (l + 1) (dirIndex va (l + 1)) ≠ NULL := by
              rw [setDir_dir, if_pos ⟨rfl, rfl, rfl⟩]
              exact hne
            rw [hjl, hwalk.dir _ _ _ hthere]
            exact hthere
          · exact hdirs hok j (by omega)

/-! ## Unmapping -/

/-- The mapped pages of `[lo, hi)` can be reached and lie in the managed memory. -/
def Readable (arch : Arch) (s : Vmem) (pid lo hi : Nat) : Prop :=
  ∀ vpn, lo ≤ vpn → vpn < hi → (s.leaf pid vpn).valid = true →
    pteAt arch pid (vpn * PGSIZE) s = s.leaf pid vpn ∧ PTE_FLAGS arch (s.leaf pid vpn) ≠ PTE_V ∧
    ∃ q < s.pmem.totalPages, metaPages s.pmem.totalPages ≤ q ∧ (s.leaf pid vpn).pa = s.pmem.pageAddr q

theorem Ok.readable (h : s.Ok arch live) (pid lo hi : Nat) : Readable arch s pid lo hi := by
  intro vpn _ _ hv
  have hdiv : vpn * PGSIZE / PGSIZE = vpn := Nat.mul_div_cancel _ (by decide)
  refine ⟨?_, h.flags pid vpn hv, ?_⟩
  · have hpte : pteAt arch pid (vpn * PGSIZE) s = s.leaf pid (vpn * PGSIZE / PGSIZE) :=
      pteAt_of_valid h (by rw [hdiv]; exact hv)
    rwa [hdiv] at hpte
  · obtain ⟨q, hq, b, hb, hqb⟩ := h.held (.leaf pid vpn) _ ⟨hv, rfl⟩
    have hplaced := h.wf.placed hb
    exact ⟨q, hplaced.mem_lt hqb, hplaced.meta_le_mem hqb, hq⟩

/-- Some page of the block is mapped in `[lo, hi)`. -/
def Touched (s : Vmem) (pid lo hi : Nat) (b : Block) : Prop :=
  ∃ vpn, lo ≤ vpn ∧ vpn < hi ∧ (s.leaf pid vpn).valid = true ∧
    ∃ q ∈ b, (s.leaf pid vpn).pa = s.pmem.pageAddr q

/-- `[lo, hi)` was unmapped: its entries are cleared and, if the pages were to be freed, every block
with a page in it is gone. -/
structure Unmapped (doFree : Bool) (s s' : Vmem) (pid lo hi : Nat) (live live' : List Block) :
    Prop where
  wf : s'.pmem.Wf live'
  leaf : ∀ pid' vpn, s'.leaf pid' vpn =
    if (pid' = pid ∧ lo ≤ vpn ∧ vpn < hi) ∧ (s.leaf pid' vpn).valid = true then Pte.zero
    else s.leaf pid' vpn
  dir : s'.dir = s.dir
  asked : s'.asked = s.asked
  same : SameRegion s.pmem s'.pmem
  mem : s'.pmem.mem = s.pmem.mem
  live : ∀ b, b ∈ live' ↔ b ∈ live ∧ ¬(doFree = true ∧ s.Touched pid lo hi b)

theorem unmapPage_spec (doFree : Bool) (hwf : s.pmem.Wf live)
    (hr : Readable arch s pid vpn (vpn + 1)) (hva : vpn * PGSIZE < MAXVA arch) :
    ∃ s' live', unmapPage arch pid doFree (vpn * PGSIZE) s = some s' ∧
      Unmapped doFree s s' pid vpn (vpn + 1) live live' := by
  have hdiv : vpn * PGSIZE / PGSIZE = vpn := Nat.mul_div_cancel _ (by decide)
  -- the range is the one page
  have hone : ∀ v, vpn ≤ v ∧ v < vpn + 1 ↔ v = vpn := fun v => by omega
  by_cases hv : (s.leaf pid vpn).valid = true
  · obtain ⟨hpte, hflags, q, hq, hmeta, hpa⟩ := hr vpn (le_refl _) (by omega) hv
    have hne := Pmem.pageAddr_ne_zero hq hmeta
    have hend := hwf.region.end_eq
    have hin : s.pmem.memStart ≤ s.pmem.pageAddr q ∧ s.pmem.pageAddr q < s.pmem.memEnd := by
      simp only [Pmem.pageAddr, PGSIZE] at hend ⊢
      omega
    have hvalid : ¬(s.leaf pid vpn).valid = false := by rw [hv]; simp
    have htouch : ∀ b, s.Touched pid vpn (vpn + 1) b ↔ q ∈ b := by
      intro b
      constructor
      · rintro ⟨v, h1, h2, -, q', hq', hpa'⟩
        obtain rfl := (hone v).mp ⟨h1, h2⟩
        rw [hpa] at hpa'
        rwa [Pmem.pageAddr_inj hpa']
      · exact fun hqb => ⟨vpn, le_refl _, by omega, hv, q, hqb, hpa⟩
    have hleaf : ∀ pid' v, (if pid' = pid ∧ v = vpn then Pte.zero else s.leaf pid' v) =
        if (pid' = pid ∧ vpn ≤ v ∧ v < vpn + 1) ∧ (s.leaf pid' v).valid = true then Pte.zero
        else s.leaf pid' v := by
      intro pid' v
      simp only [hone]
      by_cases hpv : pid' = pid ∧ v = vpn
      · rw [if_pos hpv, if_pos ⟨hpv, by rw [hpv.1, hpv.2]; exact hv⟩]
      · rw [if_neg hpv, if_neg fun h => hpv h.1]
    unfold unmapPage
    rw [if_neg (Nat.not_le.mpr hva)]
    simp only [hpte, if_neg hvalid, if_neg hflags, hpa, hdiv]
    cases doFree with
    | true =>
      obtain ⟨p', live', hcall, hwf', hlive', hsame, hmem⟩ := hwf.release hq
      rw [if_pos ⟨rfl, hne, hin⟩, Vmem.free, hcall]
      refine ⟨_, live', rfl, hwf', ?_, rfl, rfl, hsame, hmem, ?_⟩
      · intro pid' v
        rw [setLeaf_leaf]
        exact hleaf pid' v
      · intro b
        rw [hlive', htouch]
        simp
    | false =>
      rw [if_neg (by simp)]
      refine ⟨_, live, rfl, hwf, ?_, rfl, rfl, SameRegion.refl _, rfl, fun b => by simp⟩
      intro pid' v
      rw [setLeaf_leaf]
      exact hleaf pid' v
  · have hv' : (s.leaf pid vpn).valid = false := by simpa using hv
    have hpte : (pteAt arch pid (vpn * PGSIZE) s).valid = false :=
      pteAt_of_not_valid (by rw [hdiv]; exact hv')
    refine ⟨s, live, ?_, hwf, ?_, rfl, rfl, SameRegion.refl _, rfl, ?_⟩
    · unfold unmapPage
      rw [if_neg (Nat.not_le.mpr hva)]
      simp only [hpte, if_true]
    · intro pid' v
      simp only [hone]
      rw [if_neg]
      rintro ⟨⟨rfl, rfl⟩, h⟩
      exact hv h
    · intro b
      refine ⟨fun hb => ⟨hb, ?_⟩, fun hb => hb.1⟩
      rintro ⟨-, v, h1, h2, hval, -⟩
      obtain rfl := (hone v).mp ⟨h1, h2⟩
      exact hv hval

end Vmem

end SC7
