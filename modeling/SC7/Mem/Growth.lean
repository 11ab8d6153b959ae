-- SUMMARY: What a failed growth of user memory leaves behind: which pages it took, and what its clean-up gives back.
import SC7.Mem.Unmap
import SC7.Mem.PageTree
import SC7.Mem.PmemCalls
import Mathlib.Order.Interval.Finset.Nat

/-!
# Failed growth

A call of `uvmalloc`, `uvmalloc1` or `uvm_grow` that reports a failure should leave no trace: the
entries read as before, and of the pages it took only page tables are left. `Vmem.Took` follows the
pages a call takes, `Vmem.Filled` the second attempt up to the first page that is mapped already. The
first attempt has no clean-up for the entries it wrote: it leaves no trace unless there was a block for
the whole range and the first page of the range was not mapped.
-/

namespace SC7

open Pmem (SameRegion)

namespace Vmem

variable {arch : Arch} {s s' s₀ s₁ s₂ t : Vmem} {live live' live₀ : List Block} {b : Block}
  {pid lo hi k n q ptr va pa len perm v end_ a oldsz newsz : Nat} {P : Nat → Nat → Prop} {D E : Nat → Prop}
  {m r done : Int} {ok : Bool} {made : Option Bool} {undo : Nat → Option Bool → Vmem → Option (Int × Vmem)}
  {tr : Tried} {mem : Nat → UInt8}

/-! ## The pages that a call takes -/

/-- The page is a table of some page table. -/
def IsTable (s : Vmem) (q : Nat) : Prop := ∃ pid l i, s.dir pid l i ≠ NULL ∧ s.dir pid l i = s.pmem.pageAddr q

/-- No page. -/
def noPage (_ : Nat) : Prop := False

/-- The pages that were taken from the allocator are tables now, or pages of `D`. -/
structure Took (D : Nat → Prop) (s s' : Vmem) : Prop where
  wf : ∃ live', s'.pmem.Wf live'
  same : SameRegion s.pmem s'.pmem
  dir : ∀ pid l i, s.dir pid l i ≠ NULL → s'.dir pid l i = s.dir pid l i
  safe : s.Safe → s'.Safe
  taken : ∀ q, s.pmem.FreePage q → s'.pmem.FreePage q ∨ s'.IsTable q ∨ D q

namespace Took

theorem refl (hwf : s.pmem.Wf live) : Took noPage s s :=
  ⟨⟨live, hwf⟩, SameRegion.refl _, fun _ _ _ _ => rfl, id, fun _ hq => .inl hq⟩

theorem isTable (h : Took D s s') (hq : s.IsTable q) : s'.IsTable q := by
  obtain ⟨pid, l, i, hne, hpage⟩ := hq
  refine ⟨pid, l, i, ?_, ?_⟩
  · rw [h.dir pid l i hne]
    exact hne
  · rw [h.dir pid l i hne, hpage, h.same.pageAddr]

theorem trans (h₁ : Took D s s₁) (h₂ : Took E s₁ s') : Took (fun q => D q ∨ E q) s s' where
  wf := h₂.wf
  same := h₁.same.trans h₂.same
  dir := by
    intro pid l i hne
    have h := h₁.dir pid l i hne
    rw [h₂.dir pid l i (by rw [h]; exact hne), h]
  safe := fun hs => h₂.safe (h₁.safe hs)
  taken := by
    intro q hq
    rcases h₁.taken q hq with hfree | htable | hD
    · rcases h₂.taken q hfree with hfree | htable | hE
      · exact .inl hfree
      · exact .inr (.inl htable)
      · exact .inr (.inr (.inr hE))
    · exact .inr (.inl (h₂.isTable htable))
    · exact .inr (.inr (.inl hD))

theorem mono (h : Took D s s') (hDE : ∀ q, D q → E q) : Took E s s' :=
  { h with taken := fun q hq => (h.taken q hq).imp_right (Or.imp_right (hDE q)) }

/-- Only tables are taken on the way. -/
theorem transTables (h₁ : Took D s s₁) (h₂ : Took noPage s₁ s') : Took D s s' :=
  (h₁.trans h₂).mono fun _ hq => hq.elim id False.elim

/-- Pages were given back, those of `D` among them. -/
theorem release (h : Took D s s₁) (hwf : s'.pmem.Wf live') (hsame : SameRegion s₁.pmem s'.pmem)
    (hdir : s'.dir = s₁.dir) (hasked : s'.asked = s₁.asked)
    (hfree : ∀ q, s₁.pmem.FreePage q ∨ D q → s'.pmem.FreePage q) : Took noPage s s' where
  wf := ⟨live', hwf⟩
  same := h.same.trans hsame
  dir := by
    intro pid l i hne
    rw [hdir]
    exact h.dir pid l i hne
  safe := by
    intro hs req hreq
    rw [hasked] at hreq
    exact h.safe hs req hreq
  taken := by
    intro q hq
    rcases h.taken q hq with hq | ⟨pid, l, i, htable⟩ | hq
    · exact .inl (hfree q (.inl hq))
    · refine .inr (.inl ⟨pid, l, i, ?_⟩)
      rw [hdir, hsame.pageAddr]
      exact htable
    · exact .inl (hfree q (.inr hq))

end Took

/-- A state whose live blocks did not change has the same free pages. -/
theorem freePage_congr {p p' : Pmem} (hwf : p.Wf live) (hwf' : p'.Wf live) (hsame : SameRegion p p') :
    p'.FreePage q ↔ p.FreePage q := by
  rw [hwf.freePage_iff, hwf'.freePage_iff, Pmem.managed_congr hsame]

/-- Only the allocator changed, and no live block did. -/
theorem Took.of_pmem (hwf : s.pmem.Wf live) (hwf' : s'.pmem.Wf live) (hsame : SameRegion s.pmem s'.pmem)
    (hdir : s'.dir = s.dir) (hsafe : s.Safe → s'.Safe) : Took noPage s s' where
  wf := ⟨live, hwf'⟩
  same := hsame
  dir := fun _ _ _ _ => by rw [hdir]
  safe := hsafe
  taken := fun _ hq => .inl ((freePage_congr hwf hwf' hsame).mpr hq)

/-- A block was taken. -/
theorem Took.of_block (hwf : s.pmem.Wf live) (hwf' : s'.pmem.Wf (b :: live))
    (hsame : SameRegion s.pmem s'.pmem) (hdir : s'.dir = s.dir) (hsafe : s.Safe → s'.Safe) :
    Took (· ∈ b) s s' where
  wf := ⟨_, hwf'⟩
  same := hsame
  dir := fun _ _ _ _ => by rw [hdir]
  safe := hsafe
  taken := by
    intro q hq
    by_cases hqb : q ∈ b
    · exact .inr (.inr hqb)
    · obtain ⟨hm, hnot⟩ := hwf.freePage_iff.mp hq
      refine .inl (hwf'.freePage_iff.mpr ⟨?_, ?_⟩)
      · rw [Pmem.managed_congr hsame]
        exact hm
      · rintro ⟨b', hb', hq'⟩
        rcases List.mem_cons.mp hb' with rfl | hb'
        · exact hqb hq'
        · exact hnot ⟨b', hb', hq'⟩

theorem alloc_safe (hreq : s.pmem.AllocSafe m) (ha : s.alloc m = some (ptr, s')) (hsafe : s.Safe) : s'.Safe := by
  intro req hreq'
  rw [(alloc_frame ha).2.2] at hreq'
  rcases List.mem_cons.mp hreq' with rfl | hreq'
  · exact hreq
  · exact hsafe req hreq'

/-- A request fails and takes nothing, or takes the pages of a block. -/
theorem alloc_took (hwf : s.pmem.Wf live) (hreq : s.pmem.AllocSafe m) (ha : s.alloc m = some (ptr, s')) :
    (ptr = NULL ∧ Took noPage s s') ∨
      ∃ b, ptr = s'.pmem.pageAddr b.page ∧ ptr ≠ NULL ∧ getOrder m.toNat = b.order ∧
        s'.pmem.Wf (b :: live) ∧ Took (· ∈ b) s s' := by
  have hsafe := alloc_safe hreq ha
  unfold Vmem.alloc at ha
  obtain ⟨⟨ptr', p⟩, hp, heq⟩ := Option.map_eq_some_iff.mp ha
  simp only [Prod.mk.injEq] at heq
  obtain ⟨rfl, rfl⟩ := heq
  rcases hwf.pmemAllocPages m hreq with ⟨p', hcall, hwf', hsame, -⟩ | ⟨b, p', hcall, hne, hh, hord⟩
  · rw [hcall] at hp
    cases hp
    exact .inl ⟨rfl, Took.of_pmem hwf hwf' hsame rfl hsafe⟩
  · rw [hcall] at hp
    cases hp
    exact .inr ⟨b, (hh.same.pageAddr _).symm, hne, hord, hh.wf, Took.of_block hwf hh.wf hh.same rfl hsafe⟩

/-- The walk takes pages for tables. -/
theorem walkLevels_took {l : Nat} (hwf : s.pmem.Wf live)
    (hw : walkLevels pid va l s = some (ok, s')) : Took noPage s s' := by
  induction l generalizing s live with
  | zero =>
    cases hw
    exact Took.refl hwf
  | succ l ih =>
    unfold walkLevels at hw
    split at hw
    · exact ih hwf hw
    · rename_i hnull
      obtain ⟨⟨pt, s₁⟩, ha, hw⟩ := Option.bind_eq_some_iff.mp hw
      have hdir := (alloc_frame ha).2.1
      simp only at hw
      rcases alloc_took hwf hwf.allocSafe_one ha with ⟨rfl, htook⟩ | ⟨b, hpt, hne, hord, hwf₁, htook⟩
      · rw [if_pos rfl] at hw
        cases hw
        exact htook
      · rw [if_neg hne] at hw
        have hzero : b = ⟨b.page, 0⟩ := block_of_getOrder_one hord
        -- the page of the block is the new table
        have hset : Took noPage s (s₁.setDir pid (l + 1) (dirIndex va (l + 1)) pt) := by
          refine ⟨⟨_, hwf₁⟩, htook.same, ?_, htook.safe, ?_⟩
          · intro pid' l' i' hne'
            rw [setDir_dir, if_neg, hdir]
            rintro ⟨rfl, rfl, rfl⟩
            exact hnull hne'
          · intro q hq
            rcases htook.taken q hq with hfree | ⟨pid', l', i', hne', hpage⟩ | hqb
            · exact .inl hfree
            · refine .inr (.inl ⟨pid', l', i', ?_⟩)
              rw [setDir_dir, if_neg]
              · exact ⟨hne', hpage⟩
              · rintro ⟨rfl, rfl, rfl⟩
                rw [hdir] at hne'
                exact hnull hne'
            · refine .inr (.inl ⟨pid, l + 1, dirIndex va (l + 1), ?_⟩)
              rw [setDir_dir, if_pos ⟨rfl, rfl, rfl⟩]
              refine ⟨hne, hpt.trans (congrArg _ ?_)⟩
              rw [hzero] at hqb
              simp only [Block.mem_def, pow_zero] at hqb
              omega
        have hwf₁' : (s₁.setDir pid (l + 1) (dirIndex va (l + 1)) pt).pmem.Wf (b :: live) := hwf₁
        exact hset.transTables (ih hwf₁' hw)

theorem walkAlloc_took (hwf : s.pmem.Wf live) (hw : walkAlloc arch pid va s = some (ok, s')) : Took noPage s s' := by
  unfold walkAlloc at hw
  split at hw
  · cases hw
  · exact walkLevels_took hwf hw

/-- An entry changes: no page is taken. -/
theorem Took.setLeaf (h : Took D s s₁) (pid vpn : Nat) (pte : Pte) : Took D s (s₁.setLeaf pid vpn pte) :=
  ⟨h.wf, h.same, h.dir, h.safe, h.taken⟩

/-- So does `mappages`. -/
theorem mappages_took (hwf : s.pmem.Wf live)
    (hcall : mappages arch pid va pa len perm s = some (r, s')) : Took noPage s s' := by
  have hloop : ∀ n current pa s live, s.pmem.Wf live →
      mappagesLoop arch pid perm (pgRoundDown (sub64 (add64 va len) 1)) n current pa s = some (r, s') →
      Took noPage s s' := by
    intro n
    induction n with
    | zero =>
      intro current pa s live _ hcall
      cases hcall
    | succ n ih =>
      intro current pa s live hwf hcall
      obtain ⟨s₁, hwalk, hround⟩ := mappagesLoop_succ hcall
      have htook := walkAlloc_took hwf hwalk
      rcases hround with ⟨-, -, rfl⟩ | ⟨-, ⟨-, -, rfl⟩ | ⟨-, hrest⟩⟩
      · exact htook
      · exact htook.setLeaf _ _ _
      · have hset := htook.setLeaf pid (current / PGSIZE) ⟨pa, perm ||| PTE_V⟩
        obtain ⟨live₁, hwf₁⟩ := hset.wf
        exact hset.transTables (ih _ _ _ live₁ hwf₁ hrest)
  unfold mappages at hcall
  split at hcall
  · cases hcall
  · exact hloop _ _ _ s live hwf hcall

/-! ## The entries that a call keeps -/

/-- The valid entries are as they were. -/
def Keeps (s s' : Vmem) : Prop := ∀ pid v, (s.leaf pid v).valid = true → s'.leaf pid v = s.leaf pid v

theorem Keeps.of_leaf (hleaf : s'.leaf = s.leaf) : Keeps s s' := fun _ _ _ => by rw [hleaf]

theorem Keeps.trans (h₁ : Keeps s s₁) (h₂ : Keeps s₁ s') : Keeps s s' := by
  intro pid v hv
  have h := h₁ pid v hv
  rw [h₂ pid v (by rw [h]; exact hv), h]

theorem Keeps.valid (h : Keeps s s') (hv : (s.leaf pid v).valid = true) : (s'.leaf pid v).valid = true := by
  rw [h pid v hv]
  exact hv

theorem free_leaf (hf : s.free ptr m = some s') : s'.leaf = s.leaf := by
  obtain ⟨p, -, rfl⟩ := Option.map_eq_some_iff.mp hf
  rfl

theorem walkAlloc_leaf (hw : walkAlloc arch pid va s = some (ok, s')) : s'.leaf = s.leaf := by
  have hlevels : ∀ l s, walkLevels pid va l s = some (ok, s') → s'.leaf = s.leaf := by
    intro l
    induction l with
    | zero =>
      intro s hw
      cases hw
      rfl
    | succ l ih =>
      intro s hw
      unfold walkLevels at hw
      split at hw
      · exact ih s hw
      · obtain ⟨⟨pt, s₁⟩, ha, hw⟩ := Option.bind_eq_some_iff.mp hw
        have hleaf := (alloc_frame ha).1
        simp only at hw
        split at hw
        · cases hw
          exact hleaf
        · exact (ih _ hw).trans hleaf
  unfold walkAlloc at hw
  split at hw
  · cases hw
  · exact hlevels _ s hw

/-- An entry is written that was not valid. -/
theorem Keeps.setLeaf {vpn : Nat} {pte : Pte} (hnot : (s.leaf pid vpn).valid = false) :
    Keeps s (s.setLeaf pid vpn pte) := by
  intro pid' v hv
  rw [setLeaf_leaf, if_neg]
  rintro ⟨rfl, rfl⟩
  rw [hv] at hnot
  cases hnot

theorem mappagesLoop_keeps {current : Nat}
    (hcall : mappagesLoop arch pid perm end_ n current pa s = some (r, s')) : Keeps s s' := by
  induction n generalizing s current pa with
  | zero => cases hcall
  | succ n ih =>
    obtain ⟨s₁, hwalk, hround⟩ := mappagesLoop_succ hcall
    have hwalked := Keeps.of_leaf (walkAlloc_leaf hwalk)
    rcases hround with ⟨-, -, rfl⟩ | ⟨hnot, ⟨-, -, rfl⟩ | ⟨-, hrest⟩⟩
    · exact hwalked
    · exact hwalked.trans (.setLeaf hnot)
    · exact (hwalked.trans (.setLeaf hnot)).trans (ih hrest)

/-- What `mappages` does at its first page: it gives up there, or the entry is valid afterwards. -/
theorem mappages_first (hcall : mappages arch pid (lo * PGSIZE) pa len perm s = some (r, s')) :
    Keeps s s' ∧ (s'.leaf pid lo).valid = true ∧
      ((s.leaf pid lo).valid = true → r = -EINVAL ∧ walkAlloc arch pid (lo * PGSIZE) s = some (true, s')) := by
  have hdiv : lo * PGSIZE / PGSIZE = lo := Nat.mul_div_cancel _ (by decide)
  have hfirst : pgRoundDown (lo * PGSIZE) = lo * PGSIZE := by rw [pgRoundDown, hdiv]
  unfold mappages at hcall
  split at hcall
  · cases hcall
  · rw [hfirst] at hcall
    refine ⟨mappagesLoop_keeps hcall, ?_⟩
    obtain ⟨s₁, hwalk, hround⟩ := mappagesLoop_succ hcall
    have hleaf := walkAlloc_leaf hwalk
    rw [hdiv] at hround
    have hset : ∀ pte : Pte, pte.valid = true → ((s₁.setLeaf pid lo pte).leaf pid lo).valid = true := by
      intro pte hpte
      rw [setLeaf_leaf, if_pos ⟨rfl, rfl⟩]
      exact hpte
    rcases hround with ⟨hv, hr, rfl⟩ | ⟨hnot, hround⟩
    · exact ⟨hv, fun _ => ⟨hr, hwalk⟩⟩
    · refine ⟨?_, fun hv => ?_⟩
      · rcases hround with ⟨-, -, rfl⟩ | ⟨-, hrest⟩
        · exact hset _ (valid_mk _ _)
        · exact (mappagesLoop_keeps hrest).valid (hset _ (valid_mk _ _))
      · rw [hleaf, hv] at hnot
        cases hnot

/-! ## A page that is mapped already -/

/-- A new block was given back; nobody held a page of it. -/
theorem Grown.release (hg : Grown arch P s₀ s live₀ live) (hb : b ∈ live)
    (hnew : ∀ q ∈ b, ¬LivePage live₀ q ∧ s.Unheld q) (hwf : s'.pmem.Wf (live.erase b))
    (hsame : SameRegion s.pmem s'.pmem) (hmem : s'.pmem.mem = s.pmem.mem) (hleaf : s'.leaf = s.leaf)
    (hdir : s'.dir = s.dir) : Grown arch P s₀ s' live₀ (live.erase b) := by
  have hkept : ∀ b' ∈ live, b' ≠ b → b' ∈ live.erase b := fun b' hb' hne =>
    (hg.ok.wf.nodup.mem_erase_iff).mpr ⟨hne, hb'⟩
  refine ⟨⟨hwf, ?_, ?_, ?_, ?_⟩, ?_, ?_, ?_, ?_, hg.same.trans hsame, ?_, ?_⟩
  · intro x a hx
    have hx' : s.Holds x a := (holds_congr hleaf hdir).mp hx
    obtain ⟨q, rfl, b', hb', hq⟩ := hg.ok.held x a hx'
    refine ⟨q, (hsame.pageAddr q).symm, b', hkept b' hb' ?_, hq⟩
    rintro rfl
    exact (hnew q hq).2 x hx'
  · intro pid l i hne
    rw [hdir] at hne ⊢
    obtain ⟨q, hq, hb'⟩ := hg.ok.alone pid l i hne
    refine ⟨q, by rw [hq, hsame.pageAddr], hkept _ hb' ?_⟩
    rintro rfl
    exact (hnew q (Block.page_mem _)).2 (.dir pid l i) ⟨hne, hq⟩
  · rw [hleaf, hdir]
    exact hg.ok.tables
  · rw [hleaf]
    exact hg.ok.flags
  · intro pid v hv
    rw [hleaf]
    exact hg.leaf pid v hv
  · intro pid l i hne
    rw [hdir]
    exact hg.dir pid l i hne
  · intro x q hx hq
    exact hg.new x q ((holds_congr hleaf hdir).mp hx) hq
  · intro x y a hx hy
    exact hg.one x y a ((holds_congr hleaf hdir).mp hx) ((holds_congr hleaf hdir).mp hy)
  · intro b' hb'
    refine hkept b' (hg.sub b' hb') ?_
    rintro rfl
    exact (hnew _ b'.page_mem).1 ⟨b', hb', b'.page_mem⟩
  · rw [hmem]
    exact hg.mem

/-- `mappages` gives up at a first page that is mapped. -/
theorem mappages_remap (h : s.Ok arch live) (hsafe : s'.Safe) (hv : (s.leaf pid lo).valid = true)
    (hcall : mappages arch pid (lo * PGSIZE) pa len perm s = some (r, s')) :
    r = -EINVAL ∧ ∃ live', Grown arch nowhere s s' live live' := by
  obtain ⟨hr, hwalk⟩ := (mappages_first hcall).2.2 hv
  obtain ⟨-, live', hg, -⟩ := walkAlloc_spec h hsafe hwalk
  exact ⟨hr, live', hg⟩

/-- A new block whose mapping is refused at the first page is given back. -/
theorem refused {pa len perm m r} (hg : Grown arch P s₀ t live₀ live) (hb : b ∈ live)
    (hpa : pa = t.pmem.pageAddr b.page) (hnew : ∀ q ∈ b, ¬LivePage live₀ q ∧ t.Unheld q)
    (hm : 0 < m) (hroom : m ≤ 2 ^ b.order) (hv : (t.leaf pid lo).valid = true) (hsafe : s₂.Safe)
    (hmap : mappages arch pid (lo * PGSIZE) pa len perm t = some (r, s₂))
    (hfree : s₂.free pa m = some s') :
    ∃ live', Grown arch P s₀ s' live₀ live' ∧ s'.leaf = t.leaf ∧ s'.dir = s₂.dir ∧
      SameRegion s₂.pmem s'.pmem ∧ ∀ q, s₂.pmem.FreePage q ∨ q ∈ b → s'.pmem.FreePage q := by
  obtain ⟨-, live₂, hw⟩ := mappages_remap hg.ok hsafe hv hmap
  have hb₂ : b ∈ live₂ := hw.sub b hb
  have hpa₂ : pa = s₂.pmem.pageAddr b.page := by rw [hpa, hw.same.pageAddr]
  obtain ⟨p, hcall, hwf, hsame, hmem⟩ := hw.ok.wf.pmemFreePages hb₂ b.page_mem hm hroom
  unfold Vmem.free at hfree
  rw [hpa₂, hcall, Option.map_some] at hfree
  cases hfree
  have hnew₂ : ∀ q ∈ b, ¬LivePage live₀ q ∧ s₂.Unheld q := fun q hq =>
    ⟨(hnew q hq).1, hw.unheld ⟨b, hb, hq⟩ (hnew q hq).2⟩
  refine ⟨live₂.erase b, (hg.trans (hw.mono fun _ _ h => h.elim)).release hb₂ hnew₂ hwf hsame hmem rfl rfl,
    hw.leaf_eq, rfl, hsame, ?_⟩
  intro q hq
  refine hwf.freePage_iff.mpr ?_
  rw [Pmem.managed_congr hsame]
  rcases hq with hq | hq
  · obtain ⟨hmanaged, hnot⟩ := hw.ok.wf.freePage_iff.mp hq
    refine ⟨hmanaged, ?_⟩
    rintro ⟨b', hb', hq'⟩
    exact hnot ⟨b', List.mem_of_mem_erase hb', hq'⟩
  · refine ⟨hw.ok.wf.managed hb₂ hq, ?_⟩
    rintro ⟨b', hb', hq'⟩
    obtain ⟨hne, hb''⟩ := (hw.ok.wf.nodup.mem_erase_iff).mp hb'
    exact hne (hw.ok.wf.eq_of_mem hb'' hb₂ hq' hq)

/-! ## One page of the second attempt -/

theorem tryPage_cases (hcall : tryPage arch pid a perm s = some (made, s')) :
    (made = none ∧ s.alloc 1 = some (NULL, s')) ∨
      ∃ mem s₁ s₂ r, mem ≠ NULL ∧ s.alloc 1 = some (mem, s₁) ∧
        mappages arch pid a mem PGSIZE (userPerm arch perm) (s₁.memset mem PGSIZE) = some (r, s₂) ∧
        ((made = some true ∧ r = 1 ∧ s' = s₂) ∨ (made = some false ∧ r ≠ 1 ∧ s₂.free mem 1 = some s')) := by
  unfold tryPage at hcall
  obtain ⟨⟨mem, s₁⟩, ha, hcall⟩ := Option.bind_eq_some_iff.mp hcall
  simp only at hcall
  split at hcall
  · rename_i hnull
    rw [hnull] at ha
    cases hcall
    exact .inl ⟨rfl, ha⟩
  · rename_i hne
    obtain ⟨⟨r, s₂⟩, hmap, hcall⟩ := Option.bind_eq_some_iff.mp hcall
    refine .inr ⟨mem, s₁, s₂, r, hne, ha, hmap, ?_⟩
    simp only at hcall
    split at hcall
    · rename_i hr
      cases hcall
      exact .inl ⟨rfl, hr, rfl⟩
    · rename_i hr
      obtain ⟨s₃, hf, heq⟩ := Option.map_eq_some_iff.mp hcall
      cases heq
      exact .inr ⟨rfl, hr, hf⟩

/-- A single page that was mapped. -/
theorem mappages_one (hk : k * PGSIZE < MAXVA arch)
    (hcall : mappages arch pid (k * PGSIZE) pa PGSIZE perm s = some (1, s')) :
    s'.leaf pid k = ⟨pa, perm ||| PTE_V⟩ := by
  have hdiv : k * PGSIZE / PGSIZE = k := Nat.mul_div_cancel _ (by decide)
  have hfirst : pgRoundDown (k * PGSIZE) = k * PGSIZE := by rw [pgRoundDown, hdiv]
  have hlast : pgRoundDown (sub64 (add64 (k * PGSIZE) PGSIZE) 1) = k * PGSIZE := by
    have hmax := MAXVA_le arch
    simp only [pgRoundDown, sub64, add64, PGSIZE] at hk ⊢
    omega
  unfold mappages at hcall
  split at hcall
  · cases hcall
  · rw [hfirst, hlast] at hcall
    obtain ⟨s₁, -, hround⟩ := mappagesLoop_succ hcall
    rw [hdiv] at hround
    rcases hround with ⟨-, hr, -⟩ | ⟨-, ⟨-, -, rfl⟩ | ⟨hne, -⟩⟩
    · cases hr
    · rw [setLeaf_leaf, if_pos ⟨rfl, rfl⟩]
    · exact absurd rfl hne

/-- Memory was only added outside the range. -/
theorem Filling.of_grown (h : Filling arch pid s₀ live₀ lo hi k s live)
    (hg : Grown arch nowhere s s' live live') : Filling arch pid s₀ live₀ lo hi k s' live' where
  grown := h.grown.trans (hg.mono fun _ _ h => h.elim)
  le := h.le
  single := by
    intro v h1 h2
    rw [hg.leaf_eq]
    obtain ⟨q, hpa, hq, hnew⟩ := h.single v h1 h2
    exact ⟨q, by rw [hpa, hg.same.pageAddr], hg.sub _ hq, hnew⟩
  vacant := by
    intro v h1 h2
    rw [hg.leaf_eq]
    exact h.vacant v h1 h2
  top := h.top

/-- The second attempt has filled `[lo, k)`; what it took is mapped there, or a table. -/
structure Filled (arch : Arch) (pid : Nat) (s₀ : Vmem) (live₀ : List Block) (lo hi k : Nat) (s : Vmem)
    (live : List Block) : Prop extends Filling arch pid s₀ live₀ lo hi k s live where
  valid : ∀ v, lo ≤ v → v < k → (s.leaf pid v).valid = true
  took : Took (s.MappedIn pid lo k) s₀ s

namespace Filled

theorem start (hg : Grown arch nowhere s₀ s live₀ live) (htook : Took noPage s₀ s)
    (hvac : s.Vacant pid lo hi) : Filled arch pid s₀ live₀ lo hi lo s live where
  toFilling := Filling.start (hg.mono fun _ _ h => h.elim) hvac
  valid := fun _ h1 h2 => absurd h2 (Nat.not_lt.mpr h1)
  took := htook.mono fun _ h => h.elim

theorem of_grown (h : Filled arch pid s₀ live₀ lo hi k s live)
    (hg : Grown arch nowhere s s' live live') (htook : Took noPage s s') :
    Filled arch pid s₀ live₀ lo hi k s' live' where
  toFilling := h.toFilling.of_grown hg
  valid := by
    rw [hg.leaf_eq]
    exact h.valid
  took := by
    refine (h.took.transTables htook).mono ?_
    rintro q ⟨v, h1, h2, hv, hpa⟩
    refine ⟨v, h1, h2, ?_⟩
    rw [hg.leaf_eq, hg.same.pageAddr]
    exact ⟨hv, hpa⟩

end Filled

/-- A page that is mapped already is left alone, and what was taken for it is given back. -/
theorem tryPage_refused (h : s.Ok arch live) (hsafe : s.Safe)
    (hv : (s.leaf pid k).valid = true) (hcall : tryPage arch pid (k * PGSIZE) perm s = some (made, s')) :
    made ≠ some true ∧ ∃ live', Grown arch nowhere s s' live live' ∧ Took noPage s s' := by
  rcases tryPage_cases hcall with ⟨rfl, ha⟩ | ⟨mem, s₁, s₂, r, hne, ha, hmap, hres⟩
  · rcases alloc_took h.wf h.wf.allocSafe_one ha with ⟨-, htook⟩ | ⟨b, -, hnull, -⟩
    · rcases h.alloc (htook.safe hsafe) ha with ⟨-, hg⟩ | ⟨b, -, hnull, -⟩
      · exact ⟨by simp, live, hg, htook⟩
      · exact absurd rfl hnull
    · exact absurd rfl hnull
  · have hsafe₁ : s₁.Safe := alloc_safe h.wf.allocSafe_one ha hsafe
    have hg₀ : Grown arch nowhere s s live live := Grown.refl h
    obtain ⟨b, hptr, hord, hg, hpages⟩ := hg₀.fresh (n := 1) hsafe₁ (le_refl _) hne ha
    have hzero : b = ⟨b.page, 0⟩ := block_of_getOrder_one hord
    rw [Nat.one_mul] at hptr hg hpages
    have htook₁ : Took (· ∈ b) s (s₁.memset mem PGSIZE) :=
      Took.of_block h.wf hg.ok.wf hg.same (alloc_frame ha).2.1 fun _ => hsafe₁
    have htook₂ := mappages_took hg.ok.wf hmap
    have hsafe₂ : s₂.Safe := htook₂.safe hsafe₁
    have hleaf₁ : (s₁.memset mem PGSIZE).leaf = s.leaf := (alloc_frame ha).1
    have hv₁ : ((s₁.memset mem PGSIZE).leaf pid k).valid = true := by
      rw [hleaf₁]
      exact hv
    have hnew : ∀ q ∈ b, ¬LivePage live q ∧ (s₁.memset mem PGSIZE).Unheld q := by
      intro q hq
      rw [hzero] at hq
      simp only [Block.mem_def, pow_zero] at hq
      obtain ⟨hnot, -, hun⟩ := hpages 0 Nat.one_pos
      rw [show q = b.page + 0 by omega]
      exact ⟨hnot, hun⟩
    rcases hres with ⟨-, rfl, -⟩ | ⟨rfl, -, hfree⟩
    · obtain ⟨hr, -⟩ := mappages_remap hg.ok hsafe₂ hv₁ hmap
      cases hr
    · obtain ⟨live', hg', hleaf', hdir', hsame', hback⟩ := refused hg (List.mem_cons_self ..) hptr hnew
        Int.one_pos (by rw [hzero, pow_zero]) hv₁ hsafe₂ hmap hfree
      exact ⟨by simp, live', hg',
        (htook₁.transTables htook₂).release hg'.ok.wf hsame' hdir' (free_asked hfree) hback⟩

namespace Filled

/-- A page that can be had is filled. -/
theorem tryPage {perm : Nat} {made : Option Bool} (h : Filled arch pid s₀ live₀ lo hi k s live)
    (hk : k < hi) (hsafe : s₀.Safe) (hcall : tryPage arch pid (k * PGSIZE) perm s = some (made, s')) :
    (made = none ∧ ∃ live', Filled arch pid s₀ live₀ lo hi k s' live') ∨
      (made = some true ∧ ∃ live', Filled arch pid s₀ live₀ lo hi (k + 1) s' live') := by
  have hwf := h.grown.ok.wf
  have hsafe₀ := h.took.safe hsafe
  rcases tryPage_cases hcall with ⟨rfl, ha⟩ | ⟨mem, s₁, s₂, r, hne, ha, hmap, hres⟩
  · rcases alloc_took hwf hwf.allocSafe_one ha with ⟨-, htook⟩ | ⟨b, -, hnull, -⟩
    · rcases h.grown.ok.alloc (htook.safe hsafe₀) ha with ⟨-, hg⟩ | ⟨b, -, hnull, -⟩
      · exact .inl ⟨rfl, live, h.of_grown hg htook⟩
      · exact absurd rfl hnull
    · exact absurd rfl hnull
  · rcases alloc_took hwf hwf.allocSafe_one ha with ⟨hnull, -⟩ | ⟨b, hpt, -, hord, hwf₁, htook₁⟩
    · exact absurd hnull hne
    · have hzero : b = ⟨b.page, 0⟩ := block_of_getOrder_one hord
      have hwf₁' : (s₁.memset mem PGSIZE).pmem.Wf (b :: live) := hwf₁.setMem _
      have hset : Took noPage s₁ (s₁.memset mem PGSIZE) := Took.of_pmem hwf₁ hwf₁' ⟨rfl, rfl, rfl⟩ rfl id
      have htook₂ := mappages_took hwf₁' hmap
      have hkept := (mappages_first hmap).1
      have htook : Took (· ∈ b) s s₂ := (htook₁.transTables hset).transTables htook₂
      have hleaf₁ : (s₁.memset mem PGSIZE).leaf = s.leaf := (alloc_frame ha).1
      unfold Keeps at hkept
      rw [hleaf₁] at hkept
      have hsafe' : s'.Safe := by
        rcases hres with ⟨-, -, rfl⟩ | ⟨-, -, hfree⟩
        · exact htook.safe hsafe₀
        · intro req hreq
          rw [free_asked hfree] at hreq
          exact htook.safe hsafe₀ req hreq
      rcases h.toFilling.tryPage hk hsafe' hcall with ⟨hnone, -⟩ | ⟨htrue, hva, live', hf⟩
      · rcases hres with ⟨hmade, -⟩ | ⟨hmade, -⟩
        · rw [hnone] at hmade
          cases hmade
        · rw [hnone] at hmade
          cases hmade
      · rcases hres with ⟨rfl, rfl, rfl⟩ | ⟨hmade, -⟩
        · have hlast := mappages_one hva hmap
          refine .inr ⟨rfl, live', hf, ?_, ?_⟩
          · intro v h1 h2
            by_cases hv : v = k
            · rw [hv, hlast]
              exact valid_mk _ _
            · have hvalid := h.valid v h1 (by omega)
              rw [hkept pid v hvalid]
              exact hvalid
          · refine (h.took.trans htook).mono ?_
            rintro q (⟨v, h1, h2, hv, hpa⟩ | hq)
            · refine ⟨v, h1, by omega, ?_⟩
              rw [hkept pid v hv, htook.same.pageAddr]
              exact ⟨hv, hpa⟩
            · refine ⟨k, h.le, by omega, ?_⟩
              rw [hlast]
              refine ⟨valid_mk _ _, hpt.trans ?_⟩
              rw [hzero] at hq
              simp only [Block.mem_def, pow_zero] at hq
              rw [htook.same.pageAddr, htook₁.same.pageAddr, show b.page = q by omega]
        · rw [htrue] at hmade
          cases hmade

/-- Every filled page has a physical page of its own. -/
theorem count_le (h₀ : s₀.Ok arch live₀) (h : Filled arch pid s₀ live₀ lo hi k s live) :
    k - lo ≤ s₀.pmem.totalPages := by
  choose! f hpa hlive hnew using h.single
  have hmaps : ∀ v ∈ Finset.Ico lo k, f v ∈ Finset.range s₀.pmem.totalPages := by
    intro v hv
    obtain ⟨h1, h2⟩ := Finset.mem_Ico.mp hv
    have hlt := (h.grown.ok.wf.placed (hlive v h1 h2)).page_lt
    rw [h.grown.same.totalPages] at hlt
    exact Finset.mem_range.mpr hlt
  have hinj : ∀ v ∈ Finset.Ico lo k, ∀ v' ∈ Finset.Ico lo k, f v = f v' → v = v' := by
    intro v hv v' hv' heq
    obtain ⟨h1, h2⟩ := Finset.mem_Ico.mp hv
    obtain ⟨h1', h2'⟩ := Finset.mem_Ico.mp hv'
    have hx : s.Holds (.leaf pid v) (s.pmem.pageAddr (f v)) := ⟨h.valid v h1 h2, hpa v h1 h2⟩
    have hy : s.Holds (.leaf pid v') (s.pmem.pageAddr (f v)) :=
      ⟨h.valid v' h1' h2', by rw [heq]; exact hpa v' h1' h2'⟩
    rcases h.grown.one _ _ _ hx hy with hsame | ⟨hx₀, -⟩
    · cases hsame
      rfl
    · -- the page was nobody's when the call began
      obtain ⟨q, hq, hlive₀⟩ := h₀.held _ _ hx₀
      rw [h.grown.same.pageAddr] at hq
      rw [← Pmem.pageAddr_inj hq] at hlive₀
      exact absurd hlive₀ (hnew v h1 h2)
  have hcard := Finset.card_le_card_of_injOn f hmaps hinj
  rwa [Nat.card_Ico, Finset.card_range] at hcard

end Filled

/-! ## No trace -/

/-- A failed call left nothing behind but page tables: the entries read as before, no page that is
mapped is free, and every other page that the call took is free again, as are no others. -/
structure NoTrace (s s' : Vmem) : Prop where
  entries : ∀ pid v, (s.leaf pid v).valid = true ∨ (s'.leaf pid v).valid = true → s'.leaf pid v = s.leaf pid v
  mapped : ∀ q, s'.Mapped q → ¬s'.pmem.FreePage q
  allocator : ∃ live, s'.pmem.Wf live
  returned : ∀ q, s.pmem.FreePage q → s'.pmem.FreePage q ∨ s'.IsTable q
  kept : ∀ q, s'.pmem.FreePage q → s.pmem.FreePage q

/-- The entry of a page that was not mapped is a trace. -/
theorem NoTrace.valid (h : NoTrace s s') (hv : (s'.leaf pid v).valid = true) : (s.leaf pid v).valid = true := by
  rw [← h.entries pid v (.inr hv)]
  exact hv

/-- Only tables were added. -/
theorem NoTrace.of_grown (h₀ : s.Ok arch live) (hg : Grown arch nowhere s s' live live')
    (htook : Took noPage s s') : NoTrace s s' where
  entries := fun pid v _ => by rw [hg.leaf_eq]
  mapped := fun q => hg.ok.mapped_not_free
  allocator := ⟨live', hg.ok.wf⟩
  returned := fun q hq => (htook.taken q hq).imp_right fun h => h.resolve_right id
  kept := fun q => h₀.wf.freePage_mono hg.ok.wf hg.same hg.sub

/-- The filled pages were unmapped. -/
theorem Filled.noTrace (h₀ : s₀.Ok arch live₀) (hvac : s₀.Vacant pid lo hi)
    (h : Filled arch pid s₀ live₀ lo hi k s live) (hk : k ≤ hi)
    (hu : Unmapped true s s' pid lo k live live') : NoTrace s₀ s' := by
  have hg := h.toFilling.unmapped h₀ hk hu
  refine ⟨?_, fun q => hg.ok.mapped_not_free, ⟨live', hu.wf⟩, ?_, fun q => h₀.wf.freePage_mono hu.wf hg.same hg.sub⟩
  · intro pid' v hv
    by_cases hin : pid' = pid ∧ lo ≤ v ∧ v < hi
    · -- in the range no page is mapped, before and after
      obtain ⟨rfl, h1, h2⟩ := hin
      have hnot : (s'.leaf pid' v).valid = false := by
        by_cases hv : v < k
        · exact hu.leaf_on h1 hv
        · rw [hu.leaf_off (by omega)]
          exact h.vacant v (by omega) h2
      rw [hvac v h1 h2, hnot] at hv
      rcases hv with hv | hv
      · cases hv
      · cases hv
    · exact hg.leaf pid' v hin
  · intro q hq
    rcases h.took.taken q hq with hfree | ⟨pid', l, i, htable⟩ | hmap
    · refine .inl (hu.wf.freePage_iff.mpr ?_)
      obtain ⟨hm, hnot⟩ := h.grown.ok.wf.freePage_iff.mp hfree
      rw [Pmem.managed_congr hu.same]
      refine ⟨hm, ?_⟩
      rintro ⟨b, hb, hqb⟩
      exact hnot ⟨b, ((hu.live b).mp hb).1, hqb⟩
    · refine .inr ⟨pid', l, i, ?_⟩
      rw [hu.dir, hu.same.pageAddr]
      exact htable
    · obtain ⟨b, hb, hqb⟩ := h.grown.ok.mapped_live hmap.mapped
      refine .inl ((h.grown.ok.freed_iff hu).mpr ⟨q, hmap, ?_⟩).1
      rw [h.grown.ok.wf.blockOf hb hqb]
      exact hqb

/-- The second attempt fails: what it filled before the first page that is mapped is unmapped again. -/
theorem fillLoop_noTrace (h₀ : s₀.Ok arch live₀) (hsafe : s₀.Safe)
    (hpages : s₀.pmem.totalPages < 2 ^ 31) (hvac : s₀.Vacant pid lo hi)
    (hcut : pageCeil end_ ≤ hi ∨ (s₀.leaf pid hi).valid = true)
    (hundo : ∀ a made t t' r, undo a made t = some (r, t') →
      undoGrow arch pid (lo * PGSIZE) a made t = some (r, t'))
    (h : Filled arch pid s₀ live₀ lo hi k s live) (hk : k ≤ hi)
    (hcall : fillLoop arch pid end_ perm done undo n (k * PGSIZE) s = some (r, s')) :
    r = done ∨ NoTrace s₀ s' := by
  induction n generalizing s k live with
  | zero =>
    rw [fillLoop] at hcall
    split at hcall
    · cases hcall
    · cases hcall
      exact .inl rfl
  | succ n ih =>
    rw [fillLoop] at hcall
    split at hcall
    · rename_i hlt
      have hceil : k < pageCeil end_ := lt_pageCeil.mpr hlt
      obtain ⟨⟨made, s₁⟩, hpage, hcall⟩ := Option.bind_eq_some_iff.mp hcall
      simp only at hcall
      -- the clean-up after the pages before `k` were filled
      have hclean : ∀ {live}, Filled arch pid s₀ live₀ lo hi k s₁ live →
          undo (k * PGSIZE) made s₁ = some (r, s') → NoTrace s₀ s' := by
        intro live h₁ hrun
        obtain ⟨⟨m, t⟩, hdealloc, heq⟩ := Option.map_eq_some_iff.mp (hundo _ _ _ _ _ hrun)
        cases heq
        have hcount := h₁.count_le h₀
        obtain ⟨live', hu⟩ := h₁.toFilling.uvmdealloc_unmapped (by omega) hdealloc
        exact h₁.noTrace h₀ hvac hk hu
      by_cases hkhi : k < hi
      · rcases h.tryPage hkhi hsafe hpage with ⟨rfl, live₁, h₁⟩ | ⟨rfl, live₁, h₁⟩
        · rw [if_neg (by simp)] at hcall
          exact .inr (hclean h₁ hcall)
        · rw [if_pos rfl, add64_page (tryPage_lt hpage)] at hcall
          exact ih h₁ (by omega) hcall
      · obtain rfl : k = hi := by omega
        have hv : (s.leaf pid k).valid = true := by
          have hleaf := h.grown.leaf pid k fun hin => Nat.lt_irrefl k hin.2.2
          rw [hleaf]
          exact hcut.resolve_left (by omega)
        obtain ⟨hmade, live₁, hg, htook⟩ := tryPage_refused h.grown.ok (h.took.safe hsafe) hv hpage
        rw [if_neg hmade] at hcall
        exact .inr (hclean (h.of_grown hg htook) hcall)
    · cases hcall
      exact .inl rfl

/-! ## The first attempt -/

/-- The allocator has a block for a range of `npages` pages. -/
def HasBlock (s : Vmem) (npages : Nat) : Prop :=
  0 < npages ∧ ∃ ptr pmem, s.pmem.pmemAllocPages (toInt32 npages) = some (ptr, pmem) ∧ ptr ≠ NULL

theorem tryBlock_cases {npages : Nat} (hcall : tryBlock arch pid va npages perm s = some (tr, s')) :
    (tr = .noMemory ∧ ¬s.HasBlock npages ∧
        (s' = s ∨ s.alloc (toInt32 npages) = some (NULL, s'))) ∨
      s.HasBlock npages ∧ ∃ mem s₁ s₂ r, mem ≠ NULL ∧ s.alloc (toInt32 npages) = some (mem, s₁) ∧
        mappages arch pid va mem (npages * PGSIZE) (userPerm arch perm) (s₁.memset mem (npages * PGSIZE)) =
          some (r, s₂) ∧
        (tr = .mapped ∨ (tr = .refused ∧ r ≠ 1 ∧ s₂.free mem (toInt32 npages) = some s')) := by
  unfold tryBlock at hcall
  split at hcall
  · rename_i hn
    obtain ⟨⟨mem, s₁⟩, ha, hcall⟩ := Option.bind_eq_some_iff.mp hcall
    obtain ⟨⟨ptr, pmem⟩, hp, heq⟩ := Option.map_eq_some_iff.mp ha
    obtain ⟨rfl, -⟩ := Prod.mk.inj heq
    simp only at hcall
    split at hcall
    · rename_i hne
      obtain ⟨⟨r, s₂⟩, hmap, hcall⟩ := Option.bind_eq_some_iff.mp hcall
      refine .inr ⟨⟨hn, ptr, pmem, hp, hne⟩, ptr, s₁, s₂, r, hne, ha, hmap, ?_⟩
      simp only at hcall
      split at hcall
      · cases hcall
        exact .inl rfl
      · rename_i hr
        obtain ⟨s₃, hf, heq⟩ := Option.map_eq_some_iff.mp hcall
        cases heq
        exact .inr ⟨rfl, hr, hf⟩
    · rename_i hnull
      have hnull' : ptr = NULL := not_not.mp hnull
      cases hcall
      refine .inl ⟨rfl, ?_, .inr (by rw [ha, hnull'])⟩
      rintro ⟨-, ptr', pmem', hp', hne⟩
      rw [hp] at hp'
      cases hp'
      exact hnull hne
  · rename_i hn
    cases hcall
    exact .inl ⟨rfl, fun h => hn h.1, .inl rfl⟩

/-- The state with other contents of the memory. -/
def withMem (s : Vmem) (mem : Nat → UInt8) : Vmem := { s with pmem := { s.pmem with mem } }

theorem Ok.withMem (h : s.Ok arch live) (mem : Nat → UInt8) : (s.withMem mem).Ok arch live :=
  ⟨h.wf.setMem mem, h.held, h.alone, h.tables, h.flags⟩

/-- The contents of the memory do not matter. -/
theorem Grown.withMem (hg : Grown arch P s s' live live') (mem : Nat → UInt8) :
    Grown arch P (s.withMem mem) (s'.withMem mem) live live' :=
  ⟨hg.ok.withMem mem, hg.leaf, hg.dir, hg.new, hg.one,
    ⟨hg.same.memStart, hg.same.memEnd, hg.same.totalPages⟩, hg.sub, fun _ _ _ _ => rfl⟩

theorem freePage_withMem (h : s.Ok arch live) (mem : Nat → UInt8) :
    (s.withMem mem).pmem.FreePage q ↔ s.pmem.FreePage q :=
  freePage_congr h.wf (h.wf.setMem mem) ⟨rfl, rfl, rfl⟩

theorem NoTrace.of_withMem (h : s.Ok arch live) (ht : NoTrace (s.withMem mem) s') : NoTrace s s' where
  entries := ht.entries
  mapped := ht.mapped
  allocator := ht.allocator
  returned := fun q hq => ht.returned q ((freePage_withMem h mem).mpr hq)
  kept := fun q hq => (freePage_withMem h mem).mp (ht.kept q hq)

/-- Without a block, or refused at the first page, the first attempt takes pages for tables only. -/
theorem tryBlock_clean {npages : Nat} (h : s.Ok arch live) (hsafe : s.Safe) (hreq : s.pmem.AllocSafe (toInt32 npages))
    (hcond : (s.leaf pid lo).valid = true ∨ ¬s.HasBlock npages)
    (hcall : tryBlock arch pid (lo * PGSIZE) npages perm s = some (tr, s')) (hne : tr ≠ .mapped) :
    ∃ mem live', Grown arch nowhere (s.withMem mem) s' live live' ∧ Took noPage (s.withMem mem) s' := by
  have hbase : ∀ {mem D s'}, Took D s s' → Took D (s.withMem mem) s' := fun {mem _ _} htook =>
    ⟨htook.wf, ⟨htook.same.memStart, htook.same.memEnd, htook.same.totalPages⟩, htook.dir, htook.safe, fun q hq => htook.taken q ((freePage_withMem h mem).mp hq)⟩
  rcases tryBlock_cases hcall with ⟨-, -, hs'⟩ | ⟨hblock, mem, s₁, s₂, r, hnull, ha, hmap, hres⟩
  · refine ⟨s.pmem.mem, ?_⟩
    rcases hs' with rfl | ha
    · exact ⟨live, Grown.refl h, Took.refl h.wf⟩
    · rcases alloc_took h.wf hreq ha with ⟨-, htook⟩ | ⟨b, -, hnull, -⟩
      · rcases h.alloc (htook.safe hsafe) ha with ⟨-, hg⟩ | ⟨b, -, hnull, -⟩
        · exact ⟨live, hg, htook⟩
        · exact absurd rfl hnull
      · exact absurd rfl hnull
  · obtain ⟨-, -, hfree⟩ := hres.resolve_left hne
    have hv := hcond.resolve_right (not_not.mpr hblock)
    have hsafe₁ : s₁.Safe := alloc_safe hreq ha hsafe
    rcases h.alloc hsafe₁ ha with ⟨hnull', -⟩ | ⟨b, hpt, -, hroom, -, hg, hnew⟩
    · exact absurd hnull' hnull
    · -- the block may be shorter than the part of memory that is cleared
      have hg₁ := hg.withMem (s₁.memset mem (npages * PGSIZE)).pmem.mem
      have hmem : s₁.withMem (s₁.memset mem (npages * PGSIZE)).pmem.mem = s₁.memset mem (npages * PGSIZE) := rfl
      rw [hmem] at hg₁
      have hpos : 0 < toInt32 npages := by
        by_contra hle
        obtain ⟨-, ptr, pmem, hp, hne'⟩ := hblock
        rw [Pmem.Wf.pmemAllocPages_null (.inl (not_lt.mp hle)), Option.some_inj, Prod.mk.injEq] at hp
        exact hne' hp.1.symm
      have hleaf₁ : (s₁.memset mem (npages * PGSIZE)).leaf = s.leaf := (alloc_frame ha).1
      have hv₁ : ((s₁.memset mem (npages * PGSIZE)).leaf pid lo).valid = true := by
        rw [hleaf₁]
        exact hv
      have htook₁ : Took (· ∈ b) s (s₁.memset mem (npages * PGSIZE)) :=
        Took.of_block h.wf hg₁.ok.wf ⟨hg.same.memStart, hg.same.memEnd, hg.same.totalPages⟩
          (alloc_frame ha).2.1 fun _ => hsafe₁
      have htook₂ := mappages_took hg₁.ok.wf hmap
      have hsafe₂ : s₂.Safe := htook₂.safe hsafe₁
      obtain ⟨live', hg', -, hdir', hsame', hback⟩ := refused hg₁ (List.mem_cons_self ..) hpt hnew hpos hroom
        hv₁ hsafe₂ hmap hfree
      exact ⟨_, live', hg',
        hbase ((htook₁.transTables htook₂).release hg'.ok.wf hsame' hdir' (free_asked hfree) hback)⟩

/-- A block that is refused half way leaves its first page mapped. -/
theorem tryBlock_valid {npages : Nat} (hblock : s.HasBlock npages)
    (hcall : tryBlock arch pid (lo * PGSIZE) npages perm s = some (tr, s')) (hne : tr ≠ .mapped) :
    tr = .refused ∧ (s'.leaf pid lo).valid = true := by
  rcases tryBlock_cases hcall with ⟨-, hnone, -⟩ | ⟨-, mem, s₁, s₂, r, -, -, hmap, hres⟩
  · exact absurd hblock hnone
  · obtain ⟨htr, -, hfree⟩ := hres.resolve_left hne
    refine ⟨htr, ?_⟩
    rw [free_leaf hfree]
    exact (mappages_first hmap).2.1

/-- A page that is mapped already is not filled. -/
theorem tryPage_keeps (hv : (s.leaf pid lo).valid = true)
    (hcall : tryPage arch pid (lo * PGSIZE) perm s = some (made, s')) :
    made ≠ some true ∧ (s'.leaf pid lo).valid = true := by
  rcases tryPage_cases hcall with ⟨rfl, ha⟩ | ⟨mem, s₁, s₂, r, -, ha, hmap, hres⟩
  · refine ⟨by simp, ?_⟩
    rw [(alloc_frame ha).1]
    exact hv
  · obtain ⟨-, hvalid, hremap⟩ := mappages_first hmap
    have hleaf₁ : (s₁.memset mem PGSIZE).leaf = s.leaf := (alloc_frame ha).1
    rw [hleaf₁] at hremap
    rcases hres with ⟨-, rfl, -⟩ | ⟨rfl, -, hfree⟩
    · cases (hremap hv).1
    · refine ⟨by simp, ?_⟩
      rw [free_leaf hfree]
      exact hvalid

/-- The second attempt gives up at a first page that is mapped, and keeps it. -/
theorem fillLoop_keeps (hv : (s.leaf pid lo).valid = true)
    (hcall : fillLoop arch pid end_ perm done (undoGrow arch pid (lo * PGSIZE)) n (lo * PGSIZE) s =
      some (r, s')) : (s'.leaf pid lo).valid = true := by
  cases n with
  | zero =>
    rw [fillLoop] at hcall
    split at hcall
    · cases hcall
    · cases hcall
      exact hv
  | succ n =>
    rw [fillLoop] at hcall
    split at hcall
    · obtain ⟨⟨made, s₁⟩, hpage, hcall⟩ := Option.bind_eq_some_iff.mp hcall
      obtain ⟨hmade, hv₁⟩ := tryPage_keeps hv hpage
      simp only [if_neg hmade] at hcall
      obtain ⟨⟨m, t⟩, hdealloc, heq⟩ := Option.map_eq_some_iff.mp hcall
      rw [uvmdealloc, if_pos (le_refl _)] at hdealloc
      cases hdealloc
      cases heq
      exact hv₁
    · cases hcall
      exact hv

/-! ## The calls -/

/-- A call that grows user memory. -/
inductive GrowCall where
  | uvmalloc (oldsz newsz perm : Nat)
  | uvmalloc1 (start end_ perm : Nat)
  | uvmGrow (oldsz newsz xperm : Nat)
  deriving DecidableEq, Repr

namespace GrowCall

def run (arch : Arch) (pid : Nat) : GrowCall → Vmem → Option (Int × Vmem)
  | .uvmalloc oldsz newsz perm => Vmem.uvmalloc arch pid oldsz newsz perm
  | .uvmalloc1 start end_ perm => Vmem.uvmalloc1 arch pid start end_ perm
  | .uvmGrow oldsz newsz xperm => Vmem.uvmGrow arch pid oldsz newsz xperm

/-- The address of the first page to map. -/
def start : GrowCall → Nat
  | .uvmalloc oldsz _ _ => pgRoundUp oldsz
  | .uvmalloc1 start _ _ => start
  | .uvmGrow oldsz _ _ => pgRoundUp oldsz

/-- The address up to which memory is to be mapped. -/
def limit : GrowCall → Nat
  | .uvmalloc _ newsz _ => newsz
  | .uvmalloc1 _ end_ _ => end_
  | .uvmGrow _ newsz _ => newsz

/-- The number of pages that the call computes for its range. -/
def npages (c : GrowCall) : Nat := sub64 (pgRoundUp c.limit) c.start / PGSIZE

/-- The call reports a failure: `0`, or `-EINVAL`. -/
def Failed (r : Int) : Prop := r ≤ 0

instance (r : Int) : Decidable (Failed r) := inferInstanceAs (Decidable (r ≤ 0))

end GrowCall

/-- `uvmalloc1` never reports a failure: where it fails it panics. -/
theorem uvmalloc1_returns {start : Nat} (hcall : uvmalloc1 arch pid start end_ perm s = some (r, s')) : r = 1 := by
  have hloop : ∀ n a s, fillLoop arch pid end_ perm 1 undoAlloc1 n a s = some (r, s') → r = 1 := by
    intro n
    induction n with
    | zero =>
      intro a s hcall
      rw [fillLoop] at hcall
      split at hcall
      · cases hcall
      · cases hcall
        rfl
    | succ n ih =>
      intro a s hcall
      rw [fillLoop] at hcall
      split at hcall
      · obtain ⟨⟨made, s₁⟩, -, hcall⟩ := Option.bind_eq_some_iff.mp hcall
        simp only at hcall
        split at hcall
        · exact ih _ _ hcall
        · cases hcall
      · cases hcall
        rfl
  unfold uvmalloc1 at hcall
  split at hcall
  · cases hcall
  · obtain ⟨⟨tr, s₁⟩, -, hcall⟩ := Option.bind_eq_some_iff.mp hcall
    cases tr with
    | mapped =>
      cases hcall
      rfl
    | refused => exact hloop _ _ _ hcall
    | noMemory => exact hloop _ _ _ hcall

/-- The part of a range up to its first page that is mapped. -/
theorem exists_cut (s : Vmem) (pid lo hi : Nat) :
    ∃ cut, lo ≤ cut ∧ s.Vacant pid lo cut ∧ (hi ≤ cut ∨ (s.leaf pid cut).valid = true) := by
  by_cases hex : ∃ v, lo ≤ v ∧ (s.leaf pid v).valid = true
  · refine ⟨Nat.find hex, (Nat.find_spec hex).1, ?_, .inr (Nat.find_spec hex).2⟩
    intro v h1 h2
    have hmin := Nat.find_min hex h2
    simpa [h1] using hmin
  · refine ⟨max lo hi, le_max_left .., ?_, .inl (le_max_right ..)⟩
    intro v h1 _
    simpa [h1] using fun hv => hex ⟨v, h1, hv⟩

/-- The second attempt after a first one that took pages for tables only. -/
theorem attempts_noTrace (h : s.Ok arch live) (hsafe : s.Safe)
    (hpages : s.pmem.totalPages < 2 ^ 31) (hg : Grown arch nowhere (s.withMem mem) s₁ live live')
    (htook : Took noPage (s.withMem mem) s₁)
    (hundo : ∀ a made t t' r, undo a made t = some (r, t') →
      undoGrow arch pid (lo * PGSIZE) a made t = some (r, t'))
    (hcall : fillLoop arch pid end_ perm done undo n (lo * PGSIZE) s₁ = some (r, s')) :
    r = done ∨ NoTrace s s' := by
  obtain ⟨cut, hle, hvac, hcut⟩ := (s.withMem mem).exists_cut pid lo (pageCeil end_)
  have hvac₁ : s₁.Vacant pid lo cut := by
    intro v h1 h2
    rw [hg.leaf_eq]
    exact hvac v h1 h2
  have hloop := fillLoop_noTrace (h.withMem mem) hsafe hpages hvac hcut hundo
    (Filled.start hg htook hvac₁) hle hcall
  exact hloop.imp_right (NoTrace.of_withMem h)

/-- A call whose first attempt did not map the range: it leaves no trace exactly if that attempt left
none. -/
theorem noTrace_iff_of_attempt {npages : Nat} (h : s.Ok arch live) (hsafe : s.Safe)
    (hreq : s.pmem.AllocSafe (toInt32 npages))
    (hblock : tryBlock arch pid (lo * PGSIZE) npages perm s = some (tr, s₁)) (hne : tr ≠ .mapped)
    (hclean : ∀ mem live', Grown arch nowhere (s.withMem mem) s₁ live live' →
      Took noPage (s.withMem mem) s₁ → NoTrace s s')
    (hkeeps : tr = .refused → (s₁.leaf pid lo).valid = true → (s'.leaf pid lo).valid = true) :
    NoTrace s s' ↔ (s.leaf pid lo).valid = true ∨ ¬s.HasBlock npages := by
  constructor
  · intro htrace
    by_cases hhas : s.HasBlock npages
    · obtain ⟨htr, hv⟩ := tryBlock_valid hhas hblock hne
      exact .inl (htrace.valid (hkeeps htr hv))
    · exact .inr hhas
  · intro hcond
    obtain ⟨mem, live', hg, htook⟩ := tryBlock_clean h hsafe hreq hcond hblock hne
    exact hclean mem live' hg htook

theorem undoAlloc_eq {r : Int × Vmem}
    (hcall : undoAlloc arch pid oldsz a made s = some r) : undoGrow arch pid oldsz a made s = some r := by
  unfold undoAlloc at hcall
  split at hcall
  · cases hcall
  · exact hcall

/-- Up to address zero there is nothing to fill. -/
theorem fillLoop_zero (hcall : fillLoop arch pid 0 perm done undo n a s = some (r, s')) : s' = s := by
  cases n with
  | zero =>
    rw [fillLoop, if_neg (Nat.not_lt_zero a)] at hcall
    cases hcall
    rfl
  | succ n =>
    rw [fillLoop, if_neg (Nat.not_lt_zero a)] at hcall
    cases hcall
    rfl

theorem uvmalloc_noTrace_iff (h : s.Ok arch live) (hsafe : s.Safe) (hpages : s.pmem.totalPages < 2 ^ 31)
    (hreq : s.pmem.AllocSafe (toInt32 (sub64 (pgRoundUp newsz) (pgRoundUp oldsz) / PGSIZE)))
    (hcall : uvmalloc arch pid oldsz newsz perm s = some (r, s')) (hfail : r ≤ 0) :
    NoTrace s s' ↔ (s.leaf pid (pgRoundUp oldsz / PGSIZE)).valid = true ∨
      ¬s.HasBlock (sub64 (pgRoundUp newsz) (pgRoundUp oldsz) / PGSIZE) := by
  have hstart : pgRoundUp oldsz / PGSIZE * PGSIZE = pgRoundUp oldsz := by
    simp only [pgRoundUp, alignUp, PGSIZE]
    omega
  unfold uvmalloc at hcall
  split at hcall
  · rename_i hlt
    cases hcall
    omega
  · rename_i hge
    obtain ⟨⟨tr, s₁⟩, hblock, hcall⟩ := Option.bind_eq_some_iff.mp hcall
    replace hblock : tryBlock arch pid (pgRoundUp oldsz / PGSIZE * PGSIZE)
        (sub64 (pgRoundUp newsz) (pgRoundUp oldsz) / PGSIZE) perm s = some (tr, s₁) := by
      rw [hstart]
      exact hblock
    cases tr with
    | mapped =>
      cases hcall
      -- an empty range is not mapped
      have hzero : oldsz = newsz := by omega
      rcases tryBlock_cases hblock with ⟨htr, -⟩ | ⟨⟨hpos, -⟩, -⟩
      · cases htr
      · rw [hzero, sub64] at hpos
        simp only [pgRoundUp, alignUp, add64, PGSIZE] at hpos
        omega
    | refused =>
      cases hcall
      exact noTrace_iff_of_attempt h hsafe hreq hblock (by simp)
        (fun mem live' hg htook => (NoTrace.of_grown (h.withMem mem) hg htook).of_withMem h) fun _ hv => hv
    | noMemory =>
      refine noTrace_iff_of_attempt h hsafe hreq hblock (by simp) ?_ (fun htr => by cases htr)
      intro mem live' hg htook
      simp only at hcall
      rw [← hstart] at hcall
      rcases attempts_noTrace h hsafe hpages hg htook (fun a made t t' r => undoAlloc_eq) hcall with hr | htrace
      · obtain rfl : newsz = 0 := by omega
        obtain rfl : s' = s₁ := fillLoop_zero hcall
        exact (NoTrace.of_grown (h.withMem mem) hg htook).of_withMem h
      · exact htrace

theorem uvmGrow_noTrace_iff {xperm : Nat} (h : s.Ok arch live) (hsafe : s.Safe) (hpages : s.pmem.totalPages < 2 ^ 31)
    (hreq : s.pmem.AllocSafe (toInt32 (sub64 (pgRoundUp newsz) (pgRoundUp oldsz) / PGSIZE)))
    (hcall : uvmGrow arch pid oldsz newsz xperm s = some (r, s')) (hfail : r ≤ 0) :
    NoTrace s s' ↔ (s.leaf pid (pgRoundUp oldsz / PGSIZE)).valid = true ∨
      ¬s.HasBlock (sub64 (pgRoundUp newsz) (pgRoundUp oldsz) / PGSIZE) := by
  have hstart : pgRoundUp oldsz / PGSIZE * PGSIZE = pgRoundUp oldsz := by
    simp only [pgRoundUp, alignUp, PGSIZE]
    omega
  unfold uvmGrow at hcall
  split at hcall
  · rename_i hle
    cases hcall
    -- nothing is to be mapped
    have hzero : oldsz = newsz := by omega
    refine ⟨fun _ => .inr ?_, fun _ => NoTrace.of_grown h (Grown.refl h) (Took.refl h.wf)⟩
    rintro ⟨hpos, -⟩
    rw [hzero, sub64] at hpos
    simp only [pgRoundUp, alignUp, add64, PGSIZE] at hpos
    omega
  · rename_i hlt
    obtain ⟨⟨tr, s₁⟩, hblock, hcall⟩ := Option.bind_eq_some_iff.mp hcall
    replace hblock : tryBlock arch pid (pgRoundUp oldsz / PGSIZE * PGSIZE)
        (sub64 (pgRoundUp newsz) (pgRoundUp oldsz) / PGSIZE) xperm s = some (tr, s₁) := by
      rw [hstart]
      exact hblock
    by_cases htr : tr = .mapped
    · subst htr
      cases hcall
      omega
    · have hloop : fillLoop arch pid newsz xperm newsz (undoGrow arch pid (pgRoundUp oldsz / PGSIZE * PGSIZE))
          (pageCeil newsz) (pgRoundUp oldsz / PGSIZE * PGSIZE) s₁ = some (r, s') := by
        rw [hstart]
        cases tr with
        | mapped => exact absurd rfl htr
        | refused => exact hcall
        | noMemory => exact hcall
      refine noTrace_iff_of_attempt h hsafe hreq hblock htr ?_ fun _ hv => fillLoop_keeps hv hloop
      intro mem live' hg htook
      rcases attempts_noTrace h hsafe hpages hg htook (fun a made t t' r hrun => hrun) hloop with hr | htrace
      · omega
      · exact htrace

end Vmem

end SC7
