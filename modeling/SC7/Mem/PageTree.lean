-- SUMMARY: `walk` and `mappages` keep the page table a tree: every page of the range is mapped, no other leaf changes.
import SC7.Mem.PageTable

/-!
# The tree of a page table

`Tree` says that the tables of a page table are different pages, all of them live in the allocator.
`walk` may link fresh tables, which are zero and were free before, so no leaf changes; `mappages` then
writes one leaf a page. A single page can always be asked for: with nothing on the lists the emergency
rebuild has nothing to lose.
-/

namespace SC7

open Pmem (SameRegion)

/-! ## One page from the allocator -/

namespace Pmem

variable {s s' : Pmem} {live live' : List Block}

/-- A request for one page never needs an unsafe rebuild. -/
theorem Wf.allocSafe_one (h : s.Wf live) : s.AllocSafe 1 := by
  obtain ⟨L, hinv⟩ := h
  intro _ _ hnull
  rw [show getOrder (1 : Int).toNat = ((0 : Nat) : Int) from rfl] at hnull
  rcases hinv.buddyAlloc 0 with ⟨-, hempty⟩ | ⟨p, k, o, s', L', ho, hcall, hal⟩
  · rw [hinv.rebuildSafe_iff]
    intro k _ b hb
    rw [hempty (le_refl _) b.order (Int.natCast_nonneg _)] at hb
    cases hb
  · have hplaced := (hinv.core.free ⟨p, k⟩ hal.mem_list).1
    rw [Nat.cast_zero, hcall, Option.some_inj, Prod.mk.injEq] at hnull
    exact absurd hnull.1 (pageAddr_ne_zero hplaced.page_lt hplaced.meta_le)

/-- The page that a request for one page hands out. -/
theorem Wf.handed_one {addr : Nat} (h : s.Wf live) (hcall : s.pmemAllocPages 1 = some (addr, s')) (hne : addr ≠ NULL) :
    ∃ b, addr = s'.pageAddr b.page ∧ Wf.Handed s live 1 s' b ∧ b.order = 0 := by
  rcases h.pmemAllocPages 1 h.allocSafe_one with ⟨t, hnull, -⟩ | ⟨b, t, hcall', -, hh, hord⟩
  · rw [hnull, Option.some_inj, Prod.mk.injEq] at hcall
    exact absurd hcall.1.symm hne
  · rw [hcall', Option.some_inj, Prod.mk.injEq] at hcall
    obtain ⟨rfl, rfl⟩ := hcall
    have hzero : getOrder (1 : Int).toNat = 0 := by decide
    exact ⟨b, (hh.same.pageAddr b.page).symm, hh, by omega⟩

/-- Where the same blocks are live, the same pages are free. -/
theorem Wf.freePage_mono (h : s.Wf live) (h' : s'.Wf live') (hsame : SameRegion s s')
    (hsub : live ⊆ live') {q : Nat} (hq : s'.FreePage q) : s.FreePage q := by
  rw [h'.freePage_iff, managed_congr hsame] at hq
  refine h.freePage_iff.mpr ⟨hq.1, ?_⟩
  rintro ⟨b, hb, hqb⟩
  exact hq.2 ⟨b, hsub hb, hqb⟩

/-- A block that is handed out was not live. -/
theorem Wf.Handed.not_live {n : Int} {b : Block} (hh : Wf.Handed s live n s' b) : ¬∃ b' ∈ live, b.page ∈ b' := by
  rintro ⟨b', hb', hq⟩
  obtain rfl := hh.wf.eq_of_mem List.mem_cons_self (List.mem_cons_of_mem _ hb') b.page_mem hq
  exact (List.nodup_cons.mp hh.wf.nodup).1 hb'

end Pmem

namespace PageTable

variable {arch : Arch} {s s' s'' : Pmem} {live live' : List Block}
  {root va va' n t q a x pa perm e current end_ : Nat} {b : Block}

/-! ## Memory words -/

theorem ld_st_self (s : Pmem) (a w : Nat) (hw : w < 2 ^ 64) : ld (st s a w) a = w := by
  rw [ld, st, Blocks.readWord_write_self, Nat.mod_eq_of_lt hw]

theorem ld_st_of_ne (w : Nat) (ha : a % 8 = 0) (hx : x % 8 = 0) (hne : x ≠ a) :
    ld (st s a w) x = ld s x := Blocks.readWord_write_of_ne w ha hx hne

theorem pageAddr_mod (hr : s.Region) (q : Nat) : s.pageAddr q % PGSIZE = 0 := by
  rw [Pmem.pageAddr_eq hr]
  exact Nat.mul_mod_right _ _

/-- A fresh page reads zero, and no word outside it changes. -/
theorem ld_zero (ha : a % PGSIZE = 0) (hx : x % 8 = 0) :
    ld (s.zero a PGSIZE) x = if a ≤ x ∧ x < a + PGSIZE then 0 else ld s x := by
  simp only [PGSIZE] at *
  split
  · rename_i hin
    apply Blocks.readWord_zero
    intro i hi
    exact if_pos (by omega)
  · rename_i hout
    apply Blocks.readWord_congr
    intro i hi
    exact if_neg (by omega)

/-- A page that is handed out is zero, and the other words are as before. -/
theorem ld_handed (hr : s.Region) (hh : Pmem.Wf.Handed s live 1 s' b) (horder : b.order = 0) (x : Nat)
    (hx : x % 8 = 0) :
    ld s' x = if s.pageAddr b.page ≤ x ∧ x < s.pageAddr b.page + PGSIZE then 0 else ld s x := by
  have hsize : blockSize (b.order : Int) = PGSIZE := by
    rw [horder]
    rfl
  rw [← ld_zero (pageAddr_mod hr b.page) hx, ld, hh.mem_eq, hsize]
  rfl

/-! ## The entries of tables -/

/-- The kernel sees the memory of the allocator through its window. -/
def InWindow : Arch → Pmem → Prop
  | .riscv, _ => True
  | .loongarch, s => dmwin_win0 .loongarch ≤ s.memStart ∧ s.memEnd ≤ dmwin_win0 .loongarch + 2 ^ 48

theorem InWindow.congr (h : InWindow arch s) (hsame : SameRegion s s') : InWindow arch s' := by
  cases arch with
  | riscv => trivial
  | loongarch =>
    rw [InWindow, hsame.memStart, hsame.memEnd]
    exact h

/-- The entry that `walk` writes for a fresh table. -/
def tableEntry (arch : Arch) (pt : Nat) : Nat := PA2PTE arch pt ||| PTE_WALK arch ||| dmwin_win0 arch

/-- Masking with `PAMASK` keeps the page number. -/
theorem and_paMask (n : Nat) : n &&& 0xFFFFFFFFF <<< 12 = n / PGSIZE % 2 ^ 36 * PGSIZE := by
  have hmask : n &&& 0xFFFFFFFFF <<< 12 = (n >>> 12 % 2 ^ 36) <<< 12 := by
    apply Nat.eq_of_testBit_eq
    intro i
    have hones : (0xFFFFFFFFF : Nat) = 2 ^ 36 - 1 := by decide
    rw [hones, Nat.testBit_and, Nat.testBit_shiftLeft, Nat.testBit_shiftLeft, Nat.testBit_mod_two_pow,
      Nat.testBit_shiftRight, Nat.testBit_two_pow_sub_one]
    by_cases hi : i ≥ 12
    · rw [Nat.add_sub_cancel' hi]
      simp only [hi, decide_true, Bool.true_and]
      exact Bool.and_comm _ _
    · simp [hi]
  rw [hmask, Nat.shiftLeft_eq, Nat.shiftRight_eq_div_pow]

/-- Bits below the page number. -/
theorem or_low {b : Nat} (hx : x % 4096 = 0) (hb : b < 4096) : x ||| b = x + b := by
  have hsum := Nat.shiftLeft_add_eq_or_of_lt (i := 12) (b := b) hb (x / 4096)
  have hpage : (x / 4096) <<< 12 = x := by
    rw [Nat.shiftLeft_eq]
    omega
  rw [hpage] at hsum
  exact hsum.symm

/-- The bits of the window. -/
theorem or_window {y : Nat} (hy : y < 2 ^ 60) : y ||| 0x9000000000000000 = 0x9000000000000000 + y := by
  have hsum := Nat.shiftLeft_add_eq_or_of_lt hy 9
  have hnine : 9 <<< 60 = 0x9000000000000000 := by decide
  rw [hnine] at hsum
  rw [Nat.or_comm, hsum]

/-- The entry fits in a word and leads to the table. -/
theorem tableEntry_spec (h : InWindow arch s) (hr : s.Region) (hq : q < s.totalPages)
    (hmeta : metaPages s.totalPages ≤ q) :
    tableEntry arch (s.pageAddr q) < 2 ^ 64 ∧
      child arch (tableEntry arch (s.pageAddr q)) = some (s.pageAddr q) := by
  have hmod := pageAddr_mod hr q
  have hlt := Pmem.pageAddr_lt hr (Nat.le_of_lt hq)
  have hne := Pmem.pageAddr_ne_zero hq hmeta
  cases arch with
  | riscv =>
    have hentry : tableEntry .riscv (s.pageAddr q) = s.pageAddr q / PGSIZE * 1024 + 1 := by
      have hor := Nat.shiftLeft_add_eq_or_of_lt (i := 10) (b := 1) (by decide) (s.pageAddr q >>> 12)
      rw [Nat.shiftLeft_eq, Nat.shiftRight_eq_div_pow] at hor
      simp only [tableEntry, PA2PTE, PTE_WALK, dmwin_win0, PTE_V, Nat.or_zero, Nat.shiftLeft_eq,
        Nat.shiftRight_eq_div_pow, ← hor]
    rw [hentry]
    simp only [PGSIZE] at *
    have hpa : PTE2PA .riscv (s.pageAddr q / 4096 * 1024 + 1) = s.pageAddr q := by
      rw [PTE2PA, Nat.shiftLeft_eq, Nat.shiftRight_eq_div_pow]
      omega
    have hvalid : (s.pageAddr q / 4096 * 1024 + 1) &&& PTE_V ≠ 0 := by
      rw [PTE_V, Nat.and_one_is_mod]
      omega
    refine ⟨by omega, ?_⟩
    rw [child, if_pos ⟨hvalid, by rw [hpa]; exact hne⟩, pageOf, hpa, dmwin_win0, Nat.or_zero]
  | loongarch =>
    obtain ⟨hlo, hhi⟩ := h
    have hwin : dmwin_win0 .loongarch = 0x9000000000000000 := by decide
    -- the address is the window plus a physical address, which is not zero
    obtain ⟨x, hx⟩ : ∃ x, s.pageAddr q = 0x9000000000000000 + x := ⟨s.pageAddr q - 0x9000000000000000, by
      have : s.memStart ≤ s.pageAddr q := Nat.le_add_right _ _
      omega⟩
    have hend : s.pageAddr q < s.memEnd := by
      rw [hr.end_eq]
      simp only [Pmem.pageAddr, PGSIZE]
      omega
    have hx48 : x < 2 ^ 48 := by omega
    have hx0 : 0 < x := by
      have := Pmem.metaPages_pos hq
      have hpage : s.memStart + PGSIZE ≤ s.pageAddr q := by
        simp only [Pmem.pageAddr, PGSIZE]
        omega
      simp only [PGSIZE] at hpage
      omega
    have hxmod : x % 4096 = 0 := by
      rw [hx] at hmod
      simp only [PGSIZE] at hmod
      omega
    have hpa : PA2PTE .loongarch (s.pageAddr q) = x := by
      rw [PA2PTE, and_paMask, hx]
      simp only [PGSIZE]
      omega
    have hentry : tableEntry .loongarch (s.pageAddr q) = 0x9000000000000000 + (x + 19) := by
      have hwalk : PTE_WALK .loongarch = 19 := by decide
      rw [tableEntry, hpa, hwin, hwalk, or_low hxmod (by decide), or_window (by omega)]
    have hback : PTE2PA .loongarch (0x9000000000000000 + (x + 19)) = x := by
      rw [PTE2PA, and_paMask]
      simp only [PGSIZE]
      omega
    have hvalid : (0x9000000000000000 + (x + 19)) &&& PTE_V ≠ 0 := by
      rw [PTE_V, Nat.and_one_is_mod]
      omega
    rw [hentry]
    refine ⟨by omega, ?_⟩
    rw [child, if_pos ⟨hvalid, by rw [hback]; omega⟩, pageOf, hback, hwin, or_window (by omega), hx]

/-! ## The tree and what may happen to it -/

/-- The page table at `root` is a tree: its tables are pairwise different, and each is a page of a live
block of the allocator. -/
structure Tree (arch : Arch) (s : Pmem) (live : List Block) (root : Nat) : Prop where
  alloc : s.Wf live
  window : InWindow arch s
  wf : Radix.Wf (shape arch) (ld s) root
  tables : ∀ {va n t}, n < PT_LEVEL arch → table arch s root va n = some t →
    ∃ q, t = s.pageAddr q ∧ ∃ b ∈ live, q ∈ b

/-- From `s` to `s'` tables were only added, on pages that were free. -/
structure Grown (arch : Arch) (root : Nat) (s s' : Pmem) : Prop where
  same : SameRegion s s'
  free : ∀ q, s'.FreePage q → s.FreePage q
  tables : ∀ {va n t}, n < PT_LEVEL arch → table arch s' root va n = some t →
    table arch s root va n = some t ∨ ∃ q, t = s.pageAddr q ∧ s.FreePage q

/-- And no leaf changed. -/
structure Walked (arch : Arch) (root : Nat) (s s' : Pmem) : Prop extends Grown arch root s s' where
  leaf : ∀ va, Radix.leaf (shape arch) (ld s') root va = Radix.leaf (shape arch) (ld s) root va

theorem Grown.refl (arch : Arch) (root : Nat) (s : Pmem) : Grown arch root s s :=
  ⟨SameRegion.refl s, fun _ hq => hq, fun _ ht => .inl ht⟩

theorem Grown.trans (h : Grown arch root s s') (h' : Grown arch root s' s'') : Grown arch root s s'' where
  same := h.same.trans h'.same
  free q hq := h.free q (h'.free q hq)
  tables hn ht := by
    rcases h'.tables hn ht with ht | ⟨q, rfl, hq⟩
    · exact h.tables hn ht
    · exact .inr ⟨q, h.same.pageAddr q, h.free q hq⟩

theorem Walked.refl (arch : Arch) (root : Nat) (s : Pmem) : Walked arch root s s :=
  ⟨Grown.refl arch root s, fun _ => rfl⟩

theorem Walked.trans (h : Walked arch root s s') (h' : Walked arch root s' s'') : Walked arch root s s'' :=
  ⟨h.toGrown.trans h'.toGrown, fun va => (h'.leaf va).trans (h.leaf va)⟩

namespace Tree

/-- The allocator may change as long as the memory does not. -/
theorem of_mem (h : Tree arch s live root) (hwf : s'.Wf live) (hsame : SameRegion s s') (hmem : s'.mem = s.mem) :
    Tree arch s' live root ∧ Walked arch root s s' := by
  have hld : ld s' = ld s := by
    funext a
    rw [ld, ld, hmem]
  refine ⟨⟨hwf, h.window.congr hsame, by rw [hld]; exact h.wf, ?_⟩,
    ⟨hsame, fun q => h.alloc.freePage_mono hwf hsame (List.Subset.refl _), ?_⟩, fun va => by rw [hld]⟩
  · intro va n t hn ht
    rw [table, hld] at ht
    obtain ⟨q, hq, hlive⟩ := h.tables hn ht
    exact ⟨q, by rw [hsame.pageAddr]; exact hq, hlive⟩
  · intro va n t _ ht
    rw [table, hld] at ht
    exact .inl ht

/-- The words of tables are words of live pages. -/
theorem slot_page (h : Tree arch s live root) (hn : n < PT_LEVEL arch) (ht : table arch s root va n = some t) :
    t % PGSIZE = 0 ∧ (t + (shape arch).offset n va) % 8 = 0 :=
  ⟨h.wf.aligned hn ht, h.wf.slot_mod hn ht⟩

/-- What a fresh page changes that is linked from a word without a table. -/
theorem linked (h : Tree arch s live root) {b : Block} {m : Pmem} (hh : Pmem.Wf.Handed s live 1 m b)
    (horder : b.order = 0) (hn : n + 1 < PT_LEVEL arch) (ht : table arch s root va n = some t)
    (hmissing : child arch (ld s (t + (shape arch).offset n va)) = none) :
    ld (st m (t + (shape arch).offset n va) (tableEntry arch (s.pageAddr b.page))) (t + (shape arch).offset n va) =
        tableEntry arch (s.pageAddr b.page) ∧
      Radix.Wf.Linked (shape arch) (ld s)
        (ld (st m (t + (shape arch).offset n va) (tableEntry arch (s.pageAddr b.page)))) root va n t
        (s.pageAddr b.page) := by
  have hplaced := hh.wf.placed List.mem_cons_self
  have hr := h.alloc.region
  have hlt : b.page < s.totalPages := by
    rw [← hh.same.totalPages]
    exact hplaced.page_lt
  have hmeta : metaPages s.totalPages ≤ b.page := by
    rw [← hh.same.totalPages]
    exact hplaced.meta_le
  obtain ⟨hentry, hchild⟩ := tableEntry_spec h.window hr hlt hmeta
  have hnotlive := hh.not_live
  have hslot := (h.slot_page (by omega) ht).2
  have hpage := pageAddr_mod hr b.page
  have hzero := ld_handed hr hh horder
  have hne : t ≠ s.pageAddr b.page := by
    rintro rfl
    obtain ⟨q, hq, hlive⟩ := h.tables (by omega) ht
    rw [Pmem.pageAddr_inj hq] at hnotlive
    exact hnotlive hlive
  have hoff := (shape arch).offset_lt n va
  have hout : ¬(s.pageAddr b.page ≤ t + (shape arch).offset n va ∧
      t + (shape arch).offset n va < s.pageAddr b.page + PGSIZE) := by
    rintro ⟨hlo, hhi⟩
    exact hne (Radix.eq_of_mem_table (h.slot_page (by omega) ht).1 hpage hoff hlo hhi)
  refine ⟨ld_st_self _ _ _ hentry, {
    depth_lt := hn
    table_eq := ht
    missing := hmissing
    child_eq := by
      rw [ld_st_self _ _ _ hentry]
      exact hchild
    aligned := hpage
    fresh := by
      intro va' m hm hu
      obtain ⟨q, hq, hlive⟩ := h.tables hm hu
      rw [Pmem.pageAddr_inj hq] at hnotlive
      exact hnotlive hlive
    clear := by
      intro x hx hlo hhi
      have hx' : x ≠ t + (shape arch).offset n va := by
        rintro rfl
        exact hout ⟨hlo, hhi⟩
      rw [ld_st_of_ne _ hslot hx hx', hzero x hx]
      exact if_pos ⟨hlo, hhi⟩
    rest := by
      intro x hx hx' hout'
      rw [ld_st_of_ne _ hslot hx hx', hzero x hx]
      exact if_neg hout' }⟩

/-- A fresh page, linked from a word without a table, extends the tree. -/
theorem link (h : Tree arch s live root) {b : Block} {m : Pmem} (hh : Pmem.Wf.Handed s live 1 m b)
    (horder : b.order = 0) (hn : n + 1 < PT_LEVEL arch) (ht : table arch s root va n = some t)
    (hmissing : child arch (ld s (t + (shape arch).offset n va)) = none) :
    let s' := st m (t + (shape arch).offset n va) (tableEntry arch (s.pageAddr b.page))
    Tree arch s' (b :: live) root ∧ Walked arch root s s' ∧
      table arch s' root va (n + 1) = some (s.pageAddr b.page) := by
  intro s'
  have hlinked := (h.linked hh horder hn ht hmissing).2
  have hwf' : s'.Wf (b :: live) := hh.wf.setMem _
  have hsame : SameRegion s s' := ⟨hh.same.memStart, hh.same.memEnd, hh.same.totalPages⟩
  have hfree : s.FreePage b.page := by
    refine h.alloc.freePage_iff.mpr ⟨?_, hh.not_live⟩
    have := hwf'.managed List.mem_cons_self b.page_mem
    rwa [Pmem.managed_congr hsame] at this
  refine ⟨⟨hwf', h.window.congr hsame, hlinked.wf h.wf, ?_⟩, ⟨⟨hsame, fun q =>
    h.alloc.freePage_mono hwf' hsame (List.subset_cons_self ..), ?_⟩, hlinked.leaf_eq h.wf⟩, hlinked.table_next h.wf⟩
  · intro va' m u hm hu
    rcases hlinked.table_cases h.wf hm hu with ⟨rfl, -, -⟩ | hu
    · exact ⟨b.page, (hsame.pageAddr _).symm, b, List.mem_cons_self, b.page_mem⟩
    · obtain ⟨q, hq, b', hb', hqb⟩ := h.tables hm hu
      exact ⟨q, hq.trans (hsame.pageAddr q).symm, b', List.mem_cons_of_mem _ hb', hqb⟩
  · intro va' m u hm hu
    rcases hlinked.table_cases h.wf hm hu with ⟨rfl, -, -⟩ | hu
    · exact .inr ⟨b.page, rfl, hfree⟩
    · exact .inl hu

/-- The slot that `walk` reads at a level above the last. -/
theorem offset_level {level : Nat} (hlevel : level + 1 < PT_LEVEL arch) :
    (shape arch).offset (PT_LEVEL arch - 1 - (level + 1)) va = 8 * PX (level + 1) va := by
  have hsub : PT_LEVEL arch - 1 - (PT_LEVEL arch - 1 - (level + 1)) = level + 1 := by omega
  simp only [shape, hsub]

/-- The table that the slot leads to. -/
theorem table_level {level pt : Nat} (hlevel : level + 1 < PT_LEVEL arch)
    (hpt : table arch s root va (PT_LEVEL arch - 1 - (level + 1)) = some pt) :
    table arch s root va (PT_LEVEL arch - 1 - level) = child arch (ld s (pt + 8 * PX (level + 1) va)) := by
  have hn : PT_LEVEL arch - 1 - (level + 1) + 1 = PT_LEVEL arch - 1 - level := by omega
  rw [← hn, ← offset_level hlevel]
  exact congrArg (Option.bind · _) hpt

theorem table_root : table arch s root va (PT_LEVEL arch - 1 - (PT_LEVEL arch - 1)) = some root := by
  rw [Nat.sub_self]
  rfl

/-- `walk` with allocation, from a table on the way: it gives up, or reaches the leaf table. What stays
when a table is linked, and when only the allocator changes, still holds. -/
theorem walkLevels_keeps {P : Pmem → List Block → Prop}
    (hmem : ∀ {s live s'}, Tree arch s live root → P s live → s'.Wf live → SameRegion s s' → s'.mem = s.mem → P s' live)
    (hlink : ∀ {s live b m n t}, Tree arch s live root → P s live → Pmem.Wf.Handed s live 1 m b → b.order = 0 →
      n + 1 < PT_LEVEL arch → table arch s root va n = some t → child arch (ld s (t + (shape arch).offset n va)) = none →
      P (st m (t + (shape arch).offset n va) (tableEntry arch (s.pageAddr b.page))) (b :: live))
    {level pt : Nat} (h : Tree arch s live root) (hp : P s live) (hlevel : level < PT_LEVEL arch)
    (hpt : table arch s root va (PT_LEVEL arch - 1 - level) = some pt) :
    ∃ pte s' live', PageTable.walkLevels arch true va level pt s = some (pte, s') ∧ Tree arch s' live' root ∧
      P s' live' ∧ Walked arch root s s' ∧ (pte = NULL ∨ ∃ t, table arch s' root va (PT_LEVEL arch - 1) = some t ∧
        pte = t + (shape arch).offset (PT_LEVEL arch - 1) va) := by
  induction level generalizing pt s live with
  | zero =>
    refine ⟨_, s, live, rfl, h, hp, Walked.refl arch root s, .inr ⟨pt, hpt, ?_⟩⟩
    simp only [shape, Nat.sub_self]
  | succ level ih =>
    have hn : PT_LEVEL arch - 1 - (level + 1) + 1 = PT_LEVEL arch - 1 - level := by omega
    have hoff : (shape arch).offset (PT_LEVEL arch - 1 - (level + 1)) va = 8 * PX (level + 1) va := offset_level hlevel
    unfold PageTable.walkLevels
    simp only
    by_cases hvalid : ld s (pt + 8 * PX (level + 1) va) &&& PTE_V ≠ 0
    · rw [if_pos hvalid]
      by_cases hnull : PTE2PA arch (ld s (pt + 8 * PX (level + 1) va)) = 0
      · rw [if_pos hnull]
        exact ⟨NULL, s, live, rfl, h, hp, Walked.refl arch root s, .inl rfl⟩
      · rw [if_neg hnull]
        apply ih h hp (by omega)
        rw [table_level hlevel hpt]
        exact if_pos ⟨hvalid, hnull⟩
    · rw [if_neg hvalid, if_pos trivial]
      rcases h.alloc.pmemAllocPages 1 h.alloc.allocSafe_one with ⟨m, hnull, hwf, hsame, hsamemem⟩ |
        ⟨b, m, hcall, hne, hh, hord⟩
      · obtain ⟨htree, hwalked⟩ := h.of_mem hwf hsame hsamemem
        exact ⟨NULL, m, live, by rw [hnull]; rfl, htree, hmem h hp hwf hsame hsamemem, hwalked, .inl rfl⟩
      · have horder : b.order = 0 := by
          have hzero : getOrder (1 : Int).toNat = 0 := by decide
          omega
        have hmissing : child arch (ld s (pt + (shape arch).offset (PT_LEVEL arch - 1 - (level + 1)) va)) = none := by
          rw [hoff]
          exact if_neg fun hc => hvalid hc.1
        obtain ⟨htree, hwalked, hnext⟩ := h.link hh horder (by omega) hpt hmissing
        have hp' := hlink h hp hh horder (by omega) hpt hmissing
        rw [hn] at hnext
        obtain ⟨pte, s', live', hrun, htree', hp'', hwalked', hres⟩ := ih htree hp' (by omega) hnext
        refine ⟨pte, s', live', ?_, htree', hp'', hwalked.trans hwalked', hres⟩
        rw [hcall, Option.bind_some]
        simp only [if_neg hne]
        rw [← hrun, hoff]
        rfl

/-- The root is a page. -/
theorem root_ne_null (h : Tree arch s live root) : root ≠ NULL := by
  have hroot : table arch s root 0 0 = some root := rfl
  obtain ⟨q, hq, b, hb, hqb⟩ := h.tables (shape arch).depth_pos hroot
  have hplaced := h.alloc.placed hb
  rw [hq]
  exact Pmem.pageAddr_ne_zero (hplaced.mem_lt hqb) (hplaced.meta_le_mem hqb)

/-- So are the other tables, and no entry of them is at address `NULL`. -/
theorem slot_ne_null (h : Tree arch s live root) (hn : n < PT_LEVEL arch) (ht : table arch s root va n = some t)
    (o : Nat) : t + o ≠ NULL := by
  obtain ⟨q, hq, b, hb, hqb⟩ := h.tables hn ht
  have hplaced := h.alloc.placed hb
  have hne := Pmem.pageAddr_ne_zero (hplaced.mem_lt hqb) (hplaced.meta_le_mem hqb)
  simp only [NULL]
  omega

/-- `walk` with allocation: it gives up, or reaches the leaf table. -/
theorem walk (h : Tree arch s live root) (hva : va < MAXVA arch) :
    ∃ pte s' live', PageTable.walk arch root va true s = some (pte, s') ∧ Tree arch s' live' root ∧
      Walked arch root s s' ∧ (pte = NULL ∨ ∃ t, table arch s' root va (PT_LEVEL arch - 1) = some t ∧
        pte = t + (shape arch).offset (PT_LEVEL arch - 1) va) := by
  have hpos : 0 < PT_LEVEL arch := (shape arch).depth_pos
  unfold PageTable.walk
  rw [if_neg (Nat.not_le.mpr hva), if_neg h.root_ne_null]
  obtain ⟨pte, s', live', hrun, htree, -, hrest⟩ := walkLevels_keeps (P := fun _ _ => True)
    (fun _ _ _ _ _ => trivial) (fun _ _ _ _ _ _ _ => trivial) h trivial (by omega) table_root
  exact ⟨pte, s', live', hrun, htree, hrest⟩

/-- `walk` without allocation: it only reads, and fails if a table is missing. -/
theorem walkLevels_read {level pt : Nat} (hlevel : level < PT_LEVEL arch)
    (hpt : table arch s root va (PT_LEVEL arch - 1 - level) = some pt) :
    PageTable.walkLevels arch false va level pt s = some ((table arch s root va (PT_LEVEL arch - 1)).elim NULL
        fun t => t + (shape arch).offset (PT_LEVEL arch - 1) va, s) := by
  induction level generalizing pt with
  | zero =>
    rw [Nat.sub_zero] at hpt
    rw [hpt, PageTable.walkLevels]
    simp only [Option.elim_some, shape, Nat.sub_self]
  | succ level ih =>
    have hnext := table_level hlevel hpt
    have hmissing : child arch (ld s (pt + 8 * PX (level + 1) va)) = none →
        table arch s root va (PT_LEVEL arch - 1) = none := by
      intro hnone
      rw [hnone] at hnext
      exact Radix.table_none_of_le hnext (by omega)
    unfold PageTable.walkLevels
    simp only
    by_cases hvalid : ld s (pt + 8 * PX (level + 1) va) &&& PTE_V ≠ 0
    · rw [if_pos hvalid]
      by_cases hnull : PTE2PA arch (ld s (pt + 8 * PX (level + 1) va)) = 0
      · rw [if_pos hnull, hmissing (if_neg fun hc => hc.2 hnull)]
        rfl
      · rw [if_neg hnull]
        apply ih (by omega)
        rw [hnext]
        exact if_pos ⟨hvalid, hnull⟩
    · rw [if_neg hvalid, if_neg Bool.false_ne_true, hmissing (if_neg fun hc => hvalid hc.1)]
      rfl

/-- What `walk(pt, va, 0)` returns. -/
theorem walk_read (h : Tree arch s live root) (hva : va < MAXVA arch) :
    PageTable.walk arch root va false s = some ((table arch s root va (PT_LEVEL arch - 1)).elim NULL
        fun t => t + (shape arch).offset (PT_LEVEL arch - 1) va, s) := by
  have hpos : 0 < PT_LEVEL arch := (shape arch).depth_pos
  unfold PageTable.walk
  rw [if_neg (Nat.not_le.mpr hva), if_neg h.root_ne_null]
  exact walkLevels_read (by omega) table_root

/-- The leaf that `walk` finds is the leaf of the tree. -/
theorem readLeaf_eq (h : Tree arch s live root) (hva : va < MAXVA arch) :
    readLeaf arch root va s = Radix.leaf (shape arch) (ld s) root va := by
  have hlast : PT_LEVEL arch - 1 < PT_LEVEL arch := Nat.sub_one_lt_of_lt (shape arch).depth_pos
  unfold readLeaf
  rw [h.walk_read hva]
  have hleaf : Radix.leaf (shape arch) (ld s) root va = (table arch s root va (PT_LEVEL arch - 1)).elim 0
      fun t => ld s (t + (shape arch).offset (PT_LEVEL arch - 1) va) := rfl
  rw [hleaf]
  cases ht : table arch s root va (PT_LEVEL arch - 1) with
  | none => exact if_pos rfl
  | some t => exact if_neg (h.slot_ne_null hlast ht _)

/-- Writing a leaf entry changes the leaves of its page and nothing else. -/
theorem writeLeaf (h : Tree arch s live root) {w : Nat} (hw : w < 2 ^ 64) (hva : va < MAXVA arch)
    (ht : table arch s root va (PT_LEVEL arch - 1) = some t) :
    let s' := st s (t + (shape arch).offset (PT_LEVEL arch - 1) va) w
    Tree arch s' live root ∧ Grown arch root s s' ∧ ∀ a < MAXVA arch,
      Radix.leaf (shape arch) (ld s') root a =
        if a / PGSIZE = va / PGSIZE then w else Radix.leaf (shape arch) (ld s) root a := by
  intro s'
  have hlast : PT_LEVEL arch - 1 < PT_LEVEL arch := Nat.sub_one_lt_of_lt (shape arch).depth_pos
  have hslot := (h.slot_page hlast ht).2
  have hwritten : Radix.Wf.LeafWritten (shape arch) (ld s) (ld s') va t :=
    fun x hx hne => ld_st_of_ne _ hslot hx hne
  have hsame : SameRegion s s' := ⟨rfl, rfl, rfl⟩
  have hwf' : s'.Wf live := h.alloc.setMem _
  have htable : ∀ {a n}, n < PT_LEVEL arch → table arch s' root a n = table arch s root a n :=
    fun hn => h.wf.table_leafWritten ht hwritten hn
  refine ⟨⟨hwf', h.window.congr hsame, h.wf.leafWritten ht hwritten, ?_⟩, ⟨hsame, fun q =>
    h.alloc.freePage_mono hwf' hsame (List.Subset.refl _), ?_⟩, fun a ha => ?_⟩
  · intro a n u hn hu
    rw [htable hn] at hu
    exact h.tables hn hu
  · intro a n u hn hu
    rw [htable hn] at hu
    exact .inl hu
  · by_cases hpage : a / PGSIZE = va / PGSIZE
    · rw [if_pos hpage]
      refine (h.wf.leaf_leafWritten_same ht hwritten ((same_iff hva ha).mpr hpage.symm)).trans ?_
      exact ld_st_self _ _ _ hw
    · rw [if_neg hpage]
      exact h.wf.leaf_leafWritten ht hwritten fun hsame' => hpage ((same_iff hva ha).mp hsame').symm

end Tree

/-! ## Mapping a range -/

/-- The leaf entry that `mappages` writes. -/
def leafEntry (arch : Arch) (pa perm : Nat) : Nat := PA2PTE arch pa ||| perm ||| PTE_V

theorem leafEntry_lt (hpa : pa < 2 ^ 64) (hperm : perm < 2 ^ 64) : leafEntry arch pa perm < 2 ^ 64 := by
  have hpte : PA2PTE arch pa < 2 ^ 64 := by
    cases arch with
    | riscv =>
      rw [PA2PTE, Nat.shiftLeft_eq, Nat.shiftRight_eq_div_pow]
      omega
    | loongarch =>
      rw [PA2PTE, and_paMask]
      simp only [PGSIZE]
      omega
  exact Nat.or_lt_two_pow (Nat.or_lt_two_pow hpte hperm) (by decide)

/-- From `s` to `s'` the pages of `[current, end_]` were mapped to consecutive pages from `pa` on. -/
structure MappedRange (arch : Arch) (root perm current end_ pa : Nat) (s s' : Pmem) : Prop where
  grown : Grown arch root s s'
  mapped : ∀ a < MAXVA arch, current ≤ a → a < end_ + PGSIZE →
    Radix.leaf (shape arch) (ld s') root a = leafEntry arch (add64 pa (pgRoundDown a - current)) perm
  other : ∀ a < MAXVA arch, a < current ∨ end_ + PGSIZE ≤ a →
    Radix.leaf (shape arch) (ld s') root a = Radix.leaf (shape arch) (ld s) root a

/-- Page boundaries are at least a page apart. -/
theorem add_page_le (ha : a % PGSIZE = 0) (he : e % PGSIZE = 0) (hle : a ≤ e) (hne : a ≠ e) : a + PGSIZE ≤ e := by
  simp only [PGSIZE] at *
  omega

theorem pages_lt_of_add {n : Nat} (hle : a + PGSIZE ≤ e) (h : (e - a) / PGSIZE < n + 1) :
    (e - (a + PGSIZE)) / PGSIZE < n := by
  simp only [PGSIZE] at *
  omega

/-- The first page, and then the rest. -/
theorem MappedRange.step (hmod : current % PGSIZE = 0)
    (hlt : current + PGSIZE ≤ end_) (hfirst : MappedRange arch root perm current current pa s s')
    (hrest : MappedRange arch root perm (current + PGSIZE) end_ (add64 pa PGSIZE) s' s'') :
    MappedRange arch root perm current end_ pa s s'' where
  grown := hfirst.grown.trans hrest.grown
  mapped := by
    intro a ha hlo hhi
    by_cases hin : a < current + PGSIZE
    · rw [hrest.other a ha (.inl hin)]
      exact hfirst.mapped a ha hlo hin
    · rw [hrest.mapped a ha (by omega) hhi]
      have hpage : add64 (add64 pa PGSIZE) (pgRoundDown a - (current + PGSIZE)) =
          add64 pa (pgRoundDown a - current) := by
        simp only [add64, pgRoundDown, PGSIZE] at *
        omega
      rw [hpage]
  other := by
    intro a ha hout
    rw [hrest.other a ha (by omega)]
    exact hfirst.other a ha (by simp only [PGSIZE] at *; omega)

/-- The loop of `mappages` ends; when it returns 1, the pages are mapped and the tree is kept. -/
theorem Tree.mappagesLoop {n : Nat} (h : Tree arch s live root)
    (hmod : current % PGSIZE = 0) (hle : current ≤ end_) (hend : end_ < MAXVA arch) (hmod' : end_ % PGSIZE = 0)
    (hpa : pa < 2 ^ 64) (hperm : perm < 2 ^ 64) (hfuel : (end_ - current) / PGSIZE < n) :
    ∃ m, PageTable.mappagesLoop arch root perm end_ n current pa s = some m ∧
      ∀ s', m = .returned 1 s' → ∃ live', Tree arch s' live' root ∧
        MappedRange arch root perm current end_ pa s s' := by
  induction n generalizing current pa s live with
  | zero => exact absurd hfuel (Nat.not_lt_zero _)
  | succ n ih =>
    have hcur : current < MAXVA arch := by omega
    have hlast : PT_LEVEL arch - 1 < PT_LEVEL arch := Nat.sub_one_lt_of_lt (shape arch).depth_pos
    obtain ⟨pte, s₁, live₁, hwalk, htree, hwalked, hpte⟩ := h.walk hcur
    unfold PageTable.mappagesLoop
    simp only [hwalk]
    by_cases hnull : pte = NULL
    · rw [if_pos hnull]
      exact ⟨_, rfl, fun s' heq => by cases heq⟩
    · rw [if_neg hnull]
      obtain ⟨t, ht, rfl⟩ := hpte.resolve_left hnull
      by_cases hvalid : ld s₁ (t + (shape arch).offset (PT_LEVEL arch - 1) current) &&& PTE_V ≠ 0
      · rw [if_pos hvalid]
        exact ⟨_, rfl, fun s' heq => by cases heq⟩
      · rw [if_neg hvalid]
        obtain ⟨htree₂, hgrown₂, hleaf₂⟩ := htree.writeLeaf (leafEntry_lt hpa hperm) hcur ht
        -- the page that this round maps
        have hfirst : MappedRange arch root perm current current pa s
            (st s₁ (t + (shape arch).offset (PT_LEVEL arch - 1) current) (leafEntry arch pa perm)) := {
          grown := hwalked.toGrown.trans hgrown₂
          mapped := by
            intro a ha hlo hhi
            have hpage : a / PGSIZE = current / PGSIZE := by
              simp only [PGSIZE] at *
              omega
            have hzero : add64 pa (pgRoundDown a - current) = pa := by
              simp only [add64, pgRoundDown, PGSIZE] at *
              omega
            rw [hleaf₂ a ha, if_pos hpage, hzero]
          other := by
            intro a ha hout
            have hpage : a / PGSIZE ≠ current / PGSIZE := by
              simp only [PGSIZE] at *
              omega
            rw [hleaf₂ a ha, if_neg hpage, hwalked.leaf] }
        by_cases hdone : current = end_
        · rw [if_pos hdone]
          refine ⟨_, rfl, fun s' heq => ?_⟩
          cases heq
          rw [← hdone]
          exact ⟨live₁, htree₂, hfirst⟩
        · rw [if_neg hdone]
          have hmax : MAXVA arch ≤ 2 ^ 46 := by cases arch <;> decide
          have hstep : add64 current PGSIZE = current + PGSIZE := by
            simp only [add64, PGSIZE]
            omega
          have hnext : current + PGSIZE ≤ end_ := add_page_le hmod hmod' hle hdone
          have hmod₂ : (current + PGSIZE) % PGSIZE = 0 := by
            rw [Nat.add_mod_right]
            exact hmod
          have hfuel₂ : (end_ - (current + PGSIZE)) / PGSIZE < n := pages_lt_of_add hnext hfuel
          have hpa₂ : add64 pa PGSIZE < 2 ^ 64 := Nat.mod_lt _ (by decide)
          rw [hstep]
          obtain ⟨m, hrun, hres⟩ := ih htree₂ hmod₂ hnext hpa₂ hfuel₂
          refine ⟨m, hrun, fun s' heq => ?_⟩
          obtain ⟨live', htree', hrest⟩ := hres s' heq
          exact ⟨live', htree', hfirst.step hmod hnext hrest⟩

/-! ## Well-formed page tables -/

/-- The page is neither a table of the page table nor a free page of the allocator. -/
def Apart (arch : Arch) (s : Pmem) (root page : Nat) : Prop :=
  (∀ a n, n < PT_LEVEL arch → table arch s root a n ≠ some page) ∧ ∀ q, s.FreePage q → page ≠ s.pageAddr q

/-- A page table: a tree whose tables are apart from the pages it maps. -/
structure WellFormed (arch : Arch) (s : Pmem) (live : List Block) (root : Nat) : Prop
    extends Tree arch s live root where
  data : ∀ va < MAXVA arch, readLeaf arch root va s &&& PTE_V ≠ 0 →
    Apart arch s root (pageOf arch (readLeaf arch root va s))

/-- What is apart stays so when the page table grows. -/
theorem Apart.grown {page : Nat} (h : Apart arch s root page) (hgrown : Grown arch root s s') :
    Apart arch s' root page := by
  constructor
  · intro a n hn ht
    rcases hgrown.tables hn ht with ht | ⟨q, hq, hfree⟩
    · exact h.1 a n hn ht
    · exact h.2 q hfree hq
  · intro q hq heq
    rw [hgrown.same.pageAddr] at heq
    exact h.2 q (hgrown.free q hq) heq

/-- `&` with `PTE_V` finds the bit that was set last. -/
theorem leafEntry_valid (arch : Arch) (pa perm : Nat) : leafEntry arch pa perm &&& PTE_V ≠ 0 := by
  have hbit : (leafEntry arch pa perm &&& PTE_V).testBit 0 = true := by
    simp [leafEntry, PTE_V]
  intro h0
  rw [h0] at hbit
  cases hbit

/-- A mapped page is found by `walk`. -/
theorem Tree.walk_of_leaf (h : Tree arch s live root) (hva : va < MAXVA arch)
    (hleaf : Radix.leaf (shape arch) (ld s) root va = leafEntry arch pa perm) :
    ∃ pte, PageTable.walk arch root va false s = some (pte, s) ∧ pte ≠ NULL ∧
      ld s pte = leafEntry arch pa perm := by
  have hlast : PT_LEVEL arch - 1 < PT_LEVEL arch := Nat.sub_one_lt_of_lt (shape arch).depth_pos
  have hwalk := h.walk_read hva
  have helim : Radix.leaf (shape arch) (ld s) root va = (table arch s root va (PT_LEVEL arch - 1)).elim 0
      fun t => ld s (t + (shape arch).offset (PT_LEVEL arch - 1) va) := rfl
  rw [helim] at hleaf
  cases ht : table arch s root va (PT_LEVEL arch - 1) with
  | none =>
    rw [ht, Option.elim_none] at hleaf
    have hvalid := leafEntry_valid arch pa perm
    rw [← hleaf] at hvalid
    exact absurd rfl hvalid
  | some t =>
    rw [ht, Option.elim_some] at hwalk hleaf
    exact ⟨_, hwalk, h.slot_ne_null hlast ht _, hleaf⟩

/-- `mappages` on a tree ends, and when it returns 1 the range is mapped and the tree is kept. -/
theorem Tree.mappages (h : Tree arch s live root) (va pa len perm : Nat) (hlen : 0 < len)
    (hva : va + len ≤ MAXVA arch) (hpa : pa % PGSIZE = 0) (hpa64 : pa < 2 ^ 64) (hperm : perm < 2 ^ 64) :
    ∃ m, PageTable.mappages arch root va pa len perm s = some m ∧ ∀ s', m = .returned 1 s' →
      ∃ live', Tree arch s' live' root ∧
        MappedRange arch root perm (pgRoundDown va) (pgRoundDown (va + len - 1)) pa s s' := by
  have hmax : MAXVA arch ≤ 2 ^ 46 := by cases arch <;> decide
  have hend : sub64 (add64 va len) 1 = va + len - 1 := by
    rw [sub64, add64]
    omega
  have hbegin : pgRoundDown va ≤ pgRoundDown (va + len - 1) :=
    Nat.mul_le_mul_right _ (Nat.div_le_div_right (by omega))
  have hlast : pgRoundDown (va + len - 1) < MAXVA arch := by
    have : pgRoundDown (va + len - 1) ≤ va + len - 1 := Nat.div_mul_le_self _ _
    omega
  unfold PageTable.mappages
  rw [if_neg (by omega), hend]
  exact h.mappagesLoop (Nat.mul_mod_left _ _) hbegin hlast (Nat.mul_mod_left _ _) hpa64 hperm
    (Nat.lt_succ_self _)

/-- `mappages` ends on every page table and for every range; if it returns 1, every page of the range
is mapped to its page of memory with the given flags, every other leaf reads as before, the tables are
a tree again, and the page table is well formed again if the pages it now maps are apart from it. -/
theorem mappages_correct (h : WellFormed arch s live root) (va pa len perm : Nat) (hlen : 0 < len)
    (hva : va + len ≤ MAXVA arch) (hpa : pa % PGSIZE = 0) (hpa64 : pa < 2 ^ 64) (hperm : perm < 2 ^ 64) :
    ∃ m, mappages arch root va pa len perm s = some m ∧ ∀ s', m = .returned 1 s' →
      (∀ a < MAXVA arch, pgRoundDown va ≤ a → a < pgRoundDown (va + len - 1) + PGSIZE →
        ∃ pte, walk arch root a false s' = some (pte, s') ∧ pte ≠ NULL ∧
          ld s' pte = PA2PTE arch (add64 pa (pgRoundDown a - pgRoundDown va)) ||| perm ||| PTE_V) ∧
      (∀ a < MAXVA arch, a < pgRoundDown va ∨ pgRoundDown (va + len - 1) + PGSIZE ≤ a →
        readLeaf arch root a s' = readLeaf arch root a s) ∧
      ∃ live', Tree arch s' live' root ∧
        ((∀ a, pgRoundDown va ≤ a → a < pgRoundDown (va + len - 1) + PGSIZE → Apart arch s root
          (pageOf arch (PA2PTE arch (add64 pa (pgRoundDown a - pgRoundDown va)) ||| perm ||| PTE_V))) →
          WellFormed arch s' live' root) := by
  obtain ⟨m, hrun, hres⟩ := h.toTree.mappages va pa len perm hlen hva hpa hpa64 hperm
  refine ⟨m, hrun, fun s' hret => ?_⟩
  obtain ⟨live', htree, hrange⟩ := hres s' hret
  refine ⟨fun a ha hlo hhi => htree.walk_of_leaf ha (hrange.mapped a ha hlo hhi), fun a ha hout => ?_,
    live', htree, fun hnew => { toTree := htree, data := fun a ha hvalid => ?_ }⟩
  · rw [htree.readLeaf_eq ha, h.toTree.readLeaf_eq ha]
    exact hrange.other a ha hout
  · by_cases hin : pgRoundDown va ≤ a ∧ a < pgRoundDown (va + len - 1) + PGSIZE
    · rw [htree.readLeaf_eq ha, hrange.mapped a ha hin.1 hin.2]
      exact (hnew a hin.1 hin.2).grown hrange.grown
    · have hsame : readLeaf arch root a s' = readLeaf arch root a s := by
        rw [htree.readLeaf_eq ha, h.toTree.readLeaf_eq ha]
        apply hrange.other a ha
        rcases Nat.lt_or_ge a (pgRoundDown va) with hlo | hlo
        · exact .inl hlo
        · exact .inr (Nat.not_lt.mp fun hhi => hin ⟨hlo, hhi⟩)
      rw [hsame] at hvalid ⊢
      exact (h.data a ha hvalid).grown hrange.grown

/-- The entries of a fresh page are zero. -/
theorem ld_fresh (arch : Arch) (h : s.Wf live) (hh : Pmem.Wf.Handed s live 1 s' b) (horder : b.order = 0) (n va : Nat) :
    ld s' (s'.pageAddr b.page + (shape arch).offset n va) = 0 := by
  have hmod : (s'.pageAddr b.page + (shape arch).offset n va) % 8 = 0 := by
    have h1 : s'.pageAddr b.page % 8 = 0 := Radix.mod_eight (R := shape arch) (pageAddr_mod hh.wf.region b.page)
    have h2 := (shape arch).offset_mod n va
    omega
  have hin : s.pageAddr b.page ≤ s'.pageAddr b.page + (shape arch).offset n va ∧
      s'.pageAddr b.page + (shape arch).offset n va < s.pageAddr b.page + PGSIZE := by
    have := (shape arch).offset_lt n va
    rw [hh.same.pageAddr]
    exact ⟨Nat.le_add_right _ _, Nat.add_lt_add_left this _⟩
  rw [ld_handed h.region hh horder _ hmod, if_pos hin]

/-- A fresh page is an empty page table. -/
theorem wellFormed_of_handed (h : s.Wf live) (hwin : InWindow arch s)
    (hh : Pmem.Wf.Handed s live 1 s' b) (horder : b.order = 0) :
    WellFormed arch s' (b :: live) (s'.pageAddr b.page) := by
  have hr := hh.wf.region
  have hpage := pageAddr_mod hr b.page
  have hclear := ld_fresh arch h hh horder
  obtain ⟨hwf, hempty⟩ := Radix.wf_of_clear (R := shape arch) hpage hclear
  have htree : Tree arch s' (b :: live) (s'.pageAddr b.page) := {
    alloc := hh.wf
    window := hwin.congr hh.same
    wf := hwf
    tables := by
      intro va n t _ ht
      cases n with
      | zero => exact ⟨b.page, (Option.some_inj.mp ht).symm, b, List.mem_cons_self, b.page_mem⟩
      | succ n =>
        rw [table, (hempty va).1 n] at ht
        cases ht }
  refine { toTree := htree, data := fun va hva hvalid => ?_ }
  rw [htree.readLeaf_eq hva, (hempty va).2] at hvalid
  exact absurd rfl hvalid

/-- The value that a finished `mappages` returned. -/
def Mapped.result : Mapped → Option Int
  | .returned r _ => some r
  | .failed => none

theorem Mapped.exists_of_result {m : Mapped} {r : Int} (h : m.result = some r) : ∃ s, m = .returned r s := by
  cases m with
  | returned r' s =>
    obtain rfl := Option.some_inj.mp h
    exact ⟨s, rfl⟩
  | failed => cases h

/-- The first page of a region of sixteen pages as an empty page table, before `mappages`. -/
theorem exists_emptyPageTable (va pa len perm : Nat) (hrun : ((buddyInit 0x80000000 0x80010000 fun _ => 0).bind fun s =>
    (s.pmemAllocPages 1).bind fun r => (mappages .riscv r.1 va pa len perm r.2).bind fun m =>
      m.result.map fun code => (r.1, code)) = some (0x80008000, 1)) :
    ∃ s live s', WellFormed .riscv s live 0x80008000 ∧
      mappages .riscv 0x80008000 va pa len perm s = some (.returned 1 s') := by
  obtain ⟨s₀, hinit, hrun⟩ := Option.bind_eq_some_iff.mp hrun
  obtain ⟨⟨root, s⟩, hcall, hrun⟩ := Option.bind_eq_some_iff.mp hrun
  obtain ⟨m, hmap, hrun⟩ := Option.bind_eq_some_iff.mp hrun
  obtain ⟨code, hcode, hres⟩ := Option.map_eq_some_iff.mp hrun
  simp only [Prod.mk.injEq] at hres
  obtain ⟨rfl, rfl⟩ := hres
  obtain ⟨s', rfl⟩ := Mapped.exists_of_result hcode
  obtain ⟨s₀', L, hinit', -, -, -, hinv, -⟩ := buddyInit_inv validRegion_sixteenPages fun _ => 0
  obtain rfl : s₀' = s₀ := Option.some_inj.mp (hinit'.symm.trans hinit)
  have hwf : s₀'.Wf [] := ⟨L, hinv⟩
  obtain ⟨b, hroot, hh, horder⟩ := hwf.handed_one hcall (by decide)
  have hwindow : InWindow .riscv s₀' := trivial
  have hwell := wellFormed_of_handed hwf hwindow hh horder
  rw [← hroot] at hwell
  exact ⟨_, [b], s', hwell, hmap⟩

/-- Two pages mapped into an empty page table; the second one is found. -/
theorem mappages_correct_twoPages : ∃ s s' : Pmem,
    mappages .riscv 0x80008000 0x1000 0x80000000 0x2000 6 s = some (.returned 1 s') ∧
      ∃ pte, walk .riscv 0x80008000 0x2000 false s' = some (pte, s') ∧ ld s' pte = 0x20000407 := by
  obtain ⟨s, live, s', hwell, hmap⟩ := exists_emptyPageTable 0x1000 0x80000000 0x2000 6 (by decide +kernel)
  obtain ⟨m, hmap', hres⟩ := mappages_correct hwell 0x1000 0x80000000 0x2000 6 (by decide) (by decide)
    (by decide) (by decide) (by decide)
  obtain rfl : m = .returned 1 s' := Option.some_inj.mp (hmap'.symm.trans hmap)
  obtain ⟨pte, hwalk, -, hpte⟩ := (hres s' rfl).1 0x2000 (by decide) (by decide) (by decide)
  exact ⟨s, s', hmap, pte, hwalk, hpte⟩

/-- `mappages` does not look at the page it maps: given the root table itself as memory, it returns 1,
and a table of the page table is now a page that it maps. -/
theorem not_wellFormed_mapped : ∃ (s s' : Pmem) (live : List Block), WellFormed .riscv s live 0x80008000 ∧
    mappages .riscv 0x80008000 0x1000 0x80008000 0x1000 6 s = some (.returned 1 s') ∧
      ∀ live', ¬WellFormed .riscv s' live' 0x80008000 := by
  obtain ⟨s, live, s', hwell, hmap⟩ := exists_emptyPageTable 0x1000 0x80008000 0x1000 6 (by decide +kernel)
  refine ⟨s, s', live, hwell, hmap, fun live' hwell' => ?_⟩
  obtain ⟨m, hmap', hres⟩ := hwell.toTree.mappages 0x1000 0x80008000 0x1000 6 (by decide) (by decide)
    (by decide) (by decide) (by decide)
  obtain rfl : m = .returned 1 s' := Option.some_inj.mp (hmap'.symm.trans hmap)
  obtain ⟨live'', htree, hrange⟩ := hres s' rfl
  have hleaf : readLeaf .riscv 0x80008000 0x1000 s' = 0x20002007 := by
    rw [htree.readLeaf_eq (by decide)]
    exact hrange.mapped 0x1000 (by decide) (by decide) (by decide)
  have hapart := hwell'.data 0x1000 (by decide) (by rw [hleaf]; decide)
  rw [hleaf] at hapart
  exact hapart.1 0 0 (by decide) rfl

end PageTable

end SC7
