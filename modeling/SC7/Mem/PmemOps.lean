-- SUMMARY: What `buddy_alloc` and `buddy_free` do to the blocks of an allocator that satisfies its invariant.
import SC7.Mem.PmemInv

/-!
# Allocation and release

Every function of the buddy system is a sequence of the moves of `Core`. The lemmas of this
module say for `buddy_alloc` and `buddy_free` that they return (no `panic`, no failed
`ASSERT`), that they keep the invariant, and which blocks are on the free lists afterwards.
-/

namespace SC7

open Function (update)
open Pmem

/-- The allocator still manages the same region. -/
structure Pmem.SameRegion (s s' : Pmem) : Prop where
  memStart : s'.memStart = s.memStart
  memEnd : s'.memEnd = s.memEnd
  totalPages : s'.totalPages = s.totalPages

namespace Pmem.SameRegion

variable {s s' s'' : Pmem}

theorem refl (s : Pmem) : SameRegion s s := ⟨rfl, rfl, rfl⟩

theorem trans (h : SameRegion s s') (h' : SameRegion s' s'') : SameRegion s s'' :=
  ⟨h'.memStart.trans h.memStart, h'.memEnd.trans h.memEnd, h'.totalPages.trans h.totalPages⟩

theorem pageAddr (h : SameRegion s s') (p : Nat) : s'.pageAddr p = s.pageAddr p := by
  simp only [Pmem.pageAddr, h.memStart]

theorem pageNumber (h : SameRegion s s') (p : Nat) : s'.pageNumber p = s.pageNumber p := by
  simp only [Pmem.pageNumber, h.memStart]

theorem region (h : SameRegion s s') (hr : s.Region) : s'.Region := by
  rw [Region, h.memStart, h.memEnd, h.totalPages]
  exact hr

theorem placed {b : Block} (h : SameRegion s s') (hp : s.Placed b) : s'.Placed b := by
  rw [Placed, h.memStart, h.totalPages]
  exact hp

end Pmem.SameRegion

/-- Recording a block, as the source does it: the first node, its links, then all nodes. -/
theorem Pmem.setBlockMetadata_setNode {s : Pmem} {b : Block} (hr : s.Region) (hb : s.Placed b)
    (node : BuddyNode) :
    ((s.setNode b.page node).clearElem b.page).setBlockMetadata (s.pageAddr b.page) b.order =
      (s.recordBlock b).clearElem b.page :=
  calc ((s.setNode b.page node).clearElem b.page).setBlockMetadata (s.pageAddr b.page) b.order
    _ = ((s.setNode b.page node).recordBlock b).clearElem b.page :=
        setBlockMetadata_eq (s := (s.setNode b.page node).clearElem b.page) hb hr
    _ = (s.recordBlock b).clearElem b.page := by rw [recordBlock_setNode b.page_mem]

theorem Pmem.add64_pageAddr {s : Pmem} (hr : s.Region) {p k : Nat} (h : p + 2 ^ k ≤ s.totalPages) :
    add64 (s.pageAddr p) (blockSize (k : Int)) = s.pageAddr (p + 2 ^ k) := by
  have heq : s.pageAddr p + PGSIZE * 2 ^ k = s.pageAddr (p + 2 ^ k) := by
    simp only [pageAddr]
    ring
  rw [add64, blockSize_natCast, heq, Nat.mod_eq_of_lt (pageAddr_lt hr h)]

theorem Pmem.test_setBuddyFree {s : Pmem} {b : Block} (hr : s.Region) (hb : s.Placed b) (q : Nat) :
    (s.setBuddyFree (s.pageAddr b.page) b.order).bitmap.test q = (!decide (q ∈ b) && s.bitmap.test q) := by
  have hidx := pageIdx_pageAddr hr (Nat.le_of_lt hb.page_lt)
  rw [setBuddyFree, Bitmap.test_clearRange, hidx, blockSize_div]
  rfl

theorem Pmem.test_setBuddyUsed {s : Pmem} {b : Block} (hr : s.Region) (hb : s.Placed b) (q : Nat) :
    (s.setBuddyUsed (s.pageAddr b.page) b.order).bitmap.test q = (decide (q ∈ b) || s.bitmap.test q) := by
  have hidx := pageIdx_pageAddr hr (Nat.le_of_lt hb.page_lt)
  rw [setBuddyUsed, Bitmap.test_setRange, hidx, blockSize_div]
  rfl

/-- Pushing a page that is on no list. -/
theorem Pmem.pushFront_of_lists {s : Pmem} {L : Nat → List Nat} {k p : Nat} (h : FreeLists s.elems L)
    (hk : k ≤ BUDDY_MAX_ORDER) (hp : ∀ j, p ∉ L j) :
    ∃ E, (s.clearElem p).pushFront k p = some { s with elems := E } ∧
      FreeLists E (update L k (p :: L k)) := by
  obtain ⟨E, hpush, hlists⟩ := (h.clear hp).push hk hp
  refine ⟨E, ?_, hlists⟩
  simp only [pushFront, clearElem, hpush, Option.map_some]

/-- A successful `buddy_alloc(o)`: it took the block of order `k` at page `p` off the lists,
handed out its first `2 ^ o` pages and listed the rest. -/
structure Allocated (s : Pmem) (L : Nat → List Nat) (live : List Block) (C : Nat → Prop)
    (p k o : Nat) (s' : Pmem) (L' : Nat → List Nat) : Prop where
  order_le : o ≤ k
  mem_list : p ∈ L k
  inv : Inv s' L' (⟨p, o⟩ :: live) none C
  same : SameRegion s s'
  mem_eq : s'.mem = (s.zero (s.pageAddr p) (blockSize o)).mem
  listed : ∀ b : Block, b.page ∈ L' b.order ↔
    (b.page ∈ L b.order ∧ b ≠ ⟨p, k⟩) ∨ ∃ j, o ≤ j ∧ j < k ∧ b = ⟨p + 2 ^ j, j⟩

namespace Inv

variable {s : Pmem} {L : Nat → List Nat} {live : List Block} {det : Option Block} {C : Nat → Prop}
  {b : Block} {p k : Nat}

theorem region (h : Inv s L live det C) : s.Region := h.core.region

/-- The detached block is on no free list. -/
theorem detached_not_listed (h : Inv s L live (some b) C) (j : Nat) : b.page ∉ L j := by
  intro hmem
  obtain ⟨-, -, hfree, -⟩ := h.core.detached b rfl
  exact hfree ⟨b.page, j⟩ hmem b.page b.page_mem (Block.page_mem ⟨b.page, j⟩)

/-- The invariant only reads the region, the lists, the nodes and the bits. -/
theorem congr {s' : Pmem} (h : Inv s L live det C) (hsame : SameRegion s s')
    (helems : s'.elems = s.elems) (hnodes : s'.nodes = s.nodes)
    (hbits : ∀ q, s'.bitmap.test q = s.bitmap.test q) : Inv s' L live det C :=
  ⟨helems ▸ h.lists, h.core.congr hsame.memStart hsame.memEnd hsame.totalPages hnodes hbits⟩

/-! ## Taking blocks off and putting them on the lists -/

theorem pop {l : List Nat} (h : Inv s L live none C) (hL : L k = p :: l) :
    ∃ E, listPopFront .null s.elems (freeLists k) = some (.node p, E) ∧
      Inv { s with elems := E } (update L k l) live (some ⟨p, k⟩) C := by
  obtain ⟨E, hpop, hlists⟩ := h.lists.pop hL
  have hmem : p ∈ L k := by simp [hL]
  have hnd := h.lists.nodup (h.lists.le_of_mem hmem)
  have herase : l = (L k).erase p := by rw [hL, List.erase_cons_head]
  refine ⟨E, hpop, hlists, ?_⟩
  rw [herase]
  have hcore := (h.core.detach (b := ⟨p, k⟩) hmem).congr_free (fun b' => mem_erase hnd)
  exact hcore.congr rfl rfl rfl rfl fun _ => rfl

/-- The detached block is recorded and goes to the front of its list. -/
theorem relist (h : Inv s L live (some ⟨p, k⟩) C) (node : BuddyNode) :
    ∃ s', (((s.setNode p node).clearElem p).setBlockMetadata (s.pageAddr p) k).pushFront k p = some s' ∧
      Inv s' (update L k (p :: L k)) live none C ∧
      SameRegion s s' ∧ s'.mem = s.mem ∧ s'.bitmap = s.bitmap := by
  obtain ⟨hplaced, -⟩ := h.core.detached _ rfl
  have hrec := setBlockMetadata_setNode h.region hplaced node
  obtain ⟨E, hpush, hlists⟩ := pushFront_of_lists (s := s.recordBlock ⟨p, k⟩) h.lists hplaced.order_le
    h.detached_not_listed
  refine ⟨_, (congrArg (pushFront · k p) hrec).trans hpush, ⟨hlists, ?_⟩, ⟨rfl, rfl, rfl⟩, rfl, rfl⟩
  have hcore := h.core.attach.congr_free (fun b' => mem_push)
  exact hcore.congr rfl rfl rfl rfl fun _ => rfl

/-- One round of the split loop: the upper half of the detached block becomes free. -/
theorem split (h : Inv s L live (some ⟨p, k + 1⟩) C) (node : BuddyNode) :
    ∃ s', (((s.setNode (p + 2 ^ k) node).clearElem (p + 2 ^ k)).setBlockMetadata
          (s.pageAddr (p + 2 ^ k)) k).pushFront k (p + 2 ^ k) = some s' ∧
      Inv (s'.setBuddyFree (s.pageAddr (p + 2 ^ k)) k)
        (update L k ((p + 2 ^ k) :: L k)) live (some ⟨p, k⟩) C ∧
      SameRegion s (s'.setBuddyFree (s.pageAddr (p + 2 ^ k)) k) ∧ s'.mem = s.mem := by
  have hsplit := h.core.split
  obtain ⟨hplaced, -, hclear⟩ := hsplit.free _ (.inl rfl)
  have hnot : ∀ j, p + 2 ^ k ∉ L j := by
    intro j hmem
    obtain ⟨-, -, hfree, -⟩ := h.core.detached _ rfl
    refine hfree ⟨p + 2 ^ k, j⟩ hmem (p + 2 ^ k) ?_ (Block.page_mem ⟨p + 2 ^ k, j⟩)
    have := Nat.two_pow_pos k
    simp only [Block.mem_def, Nat.pow_succ]
    omega
  have hrec := setBlockMetadata_setNode (s := s) h.region hplaced node
  obtain ⟨E, hpush, hlists⟩ := pushFront_of_lists (s := s.recordBlock ⟨p + 2 ^ k, k⟩) h.lists hplaced.order_le hnot
  refine ⟨_, (congrArg (pushFront · k (p + 2 ^ k)) hrec).trans hpush, ⟨hlists, ?_⟩, ⟨rfl, rfl, rfl⟩, rfl⟩
  have hcore := hsplit.congr_free (fun b' => mem_push)
  -- the pages of the upper half were clear already
  refine hcore.congr rfl rfl rfl rfl fun q => ?_
  refine (test_setBuddyFree (s := { s.recordBlock ⟨p + 2 ^ k, k⟩ with elems := E }) h.region hplaced q).trans ?_
  by_cases hq : q ∈ (⟨p + 2 ^ k, k⟩ : Block)
  · rw [decide_eq_true hq, Bool.not_true, Bool.false_and]
    exact (hclear q hq).symm
  · rw [decide_eq_false hq, Bool.not_false, Bool.true_and]

/-! ## `buddy_alloc` -/

/-- The blocks that splitting the block of order `o + n` at page `p` down to order `o` leaves
over. -/
theorem splitLoop {o n : Nat} (h : Inv s L live (some ⟨p, o + n⟩) C) :
    ∃ s' L', Pmem.splitLoop (s.pageAddr p) o n s = some s' ∧ Inv s' L' live (some ⟨p, o⟩) C ∧
      SameRegion s s' ∧ s'.mem = s.mem ∧
      ∀ b : Block, b.page ∈ L' b.order ↔
        b.page ∈ L b.order ∨ ∃ j, o ≤ j ∧ j < o + n ∧ b = ⟨p + 2 ^ j, j⟩ := by
  induction n generalizing s L with
  | zero =>
    refine ⟨s, L, rfl, h, .refl s, rfl, fun b => ?_⟩
    constructor
    · exact .inl
    · rintro (hb | ⟨j, h1, h2, -⟩)
      · exact hb
      · omega
  | succ n ih =>
    have hfits : p + 2 ^ (o + n + 1) ≤ s.totalPages := (h.core.detached _ rfl).1.fits
    have hpow : 2 ^ (o + n + 1) = 2 ^ (o + n) + 2 ^ (o + n) := by ring
    have hpos := Nat.two_pow_pos (o + n)
    have hbuddy := add64_pageAddr h.region (p := p) (k := o + n) (by omega)
    have hidx : s.pageIdx (s.pageAddr (p + 2 ^ (o + n))) = p + 2 ^ (o + n) :=
      pageIdx_pageAddr h.region (by omega)
    obtain ⟨s₁, hround, hinv, hsame, hmem⟩ :=
      Inv.split (k := o + n) h ⟨s.pageAddr (p + 2 ^ (o + n)), (o + n : Nat)⟩
    obtain ⟨s', L', hloop, hinv', hsame', hmem', hlist⟩ := ih hinv
    have haddr : (s₁.setBuddyFree (s.pageAddr (p + 2 ^ (o + n))) (o + n : Nat)).pageAddr p = s.pageAddr p :=
      hsame.pageAddr p
    rw [haddr] at hloop
    refine ⟨s', L', ?_, hinv', hsame.trans hsame', hmem'.trans hmem, fun b => ?_⟩
    · simp only [Pmem.splitLoop, hbuddy, hidx, hround, Option.bind_eq_bind, Option.bind_some, hloop]
    · rw [hlist b, mem_push]
      constructor
      · rintro ((hb | hb) | ⟨j, h1, h2, hb⟩)
        · exact .inr ⟨o + n, by omega, by omega, hb⟩
        · exact .inl hb
        · exact .inr ⟨j, h1, by omega, hb⟩
      · rintro (hb | ⟨j, h1, h2, hb⟩)
        · exact .inl (.inr hb)
        · by_cases hj : j = o + n
          · subst hj
            exact .inl (.inl hb)
          · exact .inr ⟨j, h1, by omega, hb⟩

/-- `find_order` finds the smallest order from `k` on that has a free block. -/
theorem findOrder_some {n j : Nat} (h : Inv s L live none C) (hkn : k + n ≤ BUDDY_MAX_ORDER + 1)
    (hfind : s.findOrder k n = some j) :
    k ≤ j ∧ L j ≠ [] ∧ ∀ i, k ≤ i → i < j → L i = [] := by
  induction n generalizing k with
  | zero => cases hfind
  | succ n ih =>
    rw [findOrder] at hfind
    split at hfind
    · rename_i hempty
      obtain ⟨h1, h2, h3⟩ := ih (by omega) hfind
      refine ⟨by omega, h2, fun i hki hij => ?_⟩
      by_cases hik : i = k
      · rw [hik]
        exact (h.lists.empty_iff (by omega)).mp hempty
      · exact h3 i (by omega) hij
    · rename_i hempty
      cases hfind
      refine ⟨le_refl _, fun hnil => hempty ((h.lists.empty_iff (by omega)).mpr hnil), ?_⟩
      intro i h1 h2
      omega

theorem findOrder_none {n : Nat} (h : Inv s L live none C) (hkn : k + n ≤ BUDDY_MAX_ORDER + 1)
    (hfind : s.findOrder k n = none) : ∀ i, k ≤ i → i < k + n → L i = [] := by
  induction n generalizing k with
  | zero =>
    intro i h1 h2
    omega
  | succ n ih =>
    rw [findOrder] at hfind
    split at hfind
    · rename_i hempty
      intro i hki hin
      by_cases hik : i = k
      · rw [hik]
        exact (h.lists.empty_iff (by omega)).mp hempty
      · exact ih (by omega) hfind i (by omega) (by omega)
    · cases hfind

theorem buddyAlloc (h : Inv s L live none C) (order : Int) :
    (s.buddyAlloc order = some (NULL, s) ∧ (0 ≤ order → ∀ j : Nat, order ≤ j → L j = [])) ∨
      ∃ (p k o : Nat) (s' : Pmem) (L' : Nat → List Nat), order = o ∧ s.buddyAlloc order = some (s.pageAddr p, s') ∧
        Allocated s L live C p k o s' L' := by
  by_cases hvalid : order < 0 ∨ order > BUDDY_MAX_ORDER
  · refine .inl ⟨by rw [Pmem.buddyAlloc, if_pos hvalid], fun h0 j hj => h.lists.beyond j ?_⟩
    omega
  obtain ⟨o, rfl⟩ : ∃ o : Nat, order = (o : Int) := ⟨order.toNat, by omega⟩
  have ho : o ≤ BUDDY_MAX_ORDER := by omega
  cases hfind : s.findOrder o (BUDDY_MAX_ORDER + 1 - o) with
  | none =>
    refine .inl ⟨?_, fun _ j hj => ?_⟩
    · rw [Pmem.buddyAlloc, if_neg hvalid, Int.toNat_natCast, hfind]
    · by_cases hjm : j ≤ BUDDY_MAX_ORDER
      · exact h.findOrder_none (by omega) hfind j (by omega) (by omega)
      · exact h.lists.beyond j (by omega)
  | some k =>
    obtain ⟨hok, hne, -⟩ := h.findOrder_some (by omega) hfind
    obtain ⟨p, l, hL⟩ := List.exists_cons_of_ne_nil hne
    have hmem : p ∈ L k := by simp [hL]
    have haddr : (s.nodes p).addr = s.pageAddr p := by
      rw [(h.core.free ⟨p, k⟩ hmem).2.1 p (Block.page_mem ⟨p, k⟩)]
    obtain ⟨E, hpop, hinv⟩ := h.pop hL
    obtain ⟨n, rfl⟩ : ∃ n, k = o + n := ⟨k - o, by omega⟩
    obtain ⟨s₁, L₁, hloop, hinv₁, hsame, hmem₁, hlist⟩ := hinv.splitLoop
    have hplaced := (hinv₁.core.detached _ rfl).1
    have hpage : s₁.pageAddr p = s.pageAddr p := hsame.pageAddr p
    let s₂ := (s₁.zero (s.pageAddr p) (blockSize o)).recordBlock ⟨p, o⟩
    let s₃ := (s₂.clearElem p).setBuddyUsed (s.pageAddr p) o
    have hrec : (((s₁.zero (s.pageAddr p) (blockSize o)).setNode p ⟨s.pageAddr p, o⟩).clearElem
        p).setBlockMetadata (s.pageAddr p) o = s₂.clearElem p :=
      (congrArg (setBlockMetadata _ · o) hpage.symm).trans
        (setBlockMetadata_setNode (s := s₁.zero _ _) (b := ⟨p, o⟩) hinv₁.region hplaced _)
    have hbits : ∀ q, s₃.bitmap.test q = (decide (q ∈ (⟨p, o⟩ : Block)) || s₁.bitmap.test q) :=
      fun q => (congrArg (fun a => (setBuddyUsed _ a o).bitmap.test q) hpage.symm).trans
        (test_setBuddyUsed (s := s₂.clearElem p) (b := ⟨p, o⟩) hinv₁.region hplaced q)
    refine .inr ⟨p, o + n, o, s₃, L₁, rfl, ?_, hok, hmem, ⟨?_, ?_⟩,
      ⟨hsame.memStart, hsame.memEnd, hsame.totalPages⟩, ?_, ?_⟩
    · simp only [Pmem.buddyAlloc, if_neg hvalid, Int.toNat_natCast, hfind, hpop,
        Option.bind_eq_bind, Option.bind_some, haddr, Nat.add_sub_cancel_left]
      rw [show Pmem.splitLoop (s.pageAddr p) o n { s with elems := E } = some s₁ from hloop]
      exact congrArg (fun t => some (s.pageAddr p, t.setBuddyUsed (s.pageAddr p) o)) hrec
    · exact hinv₁.lists.clear hinv₁.detached_not_listed
    · exact (hinv₁.core.claim hbits).congr rfl rfl rfl rfl fun _ => rfl
    · exact congrArg (fun m => fun a => if s.pageAddr p ≤ a ∧ a < s.pageAddr p + blockSize o then 0
        else m a) hmem₁
    · intro b
      rw [hlist b, ← mem_erase (h.lists.nodup (h.lists.le_of_mem hmem)), hL, List.erase_cons_head]

end Inv

/-! ## `buddy_free` -/

namespace Pmem

variable {s : Pmem} {p q k : Nat}

/-- An address whose index is a page of the region is the address of that page. -/
theorem eq_pageAddr_of_pageIdx_lt (hr : s.Region) {addr : Nat} (hmod : addr % PGSIZE = 0)
    (hlt : addr < 2 ^ 64) (hidx : s.pageIdx addr < s.totalPages) :
    addr = s.pageAddr (s.pageIdx addr) := by
  have h1 := hr.start_aligned
  have h2 := hr.end_eq
  have h3 := hr.end_lt
  simp only [pageIdx, sub64, pageAddr, PGSIZE] at *
  omega

theorem getBuddyAddr_eq (hr : s.Region) (p k : Nat) :
    getBuddyAddr (s.pageAddr p) k = PGSIZE * Dyadic.buddy k (s.pageNumber p) := by
  rw [getBuddyAddr, pageAddr_eq hr, blockSize_natCast]
  exact Dyadic.buddy_mul 12 k _

theorem getBuddyAddr_lt (hr : s.Region) (hp : p ≤ s.totalPages) (hk : k ≤ BUDDY_MAX_ORDER) :
    getBuddyAddr (s.pageAddr p) k < 2 ^ 64 := by
  refine Nat.xor_lt_two_pow (pageAddr_lt hr hp) ?_
  rw [blockSize_natCast]
  calc PGSIZE * 2 ^ k ≤ PGSIZE * 2 ^ BUDDY_MAX_ORDER :=
        Nat.mul_le_mul_left _ (Nat.pow_le_pow_right (by decide) hk)
    _ < 2 ^ 64 := by decide

/-- `is_buddy_available` on an aligned page: the offset in the region must be aligned as well. -/
theorem isBuddyAvailable_iff (hr : s.Region) (hq : q < s.totalPages)
    (hal : Dyadic.Aligned k (s.pageNumber q)) :
    s.isBuddyAvailable (s.pageAddr q) k = true ↔
      Dyadic.Aligned k (s.memStart / PGSIZE) ∧ s.nodes q = ⟨s.pageAddr q, k⟩ ∧ s.bitmap.test q = false := by
  have hidx : s.pageIdx (s.pageAddr q) = q := pageIdx_pageAddr hr (Nat.le_of_lt hq)
  have h1 : ¬ s.pageAddr q < s.memStart := by simp only [pageAddr]; omega
  have h2 : ¬ s.pageAddr q ≥ s.memEnd := by
    have := hr.end_eq
    simp only [pageAddr, PGSIZE] at *
    omega
  have hoff : sub64 (s.pageAddr q) s.memStart % blockSize k = 0 ↔ Dyadic.Aligned k (s.memStart / PGSIZE) := by
    have hsub : sub64 (s.pageAddr q) s.memStart = PGSIZE * q := by
      have h3 := pageAddr_lt hr (Nat.le_of_lt hq)
      have h4 := hr.end_lt
      have h5 := hr.end_eq
      simp only [pageAddr, sub64, PGSIZE] at *
      omega
    rw [hsub, blockSize_natCast, Nat.mul_mod_mul_left, Nat.mul_eq_zero]
    simp only [Dyadic.Aligned, pageNumber] at hal ⊢
    constructor
    · rintro (h | h)
      · cases h
      · exact Nat.mod_eq_zero_of_dvd
          ((Nat.dvd_add_left (Nat.dvd_of_mod_eq_zero h)).mp (Nat.dvd_of_mod_eq_zero hal))
    · intro h
      exact .inr (Nat.mod_eq_zero_of_dvd
        ((Nat.dvd_add_right (Nat.dvd_of_mod_eq_zero h)).mp (Nat.dvd_of_mod_eq_zero hal)))
  rw [isBuddyAvailable, hidx, ← hoff]
  cases hn : s.nodes q with
  | mk addr order =>
    simp only [decide_eq_false h1, decide_eq_false h2, Bool.false_or, bne_iff_ne, ne_eq, ite_not,
      BuddyNode.mk.injEq]
    simp [and_assoc]

end Pmem

/-- The merge loop on the detached block of order `k` at page `p`: it ends with the detached
block of order `k'` at page `p'`. A level is passed only if the start of the region is aligned
for it, and the loop stops below the maximal order only if the buddy is not on its list or the
start of the region is not aligned. -/
structure Merged (s : Pmem) (L : Nat → List Nat) (live : List Block) (C : Nat → Prop) (p k : Nat)
    (s' : Pmem) (L' : Nat → List Nat) (p' k' : Nat) : Prop where
  inv : Inv s' L' live (some ⟨p', k'⟩) C
  same : SameRegion s s'
  mem_eq : s'.mem = s.mem
  order_le : k ≤ k'
  subset : ∀ q ∈ (⟨p, k⟩ : Block), q ∈ (⟨p', k'⟩ : Block)
  listed : ∀ b : Block, b.page ∈ L' b.order → b.page ∈ L b.order
  levels : ∀ j, k ≤ j → j < k' → Dyadic.Aligned j (s.memStart / PGSIZE)
  stop : k' < BUDDY_MAX_ORDER → ∀ p'', s.pageNumber p'' = Dyadic.buddy k' (s.pageNumber p') →
    p'' ∈ L' k' → ¬ Dyadic.Aligned k' (s.memStart / PGSIZE)

/-- A `buddy_free` of the live block `b`: it ends on the free lists as part of the block of order
`k` at page `p`. -/
structure Freed (s : Pmem) (L : Nat → List Nat) (live : List Block) (C : Nat → Prop) (b : Block)
    (s' : Pmem) (L' : Nat → List Nat) (p k : Nat) : Prop where
  inv : Inv s' L' (live.erase b) none C
  same : SameRegion s s'
  mem_eq : s'.mem = s.mem
  order_le : b.order ≤ k
  subset : ∀ q ∈ b, q ∈ (⟨p, k⟩ : Block)
  mem_list : p ∈ L' k
  listed : ∀ b' : Block, b'.page ∈ L' b'.order → b' = ⟨p, k⟩ ∨ b'.page ∈ L b'.order
  levels : ∀ j, b.order ≤ j → j < k → Dyadic.Aligned j (s.memStart / PGSIZE)
  stop : k < BUDDY_MAX_ORDER → ∀ p', s.pageNumber p' = Dyadic.buddy k (s.pageNumber p) →
    p' ∈ L' k → ¬ Dyadic.Aligned k (s.memStart / PGSIZE)

/-- A round of the loop before the rest of it. -/
theorem Merged.step {s s₁ s' : Pmem} {L L₁ L' : Nat → List Nat} {live : List Block} {C : Nat → Prop}
    {p k m p' k' : Nat} (h : Merged s₁ L₁ live C m (k + 1) s' L' p' k') (hsame : SameRegion s s₁)
    (hmem : s₁.mem = s.mem) (hstart : Dyadic.Aligned k (s.memStart / PGSIZE))
    (hsub : ∀ q ∈ (⟨p, k⟩ : Block), q ∈ (⟨m, k + 1⟩ : Block))
    (hlisted : ∀ b : Block, b.page ∈ L₁ b.order → b.page ∈ L b.order) :
    Merged s L live C p k s' L' p' k' where
  inv := h.inv
  same := hsame.trans h.same
  mem_eq := h.mem_eq.trans hmem
  order_le := Nat.le_of_succ_le h.order_le
  subset q hq := h.subset q (hsub q hq)
  listed b hb := hlisted b (h.listed b hb)
  levels j h1 h2 := by
    by_cases hj : j = k
    · rw [hj]
      exact hstart
    · have := h.levels j (by omega) h2
      rwa [hsame.memStart] at this
  stop hk p'' hp'' := by
    have := h.stop hk p'' (by rw [hsame.pageNumber, hsame.pageNumber]; exact hp'')
    rwa [hsame.memStart] at this

namespace Inv

variable {s : Pmem} {L : Nat → List Nat} {live : List Block} {C : Nat → Prop} {p k : Nat}

/-- The loop stops here. -/
theorem merged_self (h : Inv s L live (some ⟨p, k⟩) C)
    (hstop : k < BUDDY_MAX_ORDER → ∀ p', s.pageNumber p' = Dyadic.buddy k (s.pageNumber p) →
      p' ∈ L k → ¬ Dyadic.Aligned k (s.memStart / PGSIZE)) : Merged s L live C p k s L p k where
  inv := h
  same := .refl s
  mem_eq := rfl
  order_le := le_refl _
  subset _ hq := hq
  listed _ hb := hb
  levels j h1 h2 := by omega
  stop := hstop

/-- One round: the buddy leaves its list and joins the detached block, which is recorded. -/
theorem mergeRound {p' m : Nat} (h : Inv s L live (some ⟨p, k⟩) C) (hp' : p' ∈ L k)
    (hle : k + 1 ≤ BUDDY_MAX_ORDER) (hal : Dyadic.Aligned (k + 1) (s.memStart / PGSIZE + m))
    (hm : m = p ∧ p' = p + 2 ^ k ∨ m = p' ∧ p = p' + 2 ^ k) (node : BuddyNode) :
    ∃ E s', listRemove .null s.elems (.node p') = some E ∧
      ((({ s with elems := E }.clearElem p').setNode m node).clearElem m).setBlockMetadata
        (s.pageAddr m) ((k + 1 : Nat) : Int) = s' ∧
      Inv s' (update L k ((L k).erase p')) live (some ⟨m, k + 1⟩) C ∧
      SameRegion s s' ∧ s'.mem = s.mem := by
  obtain ⟨E, hremove, hlists⟩ := h.lists.remove hp'
  have hnd := h.lists.nodup (h.lists.le_of_mem hp')
  have hcore := ((h.core.merge hp' hle hal hm).congr_free fun b' => mem_erase hnd).record fun _ hq => hq
  obtain ⟨hplaced, -, hfree, -⟩ := hcore.detached _ rfl
  have hrec := setBlockMetadata_setNode (s := { s with elems := E }.clearElem p') (b := ⟨m, k + 1⟩)
    h.region hplaced node
  refine ⟨E, _, hremove, hrec, ⟨?_, hcore.congr rfl rfl rfl rfl fun _ => rfl⟩, ⟨rfl, rfl, rfl⟩, rfl⟩
  have hoff : ∀ q ∈ (⟨m, k + 1⟩ : Block), ∀ j, q ∉ update L k ((L k).erase p') j :=
    fun q hq j hj => hfree ⟨q, j⟩ hj q hq (Block.page_mem ⟨q, j⟩)
  have hpos := Nat.two_pow_pos k
  refine (hlists.clear (hoff p' ?_)).clear (hoff m (Block.page_mem ⟨m, k + 1⟩))
  simp only [Block.mem_def, Nat.pow_succ]
  omega

theorem mergeLoop {n : Nat} (h : Inv s L live (some ⟨p, k⟩) C) (hn : k + n = BUDDY_MAX_ORDER) :
    ∃ s' L' p' k', s.mergeLoop (s.pageAddr p) k n = some (s', s.pageAddr p', k') ∧
      Merged s L live C p k s' L' p' k' := by
  induction n generalizing s L p k with
  | zero =>
    refine ⟨s, L, p, k, rfl, h.merged_self ?_⟩
    intro hk
    omega
  | succ n ih =>
    have hplaced := (h.core.detached _ rfl).1
    have hlt : p < s.totalPages := hplaced.page_lt
    have hal : Dyadic.Aligned k (s.pageNumber p) := hplaced.aligned
    have hba := getBuddyAddr_eq h.region p k
    have hbalt := getBuddyAddr_lt (k := k) h.region (Nat.le_of_lt hlt) (by omega)
    have hmod : getBuddyAddr (s.pageAddr p) k % PGSIZE = 0 := by
      rw [hba]
      exact Nat.mul_mod_right _ _
    -- a page with the buddy's number is at the buddy's address
    have hpage : ∀ p', s.pageNumber p' = Dyadic.buddy k (s.pageNumber p) →
        getBuddyAddr (s.pageAddr p) k = s.pageAddr p' := by
      intro p' hp'
      rw [hba, ← hp', pageAddr_eq h.region]
    rw [Pmem.mergeLoop]
    simp only
    split
    · rename_i hout
      refine ⟨s, L, p, k, rfl, h.merged_self fun _ p' hp' hmem _ => ?_⟩
      have hp'lt : p' < s.totalPages := (h.core.free ⟨p', k⟩ hmem).1.page_lt
      rw [hpage p' hp', pageIdx_pageAddr h.region (Nat.le_of_lt hp'lt)] at hout
      omega
    · rename_i hin
      have hbp := eq_pageAddr_of_pageIdx_lt h.region hmod hbalt (by omega)
      generalize s.pageIdx (getBuddyAddr (s.pageAddr p) k) = bp at hbp hin ⊢
      have hbplt : bp < s.totalPages := by omega
      have hnum : s.pageNumber bp = Dyadic.buddy k (s.pageNumber p) := by
        have := hbp.symm.trans hba
        rw [pageAddr_eq h.region] at this
        exact Nat.eq_of_mul_eq_mul_left (by decide) this
      have hbal : Dyadic.Aligned k (s.pageNumber bp) := by
        rw [hnum]
        exact hal.buddy_aligned
      have havail := isBuddyAvailable_iff h.region hbplt hbal
      rw [hbp]
      split
      · rename_i hbusy
        refine ⟨s, L, p, k, rfl, h.merged_self fun _ p' hp' hmem hstart => ?_⟩
        -- a listed buddy passes all the checks
        obtain rfl : p' = bp := by
          have := hp'.trans hnum.symm
          simp only [pageNumber] at this
          omega
        obtain ⟨-, hrec, hclear⟩ := h.core.free ⟨p', k⟩ hmem
        have hnode := hrec p' (Block.page_mem ⟨p', k⟩)
        have hok := havail.mpr ⟨hstart, hnode, hclear p' (Block.page_mem ⟨p', k⟩)⟩
        simp [hok, hnode] at hbusy
      · rename_i hfree
        have hok : s.isBuddyAvailable (s.pageAddr bp) k = true := by
          simp only [Bool.not_eq_true, Bool.or_eq_false_iff, Bool.not_eq_false'] at hfree
          exact hfree.1.1
        obtain ⟨hstart, hnode, hclear⟩ := havail.mp hok
        -- the block and its buddy are the halves of an aligned block at `m`
        obtain ⟨m, hmal, hm⟩ : ∃ m, Dyadic.Aligned (k + 1) (s.memStart / PGSIZE + m) ∧
            (m = p ∧ bp = p + 2 ^ k ∨ m = bp ∧ p = bp + 2 ^ k) := by
          rcases hal.buddy_cases with ⟨hup, hsum⟩ | ⟨hdown, hsum⟩
          · refine ⟨p, hup, .inl ⟨rfl, ?_⟩⟩
            simp only [pageNumber] at hnum hsum
            omega
          · rw [← hnum] at hdown hsum
            refine ⟨bp, hdown, .inr ⟨rfl, ?_⟩⟩
            simp only [pageNumber] at hsum
            omega
        have hpos := Nat.two_pow_pos k
        have hpow : 2 ^ (k + 1) = 2 ^ k + 2 ^ k := by ring
        have hlisted : bp ∈ L k := by
          refine h.core.listed_of_record hbplt hclear hnode fun b hb hmem => ?_
          cases hb
          simp only [Block.mem_def] at hmem
          omega
        have hmin : min (s.pageAddr p) (s.pageAddr bp) = s.pageAddr m := by
          rcases hm with ⟨rfl, rfl⟩ | ⟨rfl, rfl⟩
          · exact Nat.min_eq_left (by simp only [pageAddr, PGSIZE]; omega)
          · exact Nat.min_eq_right (by simp only [pageAddr, PGSIZE]; omega)
        obtain ⟨E, s₁, hremove, hround, hinv, hsame, hmem⟩ :=
          h.mergeRound hlisted (by omega) hmal hm ⟨s.pageAddr m, (k + 1 : Nat)⟩
        obtain ⟨s', L', p', k', hloop, hmerged⟩ := ih hinv (by omega)
        have hmlt : m < s.totalPages := by omega
        have hidx : ({ s with elems := E }.clearElem bp).pageIdx (s.pageAddr m) = m :=
          pageIdx_pageAddr h.region (Nat.le_of_lt hmlt)
        have hidx' : ¬ m ≥ ({ s with elems := E }.clearElem bp).totalPages := Nat.not_le.mpr hmlt
        refine ⟨s', L', p', k', ?_, ?_⟩
        · simp only [hremove, Option.bind_eq_bind, Option.bind_some, hmin, hidx, if_neg hidx', hround]
          rw [← hsame.pageAddr m, hloop, hsame.pageAddr]
        · refine hmerged.step hsame hmem hstart ?_ ?_
          · simp only [Block.mem_def]
            omega
          · exact fun b hb => ((mem_erase (h.lists.nodup (h.lists.le_of_mem hlisted))).mp hb).1

/-- `buddy_free` on any page of a live block gives the whole block back; the argument `order` is
only checked for its range. -/
theorem buddyFree {b : Block} {q : Nat} {order : Int} (h : Inv s L live none C) (hb : b ∈ live)
    (hq : q ∈ b) (h0 : 0 ≤ order) (h11 : order ≤ BUDDY_MAX_ORDER) :
    ∃ s' L' p k, s.buddyFree (s.pageAddr q) order = some s' ∧ Freed s L live C b s' L' p k := by
  obtain ⟨hplaced, hrec, hused⟩ := h.core.alive b hb
  have hqlt := hplaced.mem_lt hq
  have hqmeta := hplaced.meta_le_mem hq
  have hnode := hrec q hq
  have hbidx := pageIdx_pageAddr h.region (Nat.le_of_lt hplaced.page_lt)
  have hvalid : ¬ (s.pageAddr q = NULL ∨ order < 0 ∨ order > BUDDY_MAX_ORDER) := by
    have := pageAddr_ne_zero hqlt hqmeta
    rintro (h | h | h)
    · exact this h
    · omega
    · omega
  have hidx : s.pageIdx (s.pageAddr q) = q := pageIdx_pageAddr h.region (Nat.le_of_lt hqlt)
  have hnotclear : ¬ s.bitmap.allClear b.page (2 ^ b.order) = true := by
    rw [Bitmap.allClear_iff]
    intro hall
    have h1 := hall b.page (le_refl _) b.page_mem.2
    rw [hused b.page b.page_mem] at h1
    cases h1
  have hrange : ¬ (s.pageAddr q < s.pageAddr b.page ∨ s.pageAddr q ≥ s.pageAddr (b.page + 2 ^ b.order)) := by
    have h1 := hq.1
    have h2 := hq.2
    simp only [pageAddr, PGSIZE]
    omega
  have hrel : Inv (s.setBuddyFree (s.pageAddr b.page) b.order) L (live.erase b) (some b) C :=
    ⟨h.lists, h.core.release hb (test_setBuddyFree h.region hplaced)⟩
  obtain ⟨s₁, L₁, p, k, hloop, hmerged⟩ := hrel.mergeLoop (n := BUDDY_MAX_ORDER - b.order)
    (by have := hplaced.order_le; omega)
  obtain ⟨s', hpush, hinv, hsame, hmem, -⟩ := hmerged.inv.relist ⟨s₁.pageAddr p, k⟩
  have hplt : p < s₁.totalPages := (hmerged.inv.core.detached _ rfl).1.page_lt
  have hsame₁ : SameRegion s s₁ := ⟨hmerged.same.memStart, hmerged.same.memEnd, hmerged.same.totalPages⟩
  have hpage : (s.setBuddyFree (s.pageAddr b.page) b.order).pageAddr p = s₁.pageAddr p :=
    (hmerged.same.pageAddr p).symm
  have hfinal : s₁.pageIdx (s₁.pageAddr p) = p := pageIdx_pageAddr hmerged.inv.region (Nat.le_of_lt hplt)
  refine ⟨s', _, p, k, ?_, hinv, hsame₁.trans hsame, hmem.trans hmerged.mem_eq, hmerged.order_le,
    hmerged.subset, ?_, ?_, hmerged.levels, ?_⟩
  · have hloop' : (s.setBuddyFree (s.pageAddr b.page) b.order).mergeLoop (s.pageAddr b.page) b.order
        (BUDDY_MAX_ORDER - b.order) = some (s₁, s₁.pageAddr p, k) := by
      rw [← hpage]
      exact hloop
    simp only [Pmem.buddyFree, if_neg hvalid, hidx, if_neg (Nat.not_le.mpr hqlt), hnode,
      hbidx, blockSize_div, if_neg hnotclear, add64_pageAddr h.region hplaced.fits, if_neg hrange,
      Int.toNat_natCast, hloop', Option.bind_eq_bind, Option.bind_some, hfinal,
      if_neg (Nat.not_le.mpr hplt)]
    exact hpush
  · rw [Function.update_self]
    exact List.mem_cons_self
  · intro b' hb'
    rcases mem_push.mp hb' with rfl | hb'
    · exact .inl rfl
    · exact .inr (hmerged.listed b' hb')
  · intro hk p' hp' hmem'
    refine hmerged.stop hk p' hp' ?_
    rcases (mem_push (b := ⟨p', k⟩)).mp hmem' with heq | hmem'
    · -- a block is not its own buddy
      cases heq
      have hpos := Nat.two_pow_pos k
      have hplaced' := (hmerged.inv.core.detached _ rfl).1
      have hal : Dyadic.Aligned k (s.pageNumber p) := by
        have := hplaced'.aligned
        rwa [hsame₁.memStart] at this
      rcases hal.buddy_cases with ⟨-, hsum⟩ | ⟨-, hsum⟩ <;> omega
    · exact hmem'

end Inv

end SC7
