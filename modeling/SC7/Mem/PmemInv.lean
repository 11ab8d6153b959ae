-- SUMMARY: The invariant of the page allocator, as sets of free, live and detached blocks, and its elementary transitions.
import SC7.Base.Dyadic
import SC7.Mem.FreeLists

/-!
# The allocator invariant

A block is `2 ^ order` pages. `Core s F live det C` describes an allocator state by the
set `F` of blocks on the free lists, the blocks `live` that clients hold, at most one block
`det` that an operation has in its hands, and the set `C` of pages that `buddy_init` put
under the buddy system. The block of a page is recorded in `nodes`, so that two blocks that
share a page are equal; the lemmas below are the moves the C functions are made of.
-/

namespace SC7

/-- A block of `2 ^ order` pages that starts with page number `page` of the region. -/
structure Block where
  page : Nat
  order : Nat
  deriving DecidableEq, Repr

instance : Membership Nat Block := ⟨fun b q => b.page ≤ q ∧ q < b.page + 2 ^ b.order⟩

theorem Block.mem_def {b : Block} {q : Nat} : q ∈ b ↔ b.page ≤ q ∧ q < b.page + 2 ^ b.order := Iff.rfl

instance (q : Nat) (b : Block) : Decidable (q ∈ b) :=
  inferInstanceAs (Decidable (b.page ≤ q ∧ q < b.page + 2 ^ b.order))

theorem Block.page_mem (b : Block) : b.page ∈ b := ⟨le_refl _, by have := Nat.two_pow_pos b.order; omega⟩

/-! ## Addresses of blocks -/

@[simp] theorem blockSize_natCast (k : Nat) : blockSize (k : Int) = PGSIZE * 2 ^ k := by
  simp [blockSize, Nat.shiftLeft_eq]

theorem blockSize_div (k : Nat) : blockSize (k : Int) / PGSIZE = 2 ^ k := by
  rw [blockSize_natCast, Nat.mul_div_cancel_left _ (by decide)]

/-- A region: page-aligned, with room for its metadata, and not so close to the end of the
address space that looking two blocks ahead wraps around. -/
structure RegionAt (memStart memEnd totalPages : Nat) : Prop where
  start_aligned : memStart % PGSIZE = 0
  end_eq : memEnd = memStart + totalPages * PGSIZE
  end_le : memEnd + 2 * blockSize BUDDY_MAX_ORDER ≤ 2 ^ 64
  room : metaPages totalPages ≤ totalPages

theorem RegionAt.end_lt {memStart memEnd totalPages : Nat}
    (h : RegionAt memStart memEnd totalPages) : memEnd < 2 ^ 64 := by
  have h1 := h.end_le
  have h2 : 0 < 2 * blockSize BUDDY_MAX_ORDER := by decide
  omega

/-- The block lies in the available part of the region and is aligned in memory. -/
structure PlacedAt (memStart totalPages : Nat) (b : Block) : Prop where
  order_le : b.order ≤ BUDDY_MAX_ORDER
  meta_le : metaPages totalPages ≤ b.page
  fits : b.page + 2 ^ b.order ≤ totalPages
  aligned : Dyadic.Aligned b.order (memStart / PGSIZE + b.page)

namespace PlacedAt

variable {memStart totalPages : Nat} {b : Block}

theorem page_lt (h : PlacedAt memStart totalPages b) : b.page < totalPages := by
  have h1 := h.fits
  have h2 := Nat.two_pow_pos b.order
  omega

theorem mem_lt (h : PlacedAt memStart totalPages b) {q : Nat} (hq : q ∈ b) : q < totalPages :=
  Nat.lt_of_lt_of_le hq.2 h.fits

theorem meta_le_mem (h : PlacedAt memStart totalPages b) {q : Nat} (hq : q ∈ b) :
    metaPages totalPages ≤ q :=
  Nat.le_trans h.meta_le hq.1

end PlacedAt

namespace Pmem

abbrev Region (s : Pmem) : Prop := RegionAt s.memStart s.memEnd s.totalPages

abbrev Placed (s : Pmem) (b : Block) : Prop := PlacedAt s.memStart s.totalPages b

variable {s : Pmem} {p q : Nat} {b b' : Block}

theorem pageAddr_lt (h : s.Region) (hp : p ≤ s.totalPages) : s.pageAddr p < 2 ^ 64 := by
  have h1 := h.end_eq
  have h2 := h.end_lt
  simp only [pageAddr, PGSIZE] at *
  omega

theorem pageIdx_pageAddr (h : s.Region) (hp : p ≤ s.totalPages) : s.pageIdx (s.pageAddr p) = p := by
  have h1 := pageAddr_lt h hp
  have h2 := h.end_lt
  have h3 := h.end_eq
  simp only [pageIdx, sub64, pageAddr, PGSIZE] at *
  omega

theorem pageAddr_inj (h : s.pageAddr p = s.pageAddr q) : p = q := by
  simp only [pageAddr, PGSIZE] at h
  omega

/-- The number of the page in the whole address space. -/
def pageNumber (s : Pmem) (p : Nat) : Nat := s.memStart / PGSIZE + p

theorem pageAddr_eq (h : s.Region) (p : Nat) : s.pageAddr p = PGSIZE * s.pageNumber p := by
  have h1 := h.start_aligned
  simp only [pageAddr, pageNumber, PGSIZE] at *
  omega

theorem metaPages_pos (hp : p < s.totalPages) : 0 < metaPages s.totalPages := by
  simp only [metaPages, PGSIZE]
  omega

theorem pageAddr_ne_zero (hp : p < s.totalPages) (hmeta : metaPages s.totalPages ≤ p) : s.pageAddr p ≠ 0 := by
  have := metaPages_pos hp
  simp only [pageAddr, PGSIZE]
  omega

/-- Every page of the block records the block. -/
def Recorded (s : Pmem) (b : Block) : Prop := ∀ q ∈ b, s.nodes q = ⟨s.pageAddr b.page, b.order⟩

/-- No page of the block is marked used. -/
def Clear (s : Pmem) (b : Block) : Prop := ∀ q ∈ b, s.bitmap.test q = false

/-- Every page of the block is marked used. -/
def Used (s : Pmem) (b : Block) : Prop := ∀ q ∈ b, s.bitmap.test q = true

theorem Recorded.eq (h : s.Recorded b) (h' : s.Recorded b') (hq : q ∈ b) (hq' : q ∈ b') : b = b' := by
  have heq := (h q hq).symm.trans (h' q hq')
  simp only [BuddyNode.mk.injEq, Nat.cast_inj] at heq
  cases b with
  | mk page order =>
    cases b' with
    | mk page' order' =>
      simp only [Block.mk.injEq]
      exact ⟨pageAddr_inj heq.1, heq.2⟩

/-! ## Writing the metadata of a block -/

/-- The state with block `b` recorded at all its pages. -/
def recordBlock (s : Pmem) (b : Block) : Pmem :=
  { s with nodes := fun q => if q ∈ b then ⟨s.pageAddr b.page, b.order⟩ else s.nodes q }

theorem recordBlock_recorded (s : Pmem) (b : Block) : (s.recordBlock b).Recorded b := fun _ hq => if_pos hq

theorem Recorded.recordBlock (h : s.Recorded b) (hdisj : ∀ q ∈ b, q ∉ b') : (s.recordBlock b').Recorded b :=
  fun q hq => (if_neg (hdisj q hq)).trans (h q hq)

theorem setBlockMetadata_go (s : Pmem) (addr : Nat) (order : Int) (n : Nat) :
    setBlockMetadata.go s addr order n =
      { s with nodes := fun q =>
          if s.pageIdx addr ≤ q ∧ q < s.pageIdx addr + n ∧ q < s.totalPages then ⟨addr, order⟩
          else s.nodes q } := by
  induction n with
  | zero =>
    have : ∀ q, ¬ (s.pageIdx addr ≤ q ∧ q < s.pageIdx addr + 0 ∧ q < s.totalPages) := by omega
    simp only [setBlockMetadata.go, this, if_false]
  | succ n ih =>
    simp only [setBlockMetadata.go, ih]
    split
    · rename_i hlt
      simp only [setNode, Pmem.mk.injEq, true_and, and_true]
      funext q
      by_cases hq : q = s.pageIdx addr + n
      · subst hq
        rw [Function.update_self, if_pos (by omega)]
      · rw [Function.update_of_ne hq]
        exact if_congr (by omega) rfl rfl
    · rename_i hlt
      simp only [Pmem.mk.injEq, true_and, and_true]
      funext q
      exact if_congr (by omega) rfl rfl

/-- `set_block_metadata` on a block of the region. -/
theorem setBlockMetadata_eq (h : s.Placed b) (hr : s.Region) :
    s.setBlockMetadata (s.pageAddr b.page) b.order = s.recordBlock b := by
  have hidx := pageIdx_pageAddr hr (Nat.le_of_lt h.page_lt)
  have hfits := h.fits
  simp only [Pmem.setBlockMetadata, setBlockMetadata_go, hidx, recordBlock, Int.toNat_natCast,
    Nat.shiftLeft_eq, Nat.one_mul, Pmem.mk.injEq, true_and, and_true]
  funext q
  exact if_congr (by rw [Block.mem_def]; omega) rfl rfl

/-- Writing the node of a page of the block first makes no difference. -/
theorem recordBlock_setNode (hq : q ∈ b) (node : BuddyNode) : (s.setNode q node).recordBlock b = s.recordBlock b := by
  simp only [recordBlock, setNode, pageAddr, Pmem.mk.injEq, true_and, and_true]
  funext r
  split
  · rfl
  · rename_i hr
    have hne : r ≠ q := ne_of_mem_of_not_mem hq hr |>.symm
    exact Function.update_of_ne hne _ _

end Pmem

/-! ## The invariant -/

open Pmem

/-- An allocator state, described by its blocks. -/
structure Core (s : Pmem) (F : Block → Prop) (live : List Block) (det : Option Block)
    (C : Nat → Prop) : Prop where
  region : s.Region
  free : ∀ b, F b → s.Placed b ∧ s.Recorded b ∧ s.Clear b
  alive : ∀ b ∈ live, s.Placed b ∧ s.Recorded b ∧ s.Used b
  nodup : live.Nodup
  detached : ∀ b ∈ det, s.Placed b ∧ s.Clear b ∧
    (∀ b', F b' → ∀ q ∈ b, q ∉ b') ∧ (∀ b' ∈ live, ∀ q ∈ b, q ∉ b')
  metadata : ∀ q < metaPages s.totalPages, s.bitmap.test q = true ∧ s.nodes q = ⟨s.pageAddr q, -1⟩
  cover : ∀ q, C q ↔ (∃ b, F b ∧ q ∈ b) ∨ (∃ b ∈ live, q ∈ b) ∨ (∃ b ∈ det, q ∈ b)
  uncovered : ∀ q, metaPages s.totalPages ≤ q → q < s.totalPages → ¬ C q →
    s.bitmap.test q = false ∧ s.nodes q = ⟨0, 0⟩

namespace Core

variable {s s' : Pmem} {F : Block → Prop} {live : List Block} {det : Option Block} {C : Nat → Prop} {b b' : Block}
  {q k p : Nat} {w : Bitmap}

section Reading

variable (h : Core s F live det C)

include h

theorem free_disjoint (hb : F b) (hb' : F b') (hq : q ∈ b) (hq' : q ∈ b') : b = b' :=
  (h.free b hb).2.1.eq (h.free b' hb').2.1 hq hq'

theorem live_disjoint (hb : b ∈ live) (hb' : b' ∈ live) (hq : q ∈ b) (hq' : q ∈ b') : b = b' :=
  (h.alive b hb).2.1.eq (h.alive b' hb').2.1 hq hq'

theorem free_live_disjoint (hb : F b) (hb' : b' ∈ live) (hq : q ∈ b) : q ∉ b' := by
  intro hq'
  have h1 := (h.free b hb).2.2 q hq
  have h2 := (h.alive b' hb').2.2 q hq'
  rw [h1] at h2
  cases h2

/-- A page that is marked used holds metadata or belongs to a live block. -/
theorem used_cases (hq : q < s.totalPages)
    (hused : s.bitmap.test q = true) : q < metaPages s.totalPages ∨ ∃ b ∈ live, q ∈ b := by
  by_cases hm : q < metaPages s.totalPages
  · exact .inl hm
  · right
    by_cases hC : C q
    · rcases (h.cover q).mp hC with ⟨b, hb, hqb⟩ | hlive | ⟨b, hb, hqb⟩
      · rw [(h.free b hb).2.2 q hqb] at hused
        cases hused
      · exact hlive
      · rw [(h.detached b hb).2.1 q hqb] at hused
        cases hused
    · rw [(h.uncovered q (by omega) hq hC).1] at hused
      cases hused

/-- A page that passes for the start of a free block is the start of a listed block: this is
what makes the check of `is_buddy_available` on the first page enough. -/
theorem listed_of_record (hq : q < s.totalPages)
    (hclear : s.bitmap.test q = false) (hrec : s.nodes q = ⟨s.pageAddr q, k⟩)
    (hdet : ∀ b ∈ det, q ∉ b) : F ⟨q, k⟩ := by
  by_cases hm : q < metaPages s.totalPages
  · rw [(h.metadata q hm).1] at hclear
    cases hclear
  · by_cases hC : C q
    · rcases (h.cover q).mp hC with ⟨b, hb, hqb⟩ | ⟨b, hb, hqb⟩ | ⟨b, hb, hqb⟩
      · have hb' := (h.free b hb).2.1 q hqb
        rw [hrec, BuddyNode.mk.injEq, Nat.cast_inj] at hb'
        have hpage := pageAddr_inj hb'.1
        rw [hpage, hb'.2]
        exact hb
      · rw [(h.alive b hb).2.2 q hqb] at hclear
        cases hclear
      · exact absurd hqb (hdet b hb)
    · have hn := (h.uncovered q (by omega) hq hC).2
      rw [hrec, BuddyNode.mk.injEq] at hn
      exact absurd hn.1 (pageAddr_ne_zero hq (by omega))

/-- The core only reads the region, the nodes and the bits. -/
theorem congr (hstart : s'.memStart = s.memStart)
    (hend : s'.memEnd = s.memEnd) (htotal : s'.totalPages = s.totalPages)
    (hnodes : s'.nodes = s.nodes) (hbits : ∀ q, s'.bitmap.test q = s.bitmap.test q) :
    Core s' F live det C := by
  obtain ⟨a, e, t, w, n, l, m⟩ := s
  obtain ⟨a', e', t', w', n', l', m'⟩ := s'
  simp only at hstart hend htotal hnodes hbits
  subst hstart hend htotal hnodes
  exact {
    region := h.region
    free := fun b hb =>
      have hf := h.free b hb
      ⟨hf.1, hf.2.1, fun q hq => (hbits q).trans (hf.2.2 q hq)⟩
    alive := fun b hb =>
      have hf := h.alive b hb
      ⟨hf.1, hf.2.1, fun q hq => (hbits q).trans (hf.2.2 q hq)⟩
    nodup := h.nodup
    detached := fun b hb =>
      have hf := h.detached b hb
      ⟨hf.1, fun q hq => (hbits q).trans (hf.2.1 q hq), hf.2.2⟩
    metadata := fun q hq => ⟨(hbits q).trans (h.metadata q hq).1, (h.metadata q hq).2⟩
    cover := h.cover
    uncovered := fun q h1 h2 h3 =>
      ⟨(hbits q).trans (h.uncovered q h1 h2 h3).1, (h.uncovered q h1 h2 h3).2⟩ }

theorem congr_free {F' : Block → Prop} (hF : ∀ b, F' b ↔ F b) : Core s F' live det C := by
  have : F' = F := funext fun b => propext (hF b)
  rwa [this]

end Reading

/-! ### Transitions -/

/-- A block is taken off its free list. -/
theorem detach (h : Core s F live none C) (hb : F b) : Core s (fun b' => F b' ∧ b' ≠ b) live (some b) C where
  region := h.region
  free b' hb' := h.free b' hb'.1
  alive := h.alive
  nodup := h.nodup
  detached := by
    rintro b' hb'
    cases hb'
    refine ⟨(h.free b hb).1, (h.free b hb).2.2, ?_, ?_⟩
    · rintro b' ⟨hb', hne⟩ q hq hq'
      exact hne (h.free_disjoint hb' hb hq' hq)
    · intro b' hb' q hq
      exact h.free_live_disjoint hb hb' hq
  metadata := h.metadata
  cover q := by
    rw [h.cover q]
    constructor
    · rintro (⟨b', hb', hq⟩ | hlive | ⟨b', hb', -⟩)
      · by_cases heq : b' = b
        · exact .inr (.inr ⟨b, rfl, heq ▸ hq⟩)
        · exact .inl ⟨b', ⟨hb', heq⟩, hq⟩
      · exact .inr (.inl hlive)
      · cases hb'
    · rintro (⟨b', ⟨hb', -⟩, hq⟩ | hlive | ⟨b', hb', hq⟩)
      · exact .inl ⟨b', hb', hq⟩
      · exact .inr (.inl hlive)
      · cases hb'
        exact .inl ⟨b, hb, hq⟩
  uncovered := h.uncovered

section Detached

variable (h : Core s F live (some b) C)

include h

/-- Recording a part of the detached block changes nothing else. -/
theorem record (hsub : ∀ q ∈ b', q ∈ b) : Core (s.recordBlock b') F live (some b) C where
  region := h.region
  free c hc := by
    obtain ⟨hp, hr, hclear⟩ := h.free c hc
    exact ⟨hp, hr.recordBlock (fun q hq hqb => (h.detached b rfl).2.2.1 c hc q (hsub q hqb) hq), hclear⟩
  alive c hc := by
    obtain ⟨hp, hr, hu⟩ := h.alive c hc
    exact ⟨hp, hr.recordBlock (fun q hq hqb => (h.detached b rfl).2.2.2 c hc q (hsub q hqb) hq), hu⟩
  nodup := h.nodup
  detached := h.detached
  metadata q hq := by
    have hqb : q ∉ b' := fun hqb => by
      have := (h.detached b rfl).1.meta_le_mem (hsub q hqb)
      exact absurd hq (by simpa [recordBlock] using this)
    exact ⟨(h.metadata q hq).1, (if_neg hqb).trans (h.metadata q hq).2⟩
  cover := h.cover
  uncovered q h1 h2 h3 := by
    have hqb : q ∉ b' := fun hqb => h3 ((h.cover q).mpr (.inr (.inr ⟨b, rfl, hsub q hqb⟩)))
    exact ⟨(h.uncovered q h1 h2 h3).1, (if_neg hqb).trans (h.uncovered q h1 h2 h3).2⟩

/-- The detached block, which is recorded, is put on a free list. -/
theorem enlist (hb : s.Recorded b) : Core s (fun b' => b' = b ∨ F b') live none C where
  region := h.region
  free b' hb' := by
    rcases hb' with rfl | hb'
    · exact ⟨(h.detached b' rfl).1, hb, (h.detached b' rfl).2.1⟩
    · exact h.free b' hb'
  alive := h.alive
  nodup := h.nodup
  detached := by
    rintro b' hb'
    cases hb'
  metadata := h.metadata
  cover q := by
    rw [h.cover q]
    constructor
    · rintro (⟨b', hb', hq⟩ | hlive | ⟨b', hb', hq⟩)
      · exact .inl ⟨b', .inr hb', hq⟩
      · exact .inr (.inl hlive)
      · cases hb'
        exact .inl ⟨b, .inl rfl, hq⟩
    · rintro (⟨b', rfl | hb', hq⟩ | hlive | ⟨b', hb', -⟩)
      · exact .inr (.inr ⟨b', rfl, hq⟩)
      · exact .inl ⟨b', hb', hq⟩
      · exact .inr (.inl hlive)
      · cases hb'
  uncovered := h.uncovered

/-- The detached block is recorded and put on a free list. -/
theorem attach : Core (s.recordBlock b) (fun b' => b' = b ∨ F b') live none C :=
  (h.record fun _ hq => hq).enlist (recordBlock_recorded s b)

/-- The detached block, which is recorded, is marked used. -/
theorem occupy (hb : s.Recorded b) (hw : ∀ q, w.test q = (decide (q ∈ b) || s.bitmap.test q)) :
    Core { s with bitmap := w } F (b :: live) none C where
  region := h.region
  free b' hb' := by
    obtain ⟨hp, hr, hc⟩ := h.free b' hb'
    refine ⟨hp, hr, fun q hq => ?_⟩
    have hqb : q ∉ b := fun hqb => (h.detached b rfl).2.2.1 b' hb' q hqb hq
    exact (hw q).trans (by simp [hqb, hc q hq])
  alive b' hb' := by
    rcases List.mem_cons.mp hb' with rfl | hb'
    · exact ⟨(h.detached b' rfl).1, hb, fun q hq => (hw q).trans (by simp [hq])⟩
    · obtain ⟨hp, hr, hu⟩ := h.alive b' hb'
      exact ⟨hp, hr, fun q hq => (hw q).trans (by simp [hu q hq])⟩
  nodup := by
    refine List.nodup_cons.mpr ⟨fun hb => ?_, h.nodup⟩
    exact (h.detached b rfl).2.2.2 b hb b.page b.page_mem b.page_mem
  detached := by
    rintro b' hb'
    cases hb'
  metadata q hq := ⟨(hw q).trans (by simp [(h.metadata q hq).1]), (h.metadata q hq).2⟩
  cover q := by
    rw [h.cover q]
    constructor
    · rintro (hfree | ⟨b', hb', hq⟩ | ⟨b', hb', hq⟩)
      · exact .inl hfree
      · exact .inr (.inl ⟨b', List.mem_cons_of_mem _ hb', hq⟩)
      · cases hb'
        exact .inr (.inl ⟨b, List.mem_cons_self, hq⟩)
    · rintro (hfree | ⟨b', hb', hq⟩ | ⟨b', hb', -⟩)
      · exact .inl hfree
      · rcases List.mem_cons.mp hb' with rfl | hb'
        · exact .inr (.inr ⟨b', rfl, hq⟩)
        · exact .inr (.inl ⟨b', hb', hq⟩)
      · cases hb'
  uncovered q h1 h2 h3 := by
    have hqb : q ∉ b := fun hqb => h3 ((h.cover q).mpr (.inr (.inr ⟨b, rfl, hqb⟩)))
    exact ⟨(hw q).trans (by simp [hqb, (h.uncovered q h1 h2 h3).1]), (h.uncovered q h1 h2 h3).2⟩

/-- The detached block is handed to a client: recorded and marked used. -/
theorem claim (hw : ∀ q, w.test q = (decide (q ∈ b) || s.bitmap.test q)) :
    Core { s.recordBlock b with bitmap := w } F (b :: live) none C :=
  (h.record fun _ hq => hq).occupy (recordBlock_recorded s b) hw

end Detached

/-- A live block is given back: its bits are cleared. -/
theorem release (h : Core s F live none C) (hb : b ∈ live)
    (hw : ∀ q, w.test q = (!decide (q ∈ b) && s.bitmap.test q)) :
    Core { s with bitmap := w } F (live.erase b) (some b) C where
  region := h.region
  free b' hb' := by
    obtain ⟨hp, hr, hc⟩ := h.free b' hb'
    exact ⟨hp, hr, fun q hq => (hw q).trans (by simp [hc q hq])⟩
  alive b' hb' := by
    obtain ⟨hne, hb'⟩ := (h.nodup.mem_erase_iff).mp hb'
    obtain ⟨hp, hr, hu⟩ := h.alive b' hb'
    refine ⟨hp, hr, fun q hq => (hw q).trans ?_⟩
    have hqb : q ∉ b := fun hqb => hne (h.live_disjoint hb' hb hq hqb)
    simp [hqb, hu q hq]
  nodup := h.nodup.erase b
  detached := by
    rintro b' hb'
    cases hb'
    obtain ⟨hp, -, -⟩ := h.alive b hb
    refine ⟨hp, fun q hq => (hw q).trans (by simp [hq]), ?_, ?_⟩
    · intro b' hb' q hq hq'
      exact h.free_live_disjoint hb' hb hq' hq
    · intro b' hb' q hq hq'
      obtain ⟨hne, hb'⟩ := (h.nodup.mem_erase_iff).mp hb'
      exact hne (h.live_disjoint hb' hb hq' hq)
  metadata q hq := by
    have hqb : q ∉ b := fun hqb => by
      have := (h.alive b hb).1.meta_le_mem hqb
      exact absurd hq (by simpa using this)
    exact ⟨(hw q).trans (by simp [hqb, (h.metadata q hq).1]), (h.metadata q hq).2⟩
  cover q := by
    rw [h.cover q]
    constructor
    · rintro (hfree | ⟨b', hb', hq⟩ | ⟨b', hb', -⟩)
      · exact .inl hfree
      · by_cases heq : b' = b
        · exact .inr (.inr ⟨b, rfl, heq ▸ hq⟩)
        · exact .inr (.inl ⟨b', (h.nodup.mem_erase_iff).mpr ⟨heq, hb'⟩, hq⟩)
      · cases hb'
    · rintro (hfree | ⟨b', hb', hq⟩ | ⟨b', hb', hq⟩)
      · exact .inl hfree
      · exact .inr (.inl ⟨b', List.mem_of_mem_erase hb', hq⟩)
      · cases hb'
        exact .inr (.inl ⟨b, hb, hq⟩)
  uncovered q h1 h2 h3 := ⟨(hw q).trans (by simp [(h.uncovered q h1 h2 h3).1]), (h.uncovered q h1 h2 h3).2⟩

/-- The upper half of the detached block is recorded and put on a free list. -/
theorem split (h : Core s F live (some ⟨p, k + 1⟩) C) :
    Core (s.recordBlock ⟨p + 2 ^ k, k⟩) (fun b' => b' = ⟨p + 2 ^ k, k⟩ ∨ F b') live (some ⟨p, k⟩) C := by
  obtain ⟨hplaced, hclear, hfree, hlive⟩ := h.detached _ rfl
  have hpow : 2 ^ (k + 1) = 2 ^ k + 2 ^ k := by ring
  have hupper : ∀ q, q ∈ (⟨p + 2 ^ k, k⟩ : Block) → q ∈ (⟨p, k + 1⟩ : Block) := by
    simp only [Block.mem_def]
    omega
  have hlower : ∀ q, q ∈ (⟨p, k⟩ : Block) → q ∈ (⟨p, k + 1⟩ : Block) := by
    simp only [Block.mem_def]
    omega
  have hhalves : ∀ q, q ∈ (⟨p, k + 1⟩ : Block) → q ∈ (⟨p + 2 ^ k, k⟩ : Block) ∨ q ∈ (⟨p, k⟩ : Block) := by
    simp only [Block.mem_def]
    omega
  have hal : Dyadic.Aligned k (s.memStart / PGSIZE + p) := hplaced.aligned.of_le (Nat.le_succ k)
  have hpos := Nat.two_pow_pos k
  have hle := hplaced.order_le
  have hmeta := hplaced.meta_le
  have hfits := hplaced.fits
  simp only at hle hmeta hfits
  have hplacedUpper : s.Placed ⟨p + 2 ^ k, k⟩ :=
    ⟨by simp only; omega, by simp only; omega, by simp only; omega, by simpa [Nat.add_assoc] using hal.add⟩
  have hplacedLower : s.Placed ⟨p, k⟩ := ⟨by simp only; omega, hmeta, by simp only; omega, hal⟩
  have hrec := h.record hupper
  exact {
    region := h.region
    free := by
      rintro b' (rfl | hb')
      · exact ⟨hplacedUpper, recordBlock_recorded s _, fun q hq => hclear q (hupper q hq)⟩
      · exact hrec.free b' hb'
    alive := hrec.alive
    nodup := h.nodup
    detached := by
      rintro b' hb'
      cases hb'
      refine ⟨hplacedLower, fun q hq => hclear q (hlower q hq), ?_,
        fun b' hb' q hq => hlive b' hb' q (hlower q hq)⟩
      rintro b' (rfl | hb') q hq
      · simp only [Block.mem_def] at hq ⊢
        omega
      · exact hfree b' hb' q (hlower q hq)
    metadata := hrec.metadata
    cover := by
      intro q
      rw [h.cover q]
      constructor
      · rintro (⟨b', hb', hq⟩ | hl | ⟨b', hb', hq⟩)
        · exact .inl ⟨b', .inr hb', hq⟩
        · exact .inr (.inl hl)
        · cases hb'
          rcases hhalves q hq with hq | hq
          · exact .inl ⟨_, .inl rfl, hq⟩
          · exact .inr (.inr ⟨_, rfl, hq⟩)
      · rintro (⟨b', rfl | hb', hq⟩ | hl | ⟨b', hb', hq⟩)
        · exact .inr (.inr ⟨_, rfl, hupper q hq⟩)
        · exact .inl ⟨b', hb', hq⟩
        · exact .inr (.inl hl)
        · cases hb'
          exact .inr (.inr ⟨_, rfl, hlower q hq⟩)
    uncovered := hrec.uncovered }

/-- The detached block takes in its buddy: `m` is the first page of the two, and the block
they make is aligned. -/
theorem merge {p' m : Nat} (h : Core s F live (some ⟨p, k⟩) C) (hF : F ⟨p', k⟩)
    (hle : k + 1 ≤ BUDDY_MAX_ORDER) (hal : Dyadic.Aligned (k + 1) (s.memStart / PGSIZE + m))
    (hm : m = p ∧ p' = p + 2 ^ k ∨ m = p' ∧ p = p' + 2 ^ k) :
    Core s (fun b' => F b' ∧ b' ≠ ⟨p', k⟩) live (some ⟨m, k + 1⟩) C := by
  obtain ⟨hplaced, hclear, hfree, hlive⟩ := h.detached _ rfl
  obtain ⟨hplaced', -, hclear'⟩ := h.free _ hF
  have hpow : 2 ^ (k + 1) = 2 ^ k + 2 ^ k := by ring
  have hmem : ∀ q, q ∈ (⟨m, k + 1⟩ : Block) ↔ q ∈ (⟨p, k⟩ : Block) ∨ q ∈ (⟨p', k⟩ : Block) := by
    simp only [Block.mem_def]
    omega
  have hmeta := hplaced.meta_le
  have hmeta' := hplaced'.meta_le
  have hfits := hplaced.fits
  have hfits' := hplaced'.fits
  simp only at hmeta hmeta' hfits hfits'
  exact {
    region := h.region
    free := fun b' hb' => h.free b' hb'.1
    alive := h.alive
    nodup := h.nodup
    detached := by
      rintro b' hb'
      cases hb'
      refine ⟨⟨hle, by simp only; omega, by simp only; omega, hal⟩, ?_, ?_, ?_⟩
      · intro q hq
        rcases (hmem q).mp hq with hq | hq
        · exact hclear q hq
        · exact hclear' q hq
      · rintro b' ⟨hb', hne⟩ q hq hq'
        rcases (hmem q).mp hq with hq | hq
        · exact hfree b' hb' q hq hq'
        · exact hne (h.free_disjoint hb' hF hq' hq)
      · intro b' hb' q hq hq'
        rcases (hmem q).mp hq with hq | hq
        · exact hlive b' hb' q hq hq'
        · exact h.free_live_disjoint hF hb' hq hq'
    metadata := h.metadata
    cover := by
      intro q
      rw [h.cover q]
      constructor
      · rintro (⟨b', hb', hq⟩ | hl | ⟨b', hb', hq⟩)
        · by_cases heq : b' = ⟨p', k⟩
          · subst heq
            exact .inr (.inr ⟨_, rfl, (hmem q).mpr (.inr hq)⟩)
          · exact .inl ⟨b', ⟨hb', heq⟩, hq⟩
        · exact .inr (.inl hl)
        · cases hb'
          exact .inr (.inr ⟨_, rfl, (hmem q).mpr (.inl hq)⟩)
      · rintro (⟨b', ⟨hb', -⟩, hq⟩ | hl | ⟨b', hb', hq⟩)
        · exact .inl ⟨b', hb', hq⟩
        · exact .inr (.inl hl)
        · cases hb'
          rcases (hmem q).mp hq with hq | hq
          · exact .inr (.inr ⟨_, rfl, hq⟩)
          · exact .inl ⟨_, hF, hq⟩
    uncovered := h.uncovered }

end Core

/-! ## The invariant with the lists -/

/-- The allocator invariant: the free blocks are those on the lists `L`. -/
structure Inv (s : Pmem) (L : Nat → List Nat) (live : List Block) (det : Option Block)
    (C : Nat → Prop) : Prop where
  lists : FreeLists s.elems L
  core : Core s (fun b => b.page ∈ L b.order) live det C

theorem mem_push {L : Nat → List Nat} {p k : Nat} {b : Block} :
    b.page ∈ Function.update L k (p :: L k) b.order ↔ b = ⟨p, k⟩ ∨ b.page ∈ L b.order := by
  obtain ⟨q, j⟩ := b
  by_cases hj : j = k
  · subst hj
    simp
  · simp [hj]

theorem mem_erase {L : Nat → List Nat} {p k : Nat} {b : Block} (hnd : (L k).Nodup) :
    b.page ∈ Function.update L k ((L k).erase p) b.order ↔ b.page ∈ L b.order ∧ b ≠ ⟨p, k⟩ := by
  obtain ⟨q, j⟩ := b
  by_cases hj : j = k
  · subst hj
    simp [hnd.mem_erase_iff, and_comm]
  · simp [hj]

end SC7
