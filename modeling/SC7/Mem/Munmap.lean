-- SUMMARY: What `munmap` removes: the covered addresses, the leaf entries and the nodes, against the range it was asked for.
import SC7.Mem.SpaceMmap
import SC7.Mem.VmaWf

/-!
# Removing a range

`munmap` works on the list of nodes, on the areas they hold and on the leaf entries. `VmaMem.munmap`
follows the nodes, `Space.munmap` the areas and the entries; here the two are one call. It rounds the
end of the range down, while the range that was asked for ends at the next page boundary, and it
takes an area that starts right at the end for one that overlaps the range. What it removes is
compared with what it was asked to remove, address by address, entry by entry and node by node.
-/

namespace SC7

/-! ## Addresses of a sequence of areas -/

namespace Vma

variable {v w : Vma} {vs : List Vma} {start end_ a : Nat}

/-- The address `a` lies in the area. -/
def Has (v : Vma) (a : Nat) : Prop := v.addr ≤ a ∧ a < v.end_

/-- Some area covers the address. -/
def Covers (vs : List Vma) (a : Nat) : Prop := ∃ v ∈ vs, v.Has a

/-- The area has an address in the range. -/
def Intersects (start end_ : Nat) (v : Vma) : Prop := max v.addr start < min v.end_ end_

instance (start end_ : Nat) (v : Vma) : Decidable (v.Intersects start end_) :=
  inferInstanceAs (Decidable (_ < _))

/-- `f_off + (a - addr)`. -/
def offset (v : Vma) (a : Nat) : Nat := add64 v.fOff (sub64 a v.addr)

theorem Intersects.has (h : v.Intersects start end_) :
    v.Has (max v.addr start) ∧ start ≤ max v.addr start ∧ max v.addr start < end_ := by
  obtain ⟨h₁, h₂⟩ := lt_min_iff.mp h
  exact ⟨⟨le_max_left _ _, h₁⟩, le_max_right _ _, h₂⟩

theorem Has.intersects (h : v.Has a) (hlo : start ≤ a) (hhi : a < end_) : v.Intersects start end_ :=
  (max_le h.1 hlo).trans_lt (lt_min h.2 hhi)

theorem Sorted.tail (hs : Sorted (v :: vs)) : Sorted vs :=
  ⟨(List.pairwise_cons.mp hs.1).2, fun w hw => hs.2 w (List.mem_cons_of_mem _ hw)⟩

/-- The areas of a sorted sequence share no address. -/
theorem Sorted.unique (hs : Sorted vs) (hv : v ∈ vs) (hw : w ∈ vs) (hva : v.Has a) (hwa : w.Has a) :
    v = w := by
  induction vs with
  | nil => cases hv
  | cons x vs ih =>
    have hx := (List.pairwise_cons.mp hs.1).1
    rcases List.mem_cons.mp hv with rfl | hv' <;> rcases List.mem_cons.mp hw with rfl | hw'
    · rfl
    · have hle := hx w hw'
      exact absurd (hva.2.trans_le (hle.trans hwa.1)) (lt_irrefl a)
    · have hle := hx v hv'
      exact absurd (hwa.2.trans_le (hle.trans hva.1)) (lt_irrefl a)
    · exact ih hs.tail hv' hw'

/-- `munmap` leaves the addresses of an area that lie outside the range, and all of an area that is
held. -/
theorem Ok.unmap_has (h : v.Ok) (hr : Apart start end_) :
    (∃ w ∈ v.unmap start end_, w.Has a) ↔ v.Has a ∧ (v.Held start end_ ∨ ¬(start ≤ a ∧ a < end_)) := by
  obtain ⟨hle, hlt, hlen⟩ := h
  unfold Vma.unmap
  split
  · rename_i hov
    have hse : start ≤ end_ := by
      unfold Apart at hr
      omega
    split
    · rename_i hin
      split
      · rename_i href
        have hheld : v.Held start end_ := ⟨hov, hin, href⟩
        simp [Has, hheld]
      · rename_i href
        have hheld : ¬v.Held start end_ := fun hh => href hh.2.2
        simp only [List.not_mem_nil, false_and, exists_false, hheld, false_or, Has, false_iff]
        omega
    · rename_i hin
      have hheld : ¬v.Held start end_ := fun hh => hin hh.2.1
      simp only [mem_pieces, hheld, false_or]
      constructor
      · rintro ⟨w, ⟨hs, rfl⟩ | ⟨he, rfl⟩, hw₁, hw₂⟩
        · simp only [front] at hw₁ hw₂
          exact ⟨⟨hw₁, by omega⟩, by omega⟩
        · simp only [back] at hw₁ hw₂
          exact ⟨⟨by omega, hw₂⟩, by omega⟩
      · rintro ⟨⟨ha₁, ha₂⟩, hout⟩
        by_cases hs : a < start
        · exact ⟨v.front start, .inl ⟨by omega, rfl⟩, ha₁, hs⟩
        · exact ⟨v.back end_, .inr ⟨by omega, rfl⟩, by simp only [back]; omega, ha₂⟩
  · rename_i hov
    have hheld : ¬v.Held start end_ := fun hh => hov hh.1
    simp only [List.mem_singleton, exists_eq_left, hheld, false_or, Has]
    unfold Apart at hr
    omega

/-- What is left of an area maps its addresses to the same place of the same file. -/
theorem unmap_offset (h : v.Ok) (hw : w ∈ v.unmap start end_) (ha : w.Has a) :
    w.fd = v.fd ∧ w.offset a = v.offset a := by
  obtain ⟨hle, hlt, hlen⟩ := h
  unfold Vma.unmap at hw
  split at hw
  · rename_i hov
    split at hw
    · split at hw
      · rw [List.mem_singleton.mp hw]
        exact ⟨rfl, rfl⟩
      · cases hw
    · rcases mem_pieces.mp hw with ⟨hs, rfl⟩ | ⟨he, rfl⟩
      · exact ⟨rfl, rfl⟩
      · refine ⟨rfl, ?_⟩
        obtain ⟨ha₁, ha₂⟩ := ha
        simp only [back, offset, add64, sub64] at *
        omega
  · rw [List.mem_singleton.mp hw]
    exact ⟨rfl, rfl⟩

end Vma

/-! ## Leaf entries -/

namespace Vma

/-- The first address that `munmap` unmaps of an area, and the first one behind. -/
def lo (start : Nat) (v : Vma) : Nat := max v.addr start
def hi (end_ : Nat) (v : Vma) : Nat := min v.end_ end_

/-- The pages of an area whose entries `munmap` clears. -/
def Freed (start end_ : Nat) (v : Vma) (vpn : Nat) : Prop :=
  v.Touched start end_ ∧ ¬v.Held start end_ ∧
    Space.PagesFrom (v.lo start / PGSIZE) ((v.hi end_ - v.lo start) / PGSIZE) vpn

/-- `vmunmap` does not start inside a page. -/
def Aligned (start end_ : Nat) (v : Vma) : Prop :=
  v.Intersects start end_ → ¬v.Held start end_ → v.lo start % PGSIZE = 0

end Vma

namespace Space

variable {arch : Arch} {s s' t : Space} {P Q : Nat → Prop} {start end_ n : Nat} {v : Vma} {vs l : List Vma}
  {doFree : Bool}

/-- The entries of the pages `P` are cleared, and nothing else changes in the table. -/
structure Clears (P : Nat → Prop) (s s' : Space) : Prop where
  gone : ∀ vpn, P vpn → (s'.leaf vpn).valid = false
  kept : ∀ vpn, ¬P vpn → s'.leaf vpn = s.leaf vpn

namespace Clears

theorem of_eq (h : s'.leaf = s.leaf) (hP : ∀ vpn, ¬P vpn) : Clears P s s' :=
  ⟨fun vpn hp => absurd hp (hP vpn), fun vpn _ => by rw [h]⟩

theorem trans (h₁ : Clears P s s') (h₂ : Clears Q s' t) : Clears (fun vpn => P vpn ∨ Q vpn) s t where
  gone vpn hPQ := by
    by_cases hQ : Q vpn
    · exact h₂.gone vpn hQ
    · rw [h₂.kept vpn hQ]
      exact h₁.gone vpn (hPQ.resolve_right hQ)
  kept vpn hPQ := by
    rw [not_or] at hPQ
    rw [h₂.kept vpn hPQ.2, h₁.kept vpn hPQ.1]

theorem congr (h : Clears P s s') (hPQ : ∀ vpn, P vpn ↔ Q vpn) : Clears Q s s' :=
  ⟨fun vpn hq => h.gone vpn ((hPQ vpn).mpr hq), fun vpn hq => h.kept vpn fun hp => hq ((hPQ vpn).mp hp)⟩

theorem invalid (h : Clears P s s') {vpn : Nat} (hv : (s.leaf vpn).valid = false) :
    (s'.leaf vpn).valid = false := by
  by_cases hP : P vpn
  · exact h.gone vpn hP
  · rwa [h.kept vpn hP]

end Clears

theorem unmapPage_clears {a : Nat} (h : unmapPage arch doFree a s = some s') : Clears (· = a / PGSIZE) s s' := by
  refine ⟨fun vpn heq => heq ▸ (unmapPage_unmaps h).2, fun vpn hne => ?_⟩
  rw [unmapPage] at h
  dsimp only at h
  split at h
  · cases h
  split at h
  · cases h
    rfl
  split at h
  · cases h
  cases h
  rw [setLeaf]
  dsimp only
  rw [Function.update_of_ne hne]
  split <;> rfl

/-- The rounds of `vmunmap` clear the pages of the range, and no other. -/
theorem vmunmapLoop_clears {lo k : Nat} (hwrap : (lo + n) * PGSIZE < 2 ^ 64)
    (h : vmunmapLoop arch doFree ((lo + n) * PGSIZE) k (lo * PGSIZE) s = some s') :
    Clears (PagesFrom lo n) s s' := by
  have hnone : ∀ m : Nat, ¬m * PGSIZE < (m + 0) * PGSIZE := fun m => lt_irrefl _
  induction k generalizing lo n s with
  | zero =>
    rw [vmunmapLoop] at h
    split at h
    · cases h
    · rename_i hlt
      cases h
      refine .of_eq rfl fun vpn hp => hlt ?_
      exact Nat.mul_lt_mul_of_pos_right (hp.1.trans_lt hp.2) (by decide)
  | succ k ih =>
    rw [vmunmapLoop] at h
    split at h
    · rename_i hlt
      obtain ⟨m, rfl⟩ : ∃ m, n = m + 1 := by
        cases n with
        | zero => exact absurd hlt (hnone lo)
        | succ m => exact ⟨m, rfl⟩
      obtain ⟨t, hpage, hrest⟩ := Option.bind_eq_some_iff.mp h
      have heq : lo + (m + 1) = lo + 1 + m := by omega
      rw [next_page hwrap, heq] at hrest
      have hloop := ih (heq ▸ hwrap) hrest
      refine ((unmapPage_clears hpage).trans hloop).congr fun vpn => ?_
      rw [page_div]
      unfold PagesFrom
      omega
    · rename_i hlt
      cases h
      refine .of_eq rfl fun vpn hp => hlt ?_
      exact Nat.mul_lt_mul_of_pos_right (hp.1.trans_lt hp.2) (by decide)

theorem vmunmap_clears {va : Nat} (hwrap : va + n * PGSIZE < 2 ^ 64) (h : vmunmap arch va n doFree s = some s') :
    va % PGSIZE = 0 ∧ Clears (PagesFrom (va / PGSIZE) n) s s' := by
  rw [vmunmap] at h
  split at h
  · cases h
  · rename_i hal
    rw [not_not] at hal
    obtain ⟨lo, rfl⟩ : ∃ lo, va = lo * PGSIZE :=
      ⟨va / PGSIZE, (Nat.div_mul_cancel (Nat.dvd_of_mod_eq_zero hal)).symm⟩
    rw [← Nat.add_mul] at hwrap
    rw [add64_pages hwrap] at h
    rw [page_div]
    exact ⟨hal, vmunmapLoop_clears hwrap h⟩

theorem allocNode_leaf (h : s.allocNode = some s') : s'.leaf = s.leaf := by
  rw [allocNode] at h
  split at h <;> cases h
  rfl

/-- One area: what is left of it, and the entries that are cleared. -/
theorem munmapVma_clears (hok : v.Ok) (h : munmapVma arch start end_ v s = some (l, s')) :
    l = v.unmap start end_ ∧ v.Aligned start end_ ∧ Clears (v.Freed start end_) s s' := by
  obtain ⟨hle, hlt, hlen⟩ := hok
  rw [munmapVma] at h
  unfold Vma.unmap
  split at h
  · rename_i hov
    rw [if_pos hov]
    split at h
    · rename_i hin
      rw [if_pos hin]
      split at h
      · rename_i href
        cases h
        rw [if_pos href]
        have hheld : v.Held start end_ := ⟨hov, hin, href⟩
        exact ⟨rfl, fun _ hno => absurd hheld hno, .of_eq rfl fun vpn hf => hf.2.1 hheld⟩
      · rename_i href
        rw [if_neg href]
        obtain ⟨t, hun, heq⟩ := Option.map_eq_some_iff.mp h
        cases heq
        have hlo : v.lo start = v.addr := max_eq_left hin.1
        have hhi : v.hi end_ = v.end_ := min_eq_left hin.2
        have hsub : sub64 v.end_ v.addr = v.end_ - v.addr := by
          unfold sub64
          omega
        rw [hsub] at hun
        obtain ⟨hal, hclr⟩ := vmunmap_clears (by simp only [PGSIZE]; omega) hun
        refine ⟨rfl, fun _ _ => by rwa [hlo], hclr.congr fun vpn => ?_⟩
        have hheld : ¬v.Held start end_ := fun hh => href hh.2.2
        unfold Vma.Freed Vma.Touched
        rw [hlo, hhi, and_iff_right hov, and_iff_right hheld]
    · rename_i hin
      rw [if_neg hin]
      obtain ⟨s₁, h₁, h⟩ := Option.bind_eq_some_iff.mp h
      obtain ⟨s₂, h₂, h⟩ := Option.bind_eq_some_iff.mp h
      obtain ⟨s₃, h₃, heq⟩ := Option.map_eq_some_iff.mp h
      cases heq
      have hleaf : s₂.leaf = s.leaf := by
        have hs₁ : s₁.leaf = s.leaf := by
          split at h₁
          · exact allocNode_leaf h₁
          · cases h₁
            rfl
        rw [← hs₁]
        split at h₂
        · exact allocNode_leaf h₂
        · cases h₂
          rfl
      have hlo : (if v.addr > start then v.addr else start) = v.lo start := by
        rw [Vma.lo, max_def]
        split <;> split <;> omega
      have hhi : (if v.end_ < end_ then v.end_ else end_) = v.hi end_ := by
        rw [Vma.hi, min_def]
        split <;> split <;> omega
      rw [hlo, hhi] at h₃
      have hheld : ¬v.Held start end_ := fun hh => hin hh.2.1
      have hfreed : ∀ vpn, v.Freed start end_ vpn ↔
          PagesFrom (v.lo start / PGSIZE) ((v.hi end_ - v.lo start) / PGSIZE) vpn := by
        intro vpn
        unfold Vma.Freed Vma.Touched
        rw [and_iff_right hov, and_iff_right hheld]
      refine ⟨rfl, ?_⟩
      split at h₃
      · rename_i hgt
        have hbound : v.hi end_ ≤ v.end_ := min_le_left _ _
        obtain ⟨hal, hclr⟩ := vmunmap_clears (by simp only [PGSIZE]; omega) h₃
        refine ⟨fun _ _ => hal, ⟨fun vpn hp => hclr.gone vpn ((hfreed vpn).mp hp), fun vpn hp => ?_⟩⟩
        rw [hclr.kept vpn fun hq => hp ((hfreed vpn).mpr hq), hleaf]
      · rename_i hgt
        cases h₃
        refine ⟨fun hi _ => absurd hi hgt, .of_eq hleaf fun vpn hp => ?_⟩
        have hpages := (hfreed vpn).mp hp
        unfold PagesFrom at hpages
        rw [Nat.sub_eq_zero_of_le (not_lt.mp hgt), Nat.zero_div] at hpages
        omega
  · rename_i hov
    rw [if_neg hov]
    cases h
    refine ⟨rfl, fun hi _ => absurd ?_ hov, .of_eq rfl fun vpn hf => hov hf.1⟩
    obtain ⟨hhas, hlo, hhi⟩ := hi.has
    exact ⟨hlo.trans_lt hhas.2, (hhas.1.trans_lt hhi).le⟩

/-- The whole list: every area is replaced by what is left of it. -/
theorem munmapLoop_clears {found : Bool} (hok : ∀ v ∈ vs, v.Ok)
    (h : munmapLoop arch start end_ vs s = some (found, l, s')) :
    l = vs.flatMap (Vma.unmap start end_) ∧ (found = true ↔ ∃ v ∈ vs, v.Touched start end_) ∧
      (∀ v ∈ vs, v.Aligned start end_) ∧ Clears (fun vpn => ∃ v ∈ vs, v.Freed start end_ vpn) s s' := by
  induction vs generalizing s found l with
  | nil =>
    cases h
    refine ⟨rfl, by simp, by simp, .of_eq rfl fun vpn hp => ?_⟩
    obtain ⟨v, hv, -⟩ := hp
    cases hv
  | cons v vs ih =>
    rw [munmapLoop] at h
    obtain ⟨⟨l₁, t⟩, hv, h⟩ := Option.bind_eq_some_iff.mp h
    obtain ⟨⟨found', l₂, t'⟩, hvs, heq⟩ := Option.map_eq_some_iff.mp h
    cases heq
    obtain ⟨rfl, hal, hclr⟩ := munmapVma_clears (hok v List.mem_cons_self) hv
    obtain ⟨rfl, hfound, hals, hclrs⟩ := ih (fun w hw => hok w (List.mem_cons_of_mem _ hw)) hvs
    refine ⟨rfl, ?_, List.forall_mem_cons.mpr ⟨hal, hals⟩, (hclr.trans hclrs).congr fun vpn => ?_⟩
    · rw [Bool.or_eq_true, decide_eq_true_iff, hfound, List.exists_mem_cons_iff]
      rfl
    · rw [List.exists_mem_cons_iff]

end Space

/-! ## The range and what is removed -/

section Range

variable {start end_ : Nat} {len : Int}

/-- The end that `munmap` works with. -/
def munmapEnd (start : Nat) (len : Int) : Nat := pgRoundDown (toU64 (start + len))

/-- `PGROUNDUP(start + len)`, the end of the range that `munmap` is asked to remove. -/
def rangeEnd (start : Nat) (len : Int) : Nat := Vmem.pageCeil (start + len.toNat) * PGSIZE

theorem munmapEnd_le (hpos : 0 < len) : munmapEnd start len ≤ rangeEnd start len := by
  simp only [munmapEnd, rangeEnd, Vmem.pageCeil, pgRoundDown, toU64, PGSIZE]
  omega

theorem munmapEnd_mod : munmapEnd start len % PGSIZE = 0 := Nat.mul_mod_left _ _

end Range

/-- The nodes `l` of the process hold the areas of its address space. -/
structure Represents (m : VmaMem) (pid : Nat) (l : List Nat) (s : Space) : Prop where
  owns : m.Owns (m.head pid) l []
  closed : m.Closed (VmaMem.owned (m.head pid) l [])
  vmas : l.map m.node = s.vmas

/-- A call with the result `r` removed the range from the nodes `l` and the space `s`, and nothing
else. -/
structure RemovesExactly (start end_ : Nat) (r : Int) (m m' : VmaMem) (l l' : List Nat)
    (s s' : Space) : Prop where
  covered : ∀ a, Vma.Covers s'.vmas a ↔ Vma.Covers s.vmas a ∧ ¬(start ≤ a ∧ a < end_)
  gone : ∀ a, Vma.Covers s.vmas a → start ≤ a → a < end_ → (s'.leaf (a / PGSIZE)).valid = false
  kept : ∀ vpn, (∀ a, Vma.Covers s.vmas a → start ≤ a → a < end_ → a / PGSIZE ≠ vpn) →
    s'.leaf vpn = s.leaf vpn
  offsets : ∀ w ∈ s'.vmas, ∀ a, w.Has a → ∃ v ∈ s.vmas, v.Has a ∧ w.fd = v.fd ∧ w.offset a = v.offset a
  identity : ∀ n ∈ l, ¬(m.node n).Intersects start end_ → n ∈ l' ∧ m'.node n = m.node n
  result : r = 0 ↔ ∃ v ∈ s.vmas, v.Intersects start end_

/-- The calls that are exact. No address of the range lies behind the end that `munmap` works with;
an area that passes the overlap test has an address in the range; no area in the range is held; and
where an area ends inside a page, nothing is mapped in that page. -/
structure ExactCall (start : Nat) (len : Int) (s : Space) : Prop where
  tail : ∀ a, Vma.Covers s.vmas a → start ≤ a → a < rangeEnd start len → a < munmapEnd start len
  touch : ∀ v ∈ s.vmas, v.Touched start (munmapEnd start len) → v.Intersects start (rangeEnd start len)
  refs : ∀ v ∈ s.vmas, ¬v.Held start (munmapEnd start len)
  ends : ∀ v ∈ s.vmas, v.Intersects start (munmapEnd start len) → v.end_ ≤ munmapEnd start len →
    v.end_ % PGSIZE ≠ 0 → (s.leaf (v.end_ / PGSIZE)).valid = false

/-- What the loops did, for the nodes, the areas and the entries. -/
structure Unmapped (start end_ : Nat) (r : Int) (m m' : VmaMem) (l l' : List Nat) (s s' : Space) :
    Prop where
  nodes : VmaMem.Kept start end_ m m' l l'
  vmas : s'.vmas = s.vmas.flatMap (Vma.unmap start end_)
  aligned : ∀ v ∈ s.vmas, v.Aligned start end_
  leaf : Space.Clears (fun vpn => ∃ v ∈ s.vmas, v.Freed start end_ vpn) s s'
  result : r = 0 ↔ ∃ v ∈ s.vmas, v.Touched start end_

namespace Vma

variable {v w : Vma} {vs : List Vma} {start end_ a vpn : Nat}

/-- The addresses of a page that is cleared lie in the area and in the range. -/
theorem Freed.has (h : v.Freed start end_ vpn) (hal : v.Aligned start end_)
    (hlo : vpn * PGSIZE ≤ a) (hhi : a < (vpn + 1) * PGSIZE) : v.Has a ∧ start ≤ a ∧ a < end_ := by
  obtain ⟨-, hheld, hp⟩ := h
  unfold Space.PagesFrom at hp
  have hlt : v.lo start < v.hi end_ := by
    by_contra hle
    rw [Nat.sub_eq_zero_of_le (not_lt.mp hle), Nat.zero_div] at hp
    omega
  have hmod := hal hlt hheld
  have hv : v.addr ≤ v.lo start ∧ start ≤ v.lo start := ⟨le_max_left _ _, le_max_right _ _⟩
  have he : v.hi end_ ≤ v.end_ ∧ v.hi end_ ≤ end_ := ⟨min_le_left _ _, min_le_right _ _⟩
  have hbounds : v.lo start ≤ a ∧ a < v.hi end_ := by
    simp only [PGSIZE] at hmod hp hlo hhi
    omega
  exact ⟨⟨hv.1.trans hbounds.1, hbounds.2.trans_le he.1⟩, hv.2.trans hbounds.1, hbounds.2.trans_le he.2⟩

/-- An address of the range is in a page that is cleared, unless the area ends in that page. -/
theorem Has.freed (ha : v.Has a) (hlo : start ≤ a) (hhi : a < end_) (hend : end_ % PGSIZE = 0)
    (hheld : ¬v.Held start end_) (hal : v.Aligned start end_) :
    v.Freed start end_ (a / PGSIZE) ∨ v.end_ ≤ end_ ∧ v.end_ % PGSIZE ≠ 0 ∧ a / PGSIZE = v.end_ / PGSIZE := by
  have hmod := hal (ha.intersects hlo hhi) hheld
  have hla : v.lo start ≤ a := max_le ha.1 hlo
  have hah : a < v.hi end_ := lt_min ha.2 hhi
  have htouched : v.Touched start end_ := ⟨hlo.trans_lt ha.2, (ha.1.trans_lt hhi).le⟩
  by_cases hpage : a / PGSIZE < v.hi end_ / PGSIZE
  · refine .inl ⟨htouched, hheld, ?_⟩
    unfold Space.PagesFrom
    simp only [PGSIZE] at hmod hpage ⊢
    omega
  · right
    rcases min_choice v.end_ end_ with heq | heq
    · have hle : v.end_ ≤ end_ := min_eq_left_iff.mp heq
      unfold hi at hpage hah
      rw [heq] at hpage hah
      simp only [PGSIZE] at hpage ⊢
      omega
    · unfold hi at hpage hah
      rw [heq] at hpage hah
      simp only [PGSIZE] at hpage hend
      omega

/-- An area is no piece of a later one that passes the overlap test: the pieces are not empty and lie
behind it. -/
theorem Sorted.not_piece {vs₁ vs₂ : List Vma} (hs : Sorted (vs₁ ++ v :: vs₂)) (hw : w ∈ vs₂)
    (ht : w.Touched start end_) : v ∉ w.pieces start end_ := by
  intro hmem
  have hvw : v.end_ ≤ w.addr := (List.pairwise_cons.mp (List.pairwise_append.mp hs.1).2.1).1 w hw
  have hv := (hs.2 v (by simp)).le
  obtain ⟨-, haddr⟩ := ht
  rcases mem_pieces.mp hmem with ⟨hlt, rfl⟩ | ⟨hlt, rfl⟩
  · simp only [front] at hvw
    omega
  · simp only [back] at hvw
    omega

end Vma

namespace Unmapped

variable {start end_ : Nat} {len r : Int} {m m' : VmaMem} {pid : Nat} {l l' : List Nat}
  {s s' : Space}

section Ranges

variable (hu : Unmapped start end_ r m m' l l' s s')

include hu

/-- An address stays covered if its area is held, or if it lies outside the range. -/
theorem covers (hs : Vma.Sorted s.vmas) (hr : Vma.Apart start end_) (a : Nat) : Vma.Covers s'.vmas a ↔
      ∃ v ∈ s.vmas, v.Has a ∧ (v.Held start end_ ∨ ¬(start ≤ a ∧ a < end_)) := by
  unfold Vma.Covers
  rw [hu.vmas]
  constructor
  · rintro ⟨w, hw, ha⟩
    obtain ⟨v, hv, hw⟩ := List.mem_flatMap.mp hw
    exact ⟨v, hv, ((hs.2 v hv).unmap_has hr).mp ⟨w, hw, ha⟩⟩
  · rintro ⟨v, hv, ha⟩
    obtain ⟨w, hw, hwa⟩ := ((hs.2 v hv).unmap_has hr).mpr ha
    exact ⟨w, List.mem_flatMap.mpr ⟨v, hv, hw⟩, hwa⟩

/-- The node of an area that passed the overlap test is gone, or holds something else. -/
theorem changed (hs : Vma.Sorted s.vmas)
    (hvmas : l.map m.node = s.vmas) {n : Nat} (hn : n ∈ l) (ht : (m.node n).Touched start end_)
    (hn' : n ∈ l') : m'.node n ≠ m.node n := by
  intro heq
  obtain ⟨m₁, m₂, rfl⟩ := List.append_of_mem hn
  rcases hu.nodes.touched m₁ n m₂ rfl ht hn' with hdec | ⟨w, hw, htw, hp⟩
  · have href := congrArg Vma.refCount (heq.symm.trans hdec)
    simp only at href
    omega
  · rw [← hvmas, List.map_append, List.map_cons] at hs
    rw [heq] at hp
    exact hs.not_piece (List.mem_map_of_mem hw) htw hp

/-- The entries of the pages without a removed address stay. -/
theorem leaf_kept {vpn : Nat} (h : ∀ a, Vma.Covers s.vmas a → start ≤ a → a < end_ → a / PGSIZE ≠ vpn) :
    s'.leaf vpn = s.leaf vpn := by
  apply hu.leaf.kept
  rintro ⟨v, hv, hf⟩
  have hin : vpn * PGSIZE < (vpn + 1) * PGSIZE := by
    simp only [PGSIZE]
    omega
  obtain ⟨ha, hlo, hhi⟩ := hf.has (hu.aligned v hv) le_rfl hin
  exact h _ ⟨v, hv, ha⟩ hlo hhi Space.page_div

/-- In a page in which an area ends, no entry is cleared. -/
theorem end_kept (hs : Vma.Sorted s.vmas) {v : Vma}
    (hv : v ∈ s.vmas) (hlt : v.addr < v.end_) (hmod : v.end_ % PGSIZE ≠ 0) :
    s'.leaf (v.end_ / PGSIZE) = s.leaf (v.end_ / PGSIZE) := by
  apply hu.leaf.kept
  rintro ⟨w, hw, hf⟩
  have hal := hu.aligned w hw
  have hlast : w.Has (v.end_ - 1) := by
    refine (hf.has hal ?_ ?_).1 <;> simp only [PGSIZE] at * <;> omega
  have hnext : w.Has v.end_ := by
    refine (hf.has hal ?_ ?_).1 <;> simp only [PGSIZE] at * <;> omega
  have hself : v.Has (v.end_ - 1) := ⟨by omega, by omega⟩
  obtain rfl := hs.unique hv hw hself hlast
  exact lt_irrefl _ hnext.2

end Ranges

section Call

variable (hu : Unmapped start (munmapEnd start len) r m m' l l' s s') (hs : Vma.Sorted s.vmas)
  (hr : Vma.Apart start (munmapEnd start len)) (hpos : 0 < len) (hvmas : l.map m.node = s.vmas)
include hu hs hr hpos hvmas

theorem exact_of (hx : ExactCall start len s) :
    RemovesExactly start (rangeEnd start len) r m m' l l' s s' where
  covered a := by
    rw [hu.covers hs hr]
    have hle : munmapEnd start len ≤ rangeEnd start len := munmapEnd_le hpos
    constructor
    · rintro ⟨v, hv, ha, hout⟩
      have hout := hout.resolve_left (hx.refs v hv)
      exact ⟨⟨v, hv, ha⟩, fun hin => hout ⟨hin.1, hx.tail a ⟨v, hv, ha⟩ hin.1 hin.2⟩⟩
    · rintro ⟨⟨v, hv, ha⟩, hout⟩
      exact ⟨v, hv, ha, .inr fun hin => hout ⟨hin.1, hin.2.trans_le hle⟩⟩
  gone a ha hlo hhi := by
    have hend := hx.tail a ha hlo hhi
    obtain ⟨v, hv, ha⟩ := ha
    rcases ha.freed hlo hend munmapEnd_mod (hx.refs v hv) (hu.aligned v hv) with hf | ⟨hle, hmod, heq⟩
    · exact hu.leaf.gone _ ⟨v, hv, hf⟩
    · rw [heq]
      exact hu.leaf.invalid (hx.ends v hv (ha.intersects hlo hend) hle hmod)
  kept vpn h := by
    have hle : munmapEnd start len ≤ rangeEnd start len := munmapEnd_le hpos
    exact hu.leaf_kept fun a ha hlo hhi => h a ha hlo (hhi.trans_le hle)
  offsets w hw a ha := by
    rw [hu.vmas] at hw
    obtain ⟨v, hv, hw⟩ := List.mem_flatMap.mp hw
    have hva := ((hs.2 v hv).unmap_has hr).mp ⟨w, hw, ha⟩
    exact ⟨v, hv, hva.1, Vma.unmap_offset (hs.2 v hv) hw ha⟩
  identity n hn hno := by
    have hv : m.node n ∈ s.vmas := hvmas ▸ List.mem_map_of_mem hn
    exact hu.nodes.same n hn fun ht => hno (hx.touch _ hv ht)
  result := by
    rw [hu.result]
    constructor
    · rintro ⟨v, hv, ht⟩
      exact ⟨v, hv, hx.touch v hv ht⟩
    · rintro ⟨v, hv, hi⟩
      obtain ⟨ha, hlo, hhi⟩ := hi.has
      have hend := hx.tail _ ⟨v, hv, ha⟩ hlo hhi
      exact ⟨v, hv, hlo.trans_lt ha.2, (ha.1.trans_lt hend).le⟩

theorem of_exact (hx : RemovesExactly start (rangeEnd start len) r m m' l l' s s') :
    ExactCall start len s := by
  have hle : munmapEnd start len ≤ rangeEnd start len := munmapEnd_le hpos
  have htouch : ∀ v ∈ s.vmas, v.Touched start (munmapEnd start len) →
      v.Intersects start (rangeEnd start len) := by
    intro v hv ht
    by_contra hno
    rw [← hvmas] at hv
    obtain ⟨n, hn, rfl⟩ := List.mem_map.mp hv
    obtain ⟨hn', heq⟩ := hx.identity n hn hno
    exact hu.changed hs hvmas hn ht hn' heq
  have hrefs : ∀ v ∈ s.vmas, ¬v.Held start (munmapEnd start len) := by
    intro v hv hheld
    obtain ⟨ha, hlo, hhi⟩ := (htouch v hv hheld.1).has
    have hstay := (hu.covers hs hr _).mpr ⟨v, hv, ha, .inl hheld⟩
    exact ((hx.covered _).mp hstay).2 ⟨hlo, hhi⟩
  refine ⟨?_, htouch, hrefs, ?_⟩
  · rintro a ⟨v, hv, ha⟩ hlo hhi
    by_contra hno
    have hstay := (hu.covers hs hr a).mpr ⟨v, hv, ha, .inr fun hin => hno hin.2⟩
    exact ((hx.covered a).mp hstay).2 ⟨hlo, hhi⟩
  · intro v hv hi hend hmod
    obtain ⟨ha, hlo, hhi⟩ := hi.has
    have hlt : v.addr < v.end_ := ha.1.trans_lt ha.2
    have hlast : v.Has (v.end_ - 1) := ⟨by omega, by omega⟩
    have hgone := hx.gone _ ⟨v, hv, hlast⟩ (by have := ha.2; omega) (by omega)
    have hpage : (v.end_ - 1) / PGSIZE = v.end_ / PGSIZE := by
      simp only [PGSIZE] at hmod ⊢
      omega
    rw [hpage, hu.end_kept hs hv hlt hmod] at hgone
    exact hgone

end Call

end Unmapped

/-! ## The call -/

section Munmap

variable {arch : Arch} {ops : PageOps} {fuel pid start : Nat} {len r r' : Int} {m m' : VmaMem}
  {l : List Nat} {s s' : Space}

/-- The call on the nodes and the call on the space are the same call; the start is rounded down. -/
theorem munmap_rounded (hrep : Represents m pid l s) (hs : Vma.Sorted s.vmas) (hpos : 0 < len)
    (hm : m.munmap ops fuel pid start len = some (r, m'))
    (hsp : Space.munmap arch start len s = some (r', s')) :
    ∃ l', Represents m' pid l' s' ∧ r' = r ∧
      Unmapped (pgRoundDown start) (munmapEnd start len) r m m' l l' s s' := by
  obtain ⟨l', found, hcut, hkept, hr, hfound⟩ := VmaMem.munmap_kept hrep.owns hrep.closed hpos hm
  rw [Space.munmap, if_neg (by omega)] at hsp
  have hend : pgRoundDown (toU64 (start + len)) = munmapEnd start len := rfl
  rw [hend] at hcut hkept hfound hsp
  obtain ⟨⟨found', vmas, t⟩, hloop, heq⟩ := Option.map_eq_some_iff.mp hsp
  obtain ⟨hr', rfl⟩ := Prod.mk.inj heq
  obtain ⟨rfl, hfound', haligned, hclears⟩ := Space.munmapLoop_clears hs.2 hloop
  have htouched : (found = true ↔ found' = true) := by
    rw [hfound, hfound', ← hrep.vmas]
    simp only [List.mem_map, exists_exists_and_eq_and]
  have hsame : found' = found := (Bool.eq_iff_iff.mpr htouched).symm
  subst hsame
  have hhead : m'.head = m.head := hcut.moved.head
  refine ⟨l', ⟨?_, ?_, ?_⟩, hr'.symm.trans hr.symm, hkept, rfl, haligned, ?_, ?_⟩
  · rw [hhead]
    simpa using hcut.owns
  · rw [hhead]
    simpa using hcut.moved.closed (by simpa using hrep.closed)
  · rw [hcut.rest, hrep.vmas]
    rfl
  · exact ⟨hclears.gone, hclears.kept⟩
  · rw [← hfound', hr]
    cases found' <;> simp

theorem munmap_unmapped (hrep : Represents m pid l s) (hs : Vma.Sorted s.vmas)
    (hal : start % PGSIZE = 0) (hpos : 0 < len)
    (hm : m.munmap ops fuel pid start len = some (r, m'))
    (hsp : Space.munmap arch start len s = some (r', s')) :
    ∃ l', Represents m' pid l' s' ∧ r' = r ∧ Unmapped start (munmapEnd start len) r m m' l l' s s' := by
  have hround : pgRoundDown start = start := Nat.div_mul_cancel (Nat.dvd_of_mod_eq_zero hal)
  have hrounded := munmap_rounded hrep hs hpos hm hsp
  rwa [hround] at hrounded

/-- A mapping of three pages. -/
def threePages : Vma :=
  { Vma.zero with
    type := .MMAP, addr := 0x10000, size := 0x3000, end_ := 0x13000, refCount := 1 }

/-- Its node, the only one of its list. -/
def oneNode : VmaMem :=
  { VmaMem.boot with
    links := ⟨fun x => if x = 0x1000 then 0x2000 else 0x1000, fun x => if x = 0x1000 then 0x2000 else 0x1000⟩
    node := fun _ => threePages
    used := fun x => x == 0x1000 || x == 0x2000
    supply := [0x3000, 0x4000]
    head := fun _ => 0x1000 }

/-- Its space, in which nothing is mapped yet. -/
def oneArea : Space :=
  { vmas := [threePages], leaf := fun _ => Pte.zero, sz := 0, virtAddr := 0, ofile := fun _ => none,
    shm := oneNode.shm, mapAddr := USER_MMAP_START, supply := fun n => 0x3000 + n * PGSIZE, freed := [],
    memStart := 0, memEnd := 0 }

theorem oneNode_represents : Represents oneNode 1 [0x2000] oneArea where
  owns := ⟨⟨by unfold Links.Linked; decide, by decide⟩, by decide, by decide⟩
  closed x hx hO := by
    refine absurd ?_ hO
    simp only [oneNode, Bool.or_eq_true, beq_iff_eq] at hx
    simpa [oneNode] using hx
  vmas := rfl

theorem oneArea_sorted : Vma.Sorted oneArea.vmas := Vma.sorted_singleton ⟨by decide, by decide, by decide⟩

end Munmap

end SC7
