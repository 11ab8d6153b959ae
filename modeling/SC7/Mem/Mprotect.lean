-- SUMMARY: What `sys_mprotect` changes: the pieces of the areas, their offsets, the leaf entries, and what is left of a failed call.
import SC7.Mem.Munmap

/-!
# Protecting a range

`sys_mprotect` cuts the areas at the ends of the range and gives the pieces inside the new
protection. The offset of such a piece is moved by its distance from the first area the range meets,
whatever area it was cut from, and the distance is taken after the first area was moved itself. The
list is changed as the loop goes along, so a call that gets no page for a piece leaves what it did
before. Below `p->sz` the loop is not run at all.
-/

namespace SC7

namespace Space

variable {start end_ perm b : Nat} {prot : Int} {v w : Vma} {vs : List Vma} {s s' : Space}

/-! ## One area -/

instance (v : Vma) (start end_ : Nat) : Decidable (v.Meets start end_) :=
  inferInstanceAs (Decidable (_ ∧ _))

/-- The area with the new protection. -/
def reprotect (perm : Nat) (prot : Int) (v : Vma) : Vma := { v with perm := perm, origProt := prot }

/-- What `sys_mprotect` makes of an area; `base` is the address that the offset of a piece is moved
from. -/
def protectVma (start end_ perm : Nat) (prot : Int) (base : Nat) (v : Vma) : List Vma :=
  if v.Meets start end_ then
    if v.addr ≥ start ∧ v.end_ ≤ end_ then [reprotect perm prot v]
    else
      (if v.addr < start then [v.front start] else []) ++
        protectMiddle start end_ perm prot base v ::
          (if v.end_ > end_ then [v.back end_] else [])
  else [v]

theorem protectVma_skip (h : ¬v.Meets start end_) : protectVma start end_ perm prot b v = [v] := if_neg h

theorem protectVma_inside (h : v.Meets start end_) (hin : v.addr ≥ start ∧ v.end_ ≤ end_) :
    protectVma start end_ perm prot b v = [reprotect perm prot v] := by
  rw [protectVma, if_pos h, if_pos hin]

theorem protectVma_cut (h : v.Meets start end_) (hin : ¬(v.addr ≥ start ∧ v.end_ ≤ end_)) :
    protectVma start end_ perm prot b v = (if v.addr < start then [v.front start] else []) ++
      protectMiddle start end_ perm prot b v :: (if v.end_ > end_ then [v.back end_] else []) := by
  rw [protectVma, if_pos h, if_neg hin]

theorem mem_protectVma_cut (h : v.Meets start end_) (hin : ¬(v.addr ≥ start ∧ v.end_ ≤ end_)) :
    w ∈ protectVma start end_ perm prot b v ↔
      (v.addr < start ∧ w = v.front start) ∨ w = protectMiddle start end_ perm prot b v ∨
        (v.end_ > end_ ∧ w = v.back end_) := by
  rw [protectVma_cut h hin, List.mem_append, List.mem_cons]
  refine or_congr ?_ (or_congr Iff.rfl ?_) <;> split <;> simp_all

theorem middle_addr : (protectMiddle start end_ perm prot b v).addr = max v.addr start := by
  simp only [protectMiddle, max_def]
  split <;> split <;> omega

theorem middle_end : (protectMiddle start end_ perm prot b v).end_ = min v.end_ end_ := by
  simp only [protectMiddle, min_def]
  split <;> split <;> omega

/-- The pieces of an area are in order and inside it. -/
theorem protectVma_sorted (h : v.Ok) (hlt : start < end_) :
    Vma.Sorted (protectVma start end_ perm prot b v) ∧
      ∀ w ∈ protectVma start end_ perm prot b v, w.Within v := by
  obtain ⟨hle, hmax, hlen⟩ := h
  have hself : v.Within v := ⟨le_rfl, le_rfl⟩
  by_cases hm : v.Meets start end_
  · by_cases hin : v.addr ≥ start ∧ v.end_ ≤ end_
    · rw [protectVma_inside hm hin]
      refine ⟨Vma.sorted_singleton ⟨hle, hmax, hlen⟩, fun w hw => ?_⟩
      rw [List.mem_singleton.mp hw]
      exact ⟨le_rfl, le_rfl⟩
    · obtain ⟨hm₁, hm₂⟩ := hm
      have haddr : (protectMiddle start end_ perm prot b v).addr = max v.addr start := middle_addr
      have hend : (protectMiddle start end_ perm prot b v).end_ = min v.end_ end_ := middle_end
      generalize hmid : protectMiddle start end_ perm prot b v = mid at haddr hend
      have hok : mid.Ok := ⟨by omega, by omega, by omega⟩
      have hwithin : mid.Within v := ⟨by omega, by omega⟩
      refine ⟨⟨?_, ?_⟩, ?_⟩
      · rw [protectVma_cut ⟨hm₁, hm₂⟩ hin, hmid]
        split <;> split <;> simp [Vma.front, Vma.back, haddr, hend]
        all_goals omega
      · intro w hw
        rcases (mem_protectVma_cut ⟨hm₁, hm₂⟩ hin).mp hw with ⟨hs, rfl⟩ | rfl | ⟨he, rfl⟩
        · exact ⟨hs.le, by simp only [Vma.front]; omega, by simp only [Vma.front]; omega⟩
        · exact hmid ▸ hok
        · exact ⟨he.le, hmax, by simp only [Vma.back]; omega⟩
      · intro w hw
        rcases (mem_protectVma_cut ⟨hm₁, hm₂⟩ hin).mp hw with ⟨hs, rfl⟩ | rfl | ⟨he, rfl⟩
        · exact ⟨le_rfl, hm₁.le⟩
        · exact hmid ▸ hwithin
        · exact ⟨hm₂.le, le_rfl⟩
  · rw [protectVma_skip hm]
    exact ⟨Vma.sorted_singleton ⟨hle, hmax, hlen⟩, by simpa using hself⟩

/-- The pieces cover what the area covered. -/
theorem protectVma_has {a : Nat} (h : v.Ok) (hlt : start < end_) :
    (∃ w ∈ protectVma start end_ perm prot b v, w.Has a) ↔ v.Has a := by
  constructor
  · rintro ⟨w, hw, ha₁, ha₂⟩
    obtain ⟨hw₁, hw₂⟩ := (protectVma_sorted h hlt).2 w hw
    exact ⟨hw₁.trans ha₁, ha₂.trans_le hw₂⟩
  · rintro ⟨ha₁, ha₂⟩
    by_cases hm : v.Meets start end_
    · by_cases hin : v.addr ≥ start ∧ v.end_ ≤ end_
      · rw [protectVma_inside hm hin]
        exact ⟨_, List.mem_singleton_self _, ha₁, ha₂⟩
      · simp only [mem_protectVma_cut hm hin]
        by_cases hs : a < start
        · exact ⟨_, .inl ⟨by omega, rfl⟩, ha₁, hs⟩
        · by_cases he : a < end_
          · refine ⟨_, .inr (.inl rfl), ?_⟩
            unfold Vma.Has
            rw [middle_addr, middle_end]
            omega
          · exact ⟨_, .inr (.inr ⟨by omega, rfl⟩), by simp only [Vma.back]; omega, ha₂⟩
    · rw [protectVma_skip hm]
      exact ⟨v, List.mem_singleton_self _, ha₁, ha₂⟩

/-- A piece has the file and the type of its area, the new protection in the range and the old one
outside. -/
theorem protectVma_rights {a : Nat} (h : v.Ok) (hlt : start < end_)
    (hw : w ∈ protectVma start end_ perm prot b v) (ha : w.Has a) :
    v.Has a ∧ w.fd = v.fd ∧ w.type = v.type ∧
      (start ≤ a → a < end_ → w.perm = perm ∧ w.origProt = prot) ∧
      (¬(start ≤ a ∧ a < end_) → w.perm = v.perm ∧ w.origProt = v.origProt) := by
  have hva : v.Has a := (protectVma_has h hlt).mp ⟨w, hw, ha⟩
  refine ⟨hva, ?_⟩
  obtain ⟨ha₁, ha₂⟩ := ha
  by_cases hm : v.Meets start end_
  · by_cases hin : v.addr ≥ start ∧ v.end_ ≤ end_
    · rw [protectVma_inside hm hin, List.mem_singleton] at hw
      subst hw
      refine ⟨rfl, rfl, fun _ _ => ⟨rfl, rfl⟩, fun hno => absurd ?_ hno⟩
      exact ⟨hin.1.le.trans hva.1, hva.2.trans_le hin.2⟩
    · rcases (mem_protectVma_cut hm hin).mp hw with ⟨hs, rfl⟩ | rfl | ⟨he, rfl⟩
      · refine ⟨rfl, rfl, fun hlo _ => absurd ha₂ (not_lt.mpr hlo), fun _ => ⟨rfl, rfl⟩⟩
      · rw [middle_addr] at ha₁
        rw [middle_end] at ha₂
        refine ⟨rfl, rfl, fun _ _ => ⟨rfl, rfl⟩, fun hno => absurd ?_ hno⟩
        exact ⟨(le_max_right _ _).trans ha₁, ha₂.trans_le (min_le_right _ _)⟩
      · refine ⟨rfl, rfl, fun _ hhi => absurd hhi (not_lt.mpr ha₁), fun _ => ⟨rfl, rfl⟩⟩
  · rw [protectVma_skip hm, List.mem_singleton] at hw
    subst hw
    refine ⟨rfl, rfl, fun hlo hhi => absurd ?_ hm, fun _ => ⟨rfl, rfl⟩⟩
    exact ⟨hlo.trans_lt hva.2, hva.1.trans_lt hhi⟩

/-- The piece in the range keeps the offsets of its area only if they are moved from its start. -/
theorem middle_offset {a : Nat} (h : v.Ok) (hb : b < 2 ^ 64)
    (ha : (protectMiddle start end_ perm prot b v).Has a) :
    (protectMiddle start end_ perm prot b v).offset a = v.offset a ↔ b = v.addr := by
  obtain ⟨hle, hlt, hlen⟩ := h
  have hoff : (protectMiddle start end_ perm prot b v).fOff = add64 v.fOff (sub64 (max v.addr start) b) := by
    have haddr : (protectMiddle start end_ perm prot b v).addr = max v.addr start := middle_addr
    rw [← haddr]
    rfl
  obtain ⟨ha₁, ha₂⟩ := ha
  unfold Vma.offset
  rw [hoff, middle_addr]
  rw [middle_addr] at ha₁
  rw [middle_end] at ha₂
  have hmax : v.addr ≤ max v.addr start := le_max_left _ _
  generalize max v.addr start = os at *
  have hos : a < v.end_ := ha₂.trans_le (min_le_left _ _)
  unfold add64 sub64
  omega

/-- Every other piece keeps them anyway. -/
theorem protectVma_offset {a : Nat} (h : v.Ok) (hlt : start < end_)
    (hw : w ∈ protectVma start end_ perm prot b v) (ha : w.Has a)
    (hcut : v.Meets start end_ → v.addr < start ∨ end_ < v.end_ → b = v.addr) :
    w.offset a = v.offset a := by
  have hva : v.Has a := (protectVma_has h hlt).mp ⟨w, hw, ha⟩
  by_cases hm : v.Meets start end_
  · by_cases hin : v.addr ≥ start ∧ v.end_ ≤ end_
    · rw [protectVma_inside hm hin, List.mem_singleton] at hw
      subst hw
      rfl
    · rcases (mem_protectVma_cut hm hin).mp hw with ⟨hs, rfl⟩ | rfl | ⟨he, rfl⟩
      · rfl
      · have hb : b = v.addr := hcut hm (by omega)
        have hb' : b < 2 ^ 64 := hb ▸ h.le.trans_lt h.lt
        exact (middle_offset h hb' ha).mpr hb
      · obtain ⟨hle, hmax, hlen⟩ := h
        obtain ⟨ha₁, ha₂⟩ := ha
        have hm₂ := hm.2
        simp only [Vma.back, Vma.offset, add64, sub64] at *
        omega
  · rw [protectVma_skip hm, List.mem_singleton] at hw
    subst hw
    rfl

/-! ## The loop over the areas -/

/-- The address that the loop moves offsets from: the first address of the range in the first area
that it meets. -/
def firstBase (start end_ : Nat) (vs : List Vma) : Nat :=
  match vs.find? fun v => v.Meets start end_ with
  | none => 0
  | some v => max v.addr start

/-- The areas that the range cuts on its left, and on its right. -/
def CutLeft (start end_ : Nat) (v : Vma) : Prop := v.Meets start end_ ∧ v.addr < start
def CutRight (start end_ : Nat) (v : Vma) : Prop := v.Meets start end_ ∧ end_ < v.end_

instance (start end_ : Nat) (v : Vma) : Decidable (CutLeft start end_ v) :=
  inferInstanceAs (Decidable (_ ∧ _))

instance (start end_ : Nat) (v : Vma) : Decidable (CutRight start end_ v) :=
  inferInstanceAs (Decidable (_ ∧ _))

variable {base : Option Nat} {l : List Vma} {ok : Bool}

theorem protectVmas_skip (h : ¬v.Meets start end_) :
    protectVmas start end_ perm prot base (v :: vs) s =
      ((protectVmas start end_ perm prot base vs s).1,
        v :: (protectVmas start end_ perm prot base vs s).2.1,
        (protectVmas start end_ perm prot base vs s).2.2) := by
  have h' : ¬(start < v.end_ ∧ end_ > v.addr) := h
  rw [protectVmas, if_neg h']

theorem protectVmas_inside (h : v.Meets start end_) (hin : v.addr ≥ start ∧ v.end_ ≤ end_) :
    protectVmas start end_ perm prot base (v :: vs) s =
      ((protectVmas start end_ perm prot (some (base.getD v.addr)) vs s).1,
        reprotect perm prot v :: (protectVmas start end_ perm prot (some (base.getD v.addr)) vs s).2.1,
        (protectVmas start end_ perm prot (some (base.getD v.addr)) vs s).2.2) := by
  have h' : start < v.end_ ∧ end_ > v.addr := h
  rw [protectVmas, if_pos h', if_pos hin]
  rfl

/-- The page for the piece on one side, if there is one. -/
def sidePage (c : Prop) [Decidable c] (s : Space) : Nat × Space := if c then s.alloc else (1, s)

theorem protectVmas_cut (h : v.Meets start end_) (hin : ¬(v.addr ≥ start ∧ v.end_ ≤ end_)) :
    protectVmas start end_ perm prot base (v :: vs) s =
      if (sidePage (v.addr < start) s).1 = NULL then
        (false, v :: vs, (sidePage (v.addr < start) s).2)
      else
        let s₁ := (sidePage (v.addr < start) s).2
        if (sidePage (v.end_ > end_) s₁).1 = NULL then
          (false, (if v.addr < start then [v.front start] else []) ++ v :: vs,
            (sidePage (v.end_ > end_) s₁).2)
        else
          let b := base.getD (max v.addr start)
          let rest := protectVmas start end_ perm prot (some b) vs (sidePage (v.end_ > end_) s₁).2
          (rest.1, protectVma start end_ perm prot b v ++ rest.2.1, rest.2.2) := by
  have h' : start < v.end_ ∧ end_ > v.addr := h
  have hmax : (if start > v.addr then start else v.addr) = max v.addr start := by
    rw [max_def]
    split <;> split <;> omega
  rw [protectVmas, if_pos h', if_neg hin, hmax]
  simp only [protectVma_cut h hin]
  rfl

/-- Only pages for pieces are taken. -/
structure SameButPages (s s' : Space) : Prop where
  mm : s'.toMm = s.toMm
  kern : { s'.toKern with supply := s.supply } = s.toKern

theorem SameButPages.refl : SameButPages s s := ⟨rfl, rfl⟩

theorem SameButPages.trans {t : Space} (h₁ : SameButPages s s') (h₂ : SameButPages s' t) :
    SameButPages s t := by
  obtain ⟨hm₁, hk₁⟩ := h₁
  obtain ⟨hm₂, hk₂⟩ := h₂
  refine ⟨hm₂.trans hm₁, ?_⟩
  rw [← hk₁, ← hk₂]

theorem sidePage_same (c : Prop) [Decidable c] : SameButPages s (sidePage c s).2 := by
  unfold sidePage
  split <;> exact ⟨rfl, rfl⟩

/-- Whether it comes through or not, the loop itself only takes pages. -/
theorem protectVmas_same (start end_ perm : Nat) (prot : Int) (base : Option Nat) (vs : List Vma) (s : Space) :
    SameButPages s (protectVmas start end_ perm prot base vs s).2.2 := by
  induction vs generalizing s base with
  | nil => exact .refl
  | cons v vs ih =>
    by_cases hm : v.Meets start end_
    · by_cases hin : v.addr ≥ start ∧ v.end_ ≤ end_
      · rw [protectVmas_inside hm hin]
        exact ih _ _
      · rw [protectVmas_cut hm hin]
        split
        · exact sidePage_same _
        dsimp only
        split
        · exact (sidePage_same _).trans (sidePage_same _)
        · exact ((sidePage_same _).trans (sidePage_same _)).trans (ih _ _)
    · rw [protectVmas_skip hm]
      exact ih _ _

/-- A loop that comes through has cut every area, with one base for all of them. -/
theorem protectVmas_done (h : (protectVmas start end_ perm prot base vs s).1 = true) :
    (protectVmas start end_ perm prot base vs s).2.1 =
      vs.flatMap (protectVma start end_ perm prot (base.getD (firstBase start end_ vs))) := by
  induction vs generalizing s base with
  | nil => rfl
  | cons v vs ih =>
    by_cases hm : v.Meets start end_
    · have hfirst : firstBase start end_ (v :: vs) = max v.addr start := by
        rw [firstBase, List.find?_cons_of_pos (by simpa using hm)]
      rw [hfirst, List.flatMap_cons]
      by_cases hin : v.addr ≥ start ∧ v.end_ ≤ end_
      · rw [protectVmas_inside hm hin] at h ⊢
        dsimp only
        rw [ih h, protectVma_inside hm hin, max_eq_left hin.1]
        rfl
      · rw [protectVmas_cut hm hin] at h ⊢
        split at h
        · cases h
        dsimp only at h
        split at h
        · cases h
        rename_i hleft hright
        rw [if_neg hleft]
        dsimp only
        rw [if_neg hright]
        dsimp only
        rw [ih h]
        rfl
    · have hfirst : firstBase start end_ (v :: vs) = firstBase start end_ vs := by
        rw [firstBase, List.find?_cons_of_neg (by simpa using hm)]
        rfl
      rw [protectVmas_skip hm] at h ⊢
      dsimp only
      rw [ih h, hfirst, List.flatMap_cons, protectVma_skip hm]
      rfl

/-! ## Calls without pages -/

/-- The allocator has no page for a piece. The piece on the left comes first. -/
def Starved (start end_ : Nat) (supply : Nat → Nat) (vs : List Vma) : Prop :=
  (∃ v ∈ vs, CutLeft start end_ v ∧ supply 0 = NULL) ∨
    ∃ v ∈ vs, CutRight start end_ v ∧
      supply (if ∃ w ∈ vs, CutLeft start end_ w then 1 else 0) = NULL

/-- A call that finds no page has not changed an area before: it wanted the page for the piece on the
left, or there is no such piece and the areas in the range have the protection already. -/
def Quiet (start end_ perm : Nat) (prot : Int) (supply : Nat → Nat) (vs : List Vma) : Prop :=
  (∃ v ∈ vs, CutLeft start end_ v ∧ supply 0 = NULL) ∨
    ∀ v ∈ vs, v.Meets start end_ → start ≤ v.addr ∧ (v.end_ ≤ end_ → v.perm = perm ∧ v.origProt = prot)

theorem protectVmas_none (h : ∀ v ∈ vs, ¬v.Meets start end_) :
    protectVmas start end_ perm prot base vs s = (true, vs, s) := by
  induction vs with
  | nil => rfl
  | cons v vs ih =>
    rw [protectVmas_skip (h v List.mem_cons_self), ih fun w hw => h w (List.mem_cons_of_mem _ hw)]

/-- The areas behind one that reaches over the end of the range do not meet it. -/
theorem not_meets_behind (hs : Vma.Sorted (v :: vs)) (he : end_ < v.end_) :
    ∀ w ∈ vs, ¬w.Meets start end_ := by
  intro w hw hm
  have hle := (List.pairwise_cons.mp hs.1).1 w hw
  exact absurd (he.trans_le hle) hm.2.asymm

/-- The areas after the first one that the range meets. None of them is cut on its left, and only the
last can be cut on its right. -/
theorem protectVmas_rest (end_ perm : Nat) (prot : Int) (base : Option Nat) (s : Space) (hs : Vma.Sorted vs) (hlo : ∀ v ∈ vs, start ≤ v.addr) :
    ((protectVmas start end_ perm prot base vs s).1 = false ↔
        ∃ v ∈ vs, CutRight start end_ v ∧ s.supply 0 = NULL) ∧
      ((protectVmas start end_ perm prot base vs s).1 = false →
        (protectVmas start end_ perm prot base vs s).2.1 =
          vs.map fun v => if v.Meets start end_ ∧ v.end_ ≤ end_ then reprotect perm prot v else v) := by
  induction vs generalizing s base with
  | nil => simp [protectVmas]
  | cons v vs ih =>
    have hlo' := List.forall_mem_cons.mp hlo
    by_cases hm : v.Meets start end_
    · by_cases hend : v.end_ ≤ end_
      · have hcut : ¬CutRight start end_ v := fun hc => absurd hc.2 (not_lt.mpr hend)
        rw [protectVmas_inside hm ⟨hlo'.1, hend⟩, List.exists_mem_cons_iff, List.map_cons]
        obtain ⟨hfail, hlist⟩ := ih (some (base.getD v.addr)) s hs.tail hlo'.2
        refine ⟨?_, fun h => ?_⟩
        · simpa [hcut] using hfail
        · rw [if_pos ⟨hm, hend⟩, hlist h]
      · -- the last area: behind it nothing meets the range
        have hgt : v.end_ > end_ := not_le.mp hend
        have hbehind : ∀ w ∈ vs, ¬w.Meets start end_ := not_meets_behind hs hgt
        have hcut : CutRight start end_ v := ⟨hm, hgt⟩
        have hleft : ¬v.addr < start := not_lt.mpr hlo'.1
        rw [protectVmas_cut hm fun hin => hend hin.2, List.exists_mem_cons_iff]
        simp only [sidePage, if_neg hleft, if_pos hgt, List.nil_append]
        rw [if_neg Nat.one_ne_zero, protectVmas_none hbehind]
        have hrest : ¬∃ w ∈ vs, CutRight start end_ w ∧ s.supply 0 = NULL := by
          rintro ⟨w, hw, hc, -⟩
          exact hbehind w hw hc.1
        have hsupply : s.alloc.1 = s.supply 0 := rfl
        rw [hsupply]
        split
        · rename_i hnull
          refine ⟨by simp [hcut, hnull], fun _ => ?_⟩
          rw [List.map_cons, if_neg fun h => hend h.2]
          refine congrArg (v :: ·) (Eq.symm ?_)
          calc vs.map (fun w => if w.Meets start end_ ∧ w.end_ ≤ end_ then reprotect perm prot w else w)
              = vs.map id := List.map_congr_left fun w hw => if_neg fun h => hbehind w hw h.1
            _ = vs := List.map_id vs
        · rename_i hnull
          exact ⟨by simp [hnull], fun h => by cases h⟩
    · have hcut : ¬CutRight start end_ v := fun hc => hm hc.1
      rw [protectVmas_skip hm, List.exists_mem_cons_iff, List.map_cons]
      obtain ⟨hfail, hlist⟩ := ih base s hs.tail hlo'.2
      refine ⟨?_, fun h => ?_⟩
      · simpa [hcut] using hfail
      · rw [if_neg fun h => hm h.1, hlist h]

theorem reprotect_eq : reprotect perm prot v = v ↔ v.perm = perm ∧ v.origProt = prot := by
  constructor
  · intro h
    exact ⟨(congrArg Vma.perm h).symm, (congrArg Vma.origProt h).symm⟩
  · rintro ⟨rfl, rfl⟩
    rfl

/-- Without a piece on the left. -/
theorem protectVmas_failed_right (hs : Vma.Sorted vs) (hlo : ∀ v ∈ vs, start ≤ v.addr) :
    ((protectVmas start end_ perm prot base vs s).1 = false ↔ Starved start end_ s.supply vs) ∧
      ((protectVmas start end_ perm prot base vs s).1 = false →
        ((protectVmas start end_ perm prot base vs s).2.1 = vs ↔
          Quiet start end_ perm prot s.supply vs)) := by
  have hleft : ¬∃ v ∈ vs, CutLeft start end_ v := by
    rintro ⟨v, hv, hc⟩
    exact absurd hc.2 (not_lt.mpr (hlo v hv))
  have hleft' : ¬∃ v ∈ vs, CutLeft start end_ v ∧ s.supply 0 = NULL := fun ⟨v, hv, hc, _⟩ => hleft ⟨v, hv, hc⟩
  obtain ⟨hfail, hlist⟩ := protectVmas_rest end_ perm prot base s hs hlo
  refine ⟨?_, fun h => ?_⟩
  · rw [hfail, Starved, if_neg hleft]
    exact (or_iff_right hleft').symm
  · rw [hlist h, Quiet, or_iff_right hleft']
    nth_rewrite 2 [← List.map_id vs]
    rw [List.map_inj_left]
    refine forall₂_congr fun v hv => ?_
    by_cases hm : v.Meets start end_
    · by_cases hend : v.end_ ≤ end_
      · simp [hm, hend, hlo v hv, reprotect_eq]
      · simp [hend, hlo v hv]
    · simp [hm]

/-- With a piece on the left, which the first area has. -/
theorem protectVmas_failed_left (hs : Vma.Sorted (v :: vs)) (hc : CutLeft start end_ v) :
    ((protectVmas start end_ perm prot base (v :: vs) s).1 = false ↔
        Starved start end_ s.supply (v :: vs)) ∧
      ((protectVmas start end_ perm prot base (v :: vs) s).1 = false →
        ((protectVmas start end_ perm prot base (v :: vs) s).2.1 = v :: vs ↔
          Quiet start end_ perm prot s.supply (v :: vs))) := by
  obtain ⟨hm, haddr⟩ := hc
  have hin : ¬(v.addr ≥ start ∧ v.end_ ≤ end_) := fun h => absurd haddr (not_lt.mpr h.1)
  have hsome : ∃ w ∈ v :: vs, CutLeft start end_ w := ⟨v, List.mem_cons_self, hm, haddr⟩
  have hlo : ∀ w ∈ vs, start ≤ w.addr := fun w hw => hm.1.le.trans ((List.pairwise_cons.mp hs.1).1 w hw)
  have hsupply : s.alloc.1 = s.supply 0 := rfl
  rw [protectVmas_cut hm hin, Starved, if_pos hsome]
  simp only [sidePage, if_pos haddr, hsupply]
  by_cases hnull : s.supply 0 = NULL
  · have hfirst : ∃ w ∈ v :: vs, CutLeft start end_ w ∧ s.supply 0 = NULL :=
      ⟨v, List.mem_cons_self, ⟨hm, haddr⟩, hnull⟩
    rw [if_pos hnull]
    exact ⟨iff_of_true rfl (.inl hfirst), fun _ => iff_of_true rfl (.inl hfirst)⟩
  have hfirst : ¬∃ w ∈ v :: vs, CutLeft start end_ w ∧ s.supply 0 = NULL := fun ⟨w, _, _, h⟩ => hnull h
  have hquiet : ¬Quiet start end_ perm prot s.supply (v :: vs) := by
    rintro (h | h)
    · exact hfirst h
    · exact absurd (h v List.mem_cons_self hm).1 (not_le.mpr haddr)
  -- once the piece on the left is there, the list is longer than before
  rw [if_neg hnull, or_iff_right hfirst, iff_false_right hquiet]
  by_cases hend : v.end_ > end_
  · have hcut : CutRight start end_ v := ⟨hm, hend⟩
    have hnext : s.alloc.2.alloc.1 = s.supply 1 := rfl
    simp only [if_pos hend, hnext]
    by_cases hnull₁ : s.supply 1 = NULL
    · rw [if_pos hnull₁]
      refine ⟨by simp [hcut, hnull₁], fun _ heq => ?_⟩
      have := congrArg List.length heq
      simp at this
    · rw [if_neg hnull₁, protectVmas_none (not_meets_behind hs hend)]
      exact ⟨by simp [hnull₁], fun h => by cases h⟩
  · have hcut : ¬CutRight start end_ v := fun h => hend h.2
    obtain ⟨hfail, hlist⟩ := protectVmas_rest end_ perm prot (some (base.getD (max v.addr start)))
      s.alloc.2 hs.tail hlo
    simp only [if_neg hend]
    rw [if_neg Nat.one_ne_zero]
    refine ⟨?_, fun h heq => ?_⟩
    · rw [hfail, List.exists_mem_cons_iff]
      simp only [hcut, false_and, false_or]
      rfl
    · have := congrArg List.length heq
      rw [protectVma_cut hm hin, if_pos haddr, hlist h] at this
      simp at this
      omega

/-- The loop fails if and only if there is no page for a piece, and then the list is as before if and
only if the call is quiet. -/
theorem protectVmas_failed (start end_ perm : Nat) (prot : Int) (s : Space) (hs : Vma.Sorted vs) :
    ((protectVmas start end_ perm prot none vs s).1 = false ↔ Starved start end_ s.supply vs) ∧
      ((protectVmas start end_ perm prot none vs s).1 = false →
        ((protectVmas start end_ perm prot none vs s).2.1 = vs ↔
          Quiet start end_ perm prot s.supply vs)) := by
  induction vs with
  | nil => simp [protectVmas, Starved]
  | cons v vs ih =>
    by_cases hm : v.Meets start end_
    · by_cases haddr : v.addr < start
      · exact protectVmas_failed_left hs ⟨hm, haddr⟩
      · refine protectVmas_failed_right hs ?_
        intro w hw
        rcases List.mem_cons.mp hw with rfl | hw
        · exact not_lt.mp haddr
        · exact hm.1.le.trans ((List.pairwise_cons.mp hs.1).1 w hw)
    · have hl : ¬CutLeft start end_ v := fun hc => hm hc.1
      have hr : ¬CutRight start end_ v := fun hc => hm hc.1
      obtain ⟨hfail, hlist⟩ := ih hs.tail
      rw [protectVmas_skip hm]
      unfold Starved Quiet at *
      simp only [List.exists_mem_cons_iff, List.forall_mem_cons, hl, hr, hm, false_and, false_or,
        false_implies, true_and, List.cons.injEq]
      exact ⟨hfail, hlist⟩

/-! ## Leaf entries -/

/-- Whether a page with these flags can be read. -/
def canRead (arch : Arch) (flags : Nat) : Bool :=
  match arch with
  | .riscv => Bits.has flags (PTE_R .riscv)
  | .loongarch => !Bits.has flags PTE_NR

/-- The entry has the rights of `perm`, for the same page as before. -/
structure Reprotects (arch : Arch) (perm : Nat) (pte pte' : Pte) : Prop where
  pa : pte'.pa = pte.pa
  valid : pte'.valid = pte.valid
  read : pte'.valid = true → canRead arch pte'.flags = canRead arch perm
  write : pte'.valid = true → canWrite arch pte'.flags = canWrite arch perm
  exec : pte'.valid = true → canExec arch pte'.flags = canExec arch perm

variable {arch : Arch} {flags : Nat}

/-- On LoongArch a protection has both bits for writing, or none. -/
theorem getMmapperms_dirty (prot : Int) :
    Bits.has (getMmapperms .loongarch prot) (PTE_D .loongarch) =
      Bits.has (getMmapperms .loongarch prot) (PTE_W .loongarch) := by
  unfold getMmapperms
  split_ifs <;> decide

theorem protectFlags_valid (hv : Bits.has flags PTE_V = true) :
    Bits.has (protectFlags arch perm flags) PTE_V = true := by
  cases arch with
  | riscv => simp_all [protectFlags, Bits.has_clear, PTE_R, PTE_W, PTE_X, PTE_V]
  | loongarch =>
    simp only [protectFlags]
    split_ifs <;> simp_all [Bits.has_clear, PTE_W, PTE_NX, PTE_NR, PTE_D, PTE_V]

theorem protectFlags_reprotects {pte : Pte} (hv : pte.valid = true) :
    Reprotects arch (getMmapperms arch prot) pte
      ⟨pte.pa, protectFlags arch (getMmapperms arch prot) pte.flags⟩ := by
  have hdirty := getMmapperms_dirty prot
  have hvalid : Pte.valid ⟨pte.pa, protectFlags arch (getMmapperms arch prot) pte.flags⟩ = pte.valid :=
    (protectFlags_valid hv).trans hv.symm
  cases arch with
  | riscv =>
    refine ⟨rfl, hvalid, fun _ => ?_, fun _ => ?_, fun _ => ?_⟩
    · simp [canRead, protectFlags, Bits.has_clear, PTE_R, PTE_W, PTE_X]
    · simp [canWrite, protectFlags, Bits.has_clear, PTE_R, PTE_W, PTE_X]
    · simp [canExec, protectFlags, Bits.has_clear, PTE_R, PTE_W, PTE_X]
  | loongarch =>
    generalize getMmapperms .loongarch prot = perm at hdirty hvalid
    refine ⟨rfl, hvalid, fun _ => ?_, fun _ => ?_, fun _ => ?_⟩
    · simp only [canRead, protectFlags]
      split_ifs <;> simp_all [Bits.has_clear, PTE_W, PTE_NX, PTE_NR, PTE_D]
    · simp only [canWrite, protectFlags, Bits.has_or_mask, hdirty]
      split_ifs <;> simp_all [Bits.has_clear, PTE_W, PTE_NX, PTE_NR, PTE_D]
    · simp only [canExec, protectFlags]
      split_ifs <;> simp_all [Bits.has_clear, PTE_W, PTE_NX, PTE_NR, PTE_D]

theorem protectPte_reprotects (pte : Pte) :
    Reprotects arch (getMmapperms arch prot) pte (protectPte arch (getMmapperms arch prot) pte) := by
  unfold protectPte
  split
  · rename_i hv
    exact protectFlags_reprotects hv
  · rename_i hv
    have hno : ∀ {p : Prop}, pte.valid = true → p := fun hv' => absurd hv' hv
    exact ⟨rfl, rfl, hno, hno, hno⟩

/-- The pages of an aligned range. -/
theorem protectLoop_range {len : Nat} (hstart : start % PGSIZE = 0) (hlen : len % PGSIZE = 0)
    (h : protectLoop arch (getMmapperms arch prot) (Vmem.pageCeil (start + len - start)) start s = some s') :
    s' = { s with leaf := s'.leaf } ∧
      (∀ vpn, start ≤ vpn * PGSIZE → vpn * PGSIZE < start + len →
        Reprotects arch (getMmapperms arch prot) (s.leaf vpn) (s'.leaf vpn)) ∧
      ∀ vpn, ¬(start ≤ vpn * PGSIZE ∧ vpn * PGSIZE < start + len) → s'.leaf vpn = s.leaf vpn := by
  have hlo : start / PGSIZE * PGSIZE = start := Nat.div_mul_cancel (Nat.dvd_of_mod_eq_zero hstart)
  have hn : Vmem.pageCeil (start + len - start) = len / PGSIZE := by
    simp only [Vmem.pageCeil, PGSIZE] at *
    omega
  have hpages : ∀ vpn, PagesFrom (start / PGSIZE) (len / PGSIZE) vpn ↔
      start ≤ vpn * PGSIZE ∧ vpn * PGSIZE < start + len := by
    intro vpn
    simp only [PagesFrom, PGSIZE] at *
    omega
  rw [hn, ← hlo] at h
  obtain ⟨hsame, hout, hin⟩ := protectLoop_pages h
  refine ⟨hsame, fun vpn h₁ h₂ => ?_, fun vpn hno => hout vpn fun hp => hno ((hpages vpn).mp hp)⟩
  rw [hin vpn ((hpages vpn).mpr ⟨h₁, h₂⟩)]
  exact protectPte_reprotects _

/-! ## The call -/

/-- The range is page-aligned, and every address of it is in an area. -/
structure CoveredRange (start len : Nat) (s : Space) : Prop where
  startMod : start % PGSIZE = 0
  lenMod : len % PGSIZE = 0
  pos : 0 < len
  covered : ∀ a, start ≤ a → a < start + len → Vma.Covers s.vmas a

/-- The areas and the entries changed as `mprotect` says, and in nothing else. -/
structure ProtectsExactly (arch : Arch) (start end_ : Nat) (prot : Int) (s s' : Space) : Prop where
  covered : ∀ a, Vma.Covers s'.vmas a ↔ Vma.Covers s.vmas a
  inside : ∀ w ∈ s'.vmas, ∀ a, w.Has a → start ≤ a → a < end_ →
    w.perm = flagsInt (getMmapperms arch prot) ∧ w.origProt = prot
  outside : ∀ w ∈ s'.vmas, ∀ a, w.Has a → ¬(start ≤ a ∧ a < end_) →
    ∃ v ∈ s.vmas, v.Has a ∧ w.perm = v.perm ∧ w.origProt = v.origProt
  backing : ∀ w ∈ s'.vmas, ∀ a, w.Has a →
    ∃ v ∈ s.vmas, v.Has a ∧ w.offset a = v.offset a ∧ w.fd = v.fd ∧ w.type = v.type
  sorted : Vma.Sorted s'.vmas
  leafInside : ∀ vpn, start ≤ vpn * PGSIZE → vpn * PGSIZE < end_ →
    Reprotects arch (getMmapperms arch prot) (s.leaf vpn) (s'.leaf vpn)
  leafOutside : ∀ vpn, ¬(start ≤ vpn * PGSIZE ∧ vpn * PGSIZE < end_) → s'.leaf vpn = s.leaf vpn

/-- What is asked of a call with the result `r`. -/
def MeetsItsWord (arch : Arch) (start len : Nat) (prot : Int) (r : Int) (s s' : Space) : Prop :=
  (r = 0 → CoveredRange start len s → ProtectsExactly arch start (start + len) prot s s') ∧
    (r ≠ 0 → SameButPages s s')

/-- The file check lets the call through. -/
def FileOk (start end_ prot : Nat) (s : Space) : Prop :=
  ∀ v, s.vmas.find? (fun v => v.Meets start end_) = some v → protectFileError prot v s = false

/-- The calls that meet their word. Below `p->sz` the areas of the range have the protection already.
Elsewhere no area that the range meets starts before it, and one that reaches over its end starts with
it; and a call that finds no page for a piece has not changed an area before. -/
structure ExactProtect (arch : Arch) (start len prot : Nat) (s : Space) : Prop where
  heap : start < s.sz → CoveredRange start len s →
    ∀ v ∈ s.vmas, v.Intersects start (start + len) →
      v.perm = flagsInt (getMmapperms arch (toInt32 prot)) ∧ v.origProt = toInt32 prot
  pieces : s.sz ≤ start → CoveredRange start len s → FileOk start (start + len) prot s →
    ¬Starved start (start + len) s.supply s.vmas →
    ∀ v ∈ s.vmas, v.Meets start (start + len) → start ≤ v.addr ∧ (start + len < v.end_ → v.addr = start)
  pages : s.sz ≤ start → start % PGSIZE = 0 → len ≠ 0 → FileOk start (add64 start len) prot s →
    Starved start (add64 start len) s.supply s.vmas →
    Quiet start (add64 start len) (flagsInt (getMmapperms arch (toInt32 prot))) (toInt32 prot) s.supply s.vmas

/-- The first area that the range meets is the one that covers its start. -/
theorem find_meets (hs : Vma.Sorted vs) (hv : v ∈ vs) (ha : v.Has start) (hlt : start < end_) :
    vs.find? (fun v => v.Meets start end_) = some v := by
  induction vs with
  | nil => cases hv
  | cons x vs ih =>
    rcases List.mem_cons.mp hv with rfl | hv'
    · have hm : v.Meets start end_ := ⟨ha.2, ha.1.trans_lt hlt⟩
      exact List.find?_cons_of_pos (by simpa using hm)
    · have hle := (List.pairwise_cons.mp hs.1).1 v hv'
      have hm : ¬x.Meets start end_ := fun h => absurd h.1 (not_lt.mpr (hle.trans ha.1))
      rw [List.find?_cons_of_neg (by simpa using hm)]
      exact ih hs.tail hv'

section Range

variable {len : Nat} (hs : Vma.Sorted s.vmas) (hr : CoveredRange start len s)
include hs hr

/-- A covered range does not wrap. -/
theorem CoveredRange.nowrap : add64 start len = start + len := by
  obtain ⟨v, hv, ha⟩ := hr.covered (start + len - 1) (by have := hr.pos; omega) (by have := hr.pos; omega)
  have hlt := (hs.2 v hv).lt
  have hend := ha.2
  unfold add64
  have := hr.pos
  omega

/-- The offsets of the pieces are moved from the start of the range. -/
theorem CoveredRange.firstBase : firstBase start (start + len) s.vmas = start := by
  obtain ⟨v, hv, ha⟩ := hr.covered start le_rfl (by have := hr.pos; omega)
  rw [Space.firstBase, find_meets hs hv ha (by have := hr.pos; omega)]
  exact max_eq_right ha.1

/-- Cutting the areas is exact if and only if the offsets of the pieces come out right. -/
theorem protects_pieces_iff (hvmas : s'.vmas = s.vmas.flatMap
      (protectVma start (start + len) (flagsInt (getMmapperms arch prot)) prot start))
    (hin : ∀ vpn, start ≤ vpn * PGSIZE → vpn * PGSIZE < start + len →
      Reprotects arch (getMmapperms arch prot) (s.leaf vpn) (s'.leaf vpn))
    (hout : ∀ vpn, ¬(start ≤ vpn * PGSIZE ∧ vpn * PGSIZE < start + len) → s'.leaf vpn = s.leaf vpn) :
    ProtectsExactly arch start (start + len) prot s s' ↔
      ∀ v ∈ s.vmas, v.Meets start (start + len) →
        start ≤ v.addr ∧ (start + len < v.end_ → v.addr = start) := by
  have hpos := hr.pos
  have hlt : start < start + len := by omega
  have hpiece : ∀ {w v : Vma}, v ∈ s.vmas →
      w ∈ protectVma start (start + len) (flagsInt (getMmapperms arch prot)) prot start v → w ∈ s'.vmas := by
    intro w v hv hw
    rw [hvmas]
    exact List.mem_flatMap.mpr ⟨v, hv, hw⟩
  constructor
  · intro hx v hv hm
    -- the piece of a cut area that lies in the range shows what its offsets were moved from
    have hcut : ¬(v.addr ≥ start ∧ v.end_ ≤ start + len) → start = v.addr := by
      intro hno
      have hmem := hpiece hv ((mem_protectVma_cut hm hno).mpr (.inr (.inl rfl)))
      have hhas : (protectMiddle start (start + len) (flagsInt (getMmapperms arch prot)) prot start v).Has
          (max v.addr start) := by
        unfold Vma.Has
        rw [middle_addr, middle_end]
        have := hm.1
        have := hm.2
        omega
      obtain ⟨v', hv', ha', hoff, -⟩ := hx.backing _ hmem _ hhas
      have hva := (protectVma_has (hs.2 v hv) hlt).mp
        ⟨_, (mem_protectVma_cut hm hno).mpr (.inr (.inl rfl)), hhas⟩
      obtain rfl := hs.unique hv hv' hva ha'
      have hb : start < 2 ^ 64 := hm.1.trans (hs.2 v hv).lt
      exact (middle_offset (hs.2 v hv) hb hhas).mp hoff
    refine ⟨?_, fun hend => (hcut fun hno => absurd hend (not_lt.mpr hno.2)).symm⟩
    by_contra hlo
    exact hlo (hcut fun hno => hlo hno.1).le
  · intro hx
    refine ⟨fun a => ?_, ?_, ?_, ?_, ?_, hin, hout⟩
    · unfold Vma.Covers
      rw [hvmas]
      constructor
      · rintro ⟨w, hw, ha⟩
        obtain ⟨v, hv, hw⟩ := List.mem_flatMap.mp hw
        exact ⟨v, hv, (protectVma_has (hs.2 v hv) hlt).mp ⟨w, hw, ha⟩⟩
      · rintro ⟨v, hv, ha⟩
        obtain ⟨w, hw, hwa⟩ := (protectVma_has (hs.2 v hv) hlt).mpr ha
        exact ⟨w, List.mem_flatMap.mpr ⟨v, hv, hw⟩, hwa⟩
    · intro w hw a ha hlo hhi
      rw [hvmas] at hw
      obtain ⟨v, hv, hw⟩ := List.mem_flatMap.mp hw
      exact (protectVma_rights (hs.2 v hv) hlt hw ha).2.2.2.1 hlo hhi
    · intro w hw a ha hno
      rw [hvmas] at hw
      obtain ⟨v, hv, hw⟩ := List.mem_flatMap.mp hw
      obtain ⟨hva, -, -, -, hold⟩ := protectVma_rights (hs.2 v hv) hlt hw ha
      exact ⟨v, hv, hva, hold hno⟩
    · intro w hw a ha
      rw [hvmas] at hw
      obtain ⟨v, hv, hw⟩ := List.mem_flatMap.mp hw
      obtain ⟨hva, hfd, htype, -⟩ := protectVma_rights (hs.2 v hv) hlt hw ha
      refine ⟨v, hv, hva, protectVma_offset (hs.2 v hv) hlt hw ha fun hm hcut => ?_, hfd, htype⟩
      obtain ⟨hlo, hend⟩ := hx v hv hm
      exact (hend (hcut.resolve_left (not_lt.mpr hlo))).symm
    · rw [hvmas]
      exact hs.flatMap fun v hv => protectVma_sorted (hs.2 v hv) hlt

omit hr in
/-- Without cutting, the areas of the range must have had the protection. -/
theorem protects_heap_iff (hvmas : s'.vmas = s.vmas)
    (hin : ∀ vpn, start ≤ vpn * PGSIZE → vpn * PGSIZE < start + len →
      Reprotects arch (getMmapperms arch prot) (s.leaf vpn) (s'.leaf vpn))
    (hout : ∀ vpn, ¬(start ≤ vpn * PGSIZE ∧ vpn * PGSIZE < start + len) → s'.leaf vpn = s.leaf vpn) :
    ProtectsExactly arch start (start + len) prot s s' ↔
      ∀ v ∈ s.vmas, v.Intersects start (start + len) →
        v.perm = flagsInt (getMmapperms arch prot) ∧ v.origProt = prot := by
  constructor
  · intro hx v hv hi
    obtain ⟨ha, hlo, hhi⟩ := hi.has
    exact hx.inside v (hvmas ▸ hv) _ ha hlo hhi
  · intro hx
    refine ⟨fun a => by rw [hvmas], ?_, ?_, ?_, by rwa [hvmas], hin, hout⟩ <;> rw [hvmas]
    · exact fun w hw a ha hlo hhi => hx w hw (ha.intersects hlo hhi)
    · exact fun w hw a ha _ => ⟨w, hw, ha, rfl, rfl⟩
    · exact fun w hw a ha => ⟨w, hw, ha, rfl, rfl, rfl⟩

end Range

section Call

variable {len prot : Nat} {r : Int}

theorem sameButPages_setVmas (h : SameButPages s s') : SameButPages s (s'.setVmas vs) ↔ vs = s.vmas := by
  obtain ⟨hmm, hkern⟩ := h
  constructor
  · intro hx
    exact congrArg Mm.vmas hx.mm
  · rintro rfl
    refine ⟨?_, hkern⟩
    rw [← hmm]
    rfl

/-- An error before the loop leaves everything as it was. -/
theorem meetsItsWord_error (hr : r ≠ 0) : MeetsItsWord arch start len (toInt32 prot) r s s :=
  ⟨fun h => absurd h hr, fun _ => .refl⟩

/-- A call that came through. -/
theorem meetsItsWord_done :
    MeetsItsWord arch start len (toInt32 prot) 0 s s' ↔
      (CoveredRange start len s → ProtectsExactly arch start (start + len) (toInt32 prot) s s') :=
  ⟨fun h => h.1 rfl, fun h => ⟨fun _ => h, fun hr => absurd rfl hr⟩⟩

/-- A call that failed. -/
theorem meetsItsWord_failed (hr : r ≠ 0) :
    MeetsItsWord arch start len (toInt32 prot) r s s' ↔ SameButPages s s' :=
  ⟨fun h => h.2 hr, fun h => ⟨fun h' => absurd h' hr, fun _ => h⟩⟩

theorem starved_meets {supply : Nat → Nat} (h : Starved start end_ supply vs) :
    ∃ v ∈ vs, v.Meets start end_ := by
  rcases h with ⟨v, hv, hc, -⟩ | ⟨v, hv, hc, -⟩
  · exact ⟨v, hv, hc.1⟩
  · exact ⟨v, hv, hc.1⟩

theorem mprotect_starved_iff {t : Space} (hs : Vma.Sorted s.vmas) (hsz : s.sz ≤ start)
    (hal : start % PGSIZE = 0) (hlen : len ≠ 0) (hfile : FileOk start (add64 start len) prot s)
    (hout : protectVmas start (add64 start len) (flagsInt (getMmapperms arch (toInt32 prot)))
      (toInt32 prot) none s.vmas s = (false, l, t)) :
    MeetsItsWord arch start len (toInt32 prot) (-ENOMEM) s (t.setVmas l) ↔
      ExactProtect arch start len prot s := by
  obtain ⟨hfail, hquiet⟩ := protectVmas_failed start (add64 start len)
    (flagsInt (getMmapperms arch (toInt32 prot))) (toInt32 prot) s hs
  have hsame := protectVmas_same start (add64 start len)
    (flagsInt (getMmapperms arch (toInt32 prot))) (toInt32 prot) none s.vmas s
  rw [hout] at hfail hquiet hsame
  have hstarved := hfail.mp rfl
  rw [meetsItsWord_failed (by decide), sameButPages_setVmas hsame, hquiet rfl]
  constructor
  · intro hq
    refine ⟨fun hlt => absurd hsz (not_le.mpr hlt), fun _ hr _ hno => ?_, fun _ _ _ _ _ => hq⟩
    rw [hr.nowrap hs] at hstarved
    exact absurd hstarved hno
  · intro hx
    exact hx.pages hsz hal hlen hfile hstarved

theorem mprotect_done_iff {t : Space} (hs : Vma.Sorted s.vmas) (hsz : s.sz ≤ start)
    (hfile : FileOk start (add64 start len) prot s)
    (hout : protectVmas start (add64 start len) (flagsInt (getMmapperms arch (toInt32 prot)))
      (toInt32 prot) none s.vmas s = (true, l, t))
    (hloop : protectLoop arch (getMmapperms arch (toInt32 prot))
      (Vmem.pageCeil (add64 start len - start)) start (t.setVmas l) = some s') :
    MeetsItsWord arch start len (toInt32 prot) 0 s s' ↔ ExactProtect arch start len prot s := by
  obtain ⟨hfail, -⟩ := protectVmas_failed start (add64 start len)
    (flagsInt (getMmapperms arch (toInt32 prot))) (toInt32 prot) s hs
  have hsame := protectVmas_same start (add64 start len)
    (flagsInt (getMmapperms arch (toInt32 prot))) (toInt32 prot) none s.vmas s
  have hl := protectVmas_done (congrArg Prod.fst hout)
  rw [hout] at hfail hsame hl
  have hfed : ¬Starved start (add64 start len) s.supply s.vmas := fun hst => by
    cases hfail.mpr hst
  have hleaf : t.leaf = s.leaf := congrArg Mm.leaf hsame.mm
  -- what a covered range comes to
  have hiff : CoveredRange start len s →
      (ProtectsExactly arch start (start + len) (toInt32 prot) s s' ↔
        ∀ v ∈ s.vmas, v.Meets start (start + len) →
          start ≤ v.addr ∧ (start + len < v.end_ → v.addr = start)) := by
    intro hr
    rw [hr.nowrap hs] at hloop hl
    rw [Option.getD_none, hr.firstBase hs] at hl
    obtain ⟨hs', hin, hout⟩ := protectLoop_range hr.startMod hr.lenMod hloop
    have hvmas : s'.vmas = l := by rw [hs']; rfl
    have hleaf' : (t.setVmas l).leaf = s.leaf := hleaf
    rw [hleaf'] at hin hout
    exact protects_pieces_iff hs hr (hvmas.trans hl) hin hout
  rw [meetsItsWord_done]
  constructor
  · intro hx
    exact ⟨fun hlt => absurd hsz (not_le.mpr hlt), fun _ hr _ _ => (hiff hr).mp (hx hr),
      fun _ _ _ _ hst => absurd hst hfed⟩
  · intro hx hr
    have hend := hr.nowrap hs
    rw [hend] at hfed hfile
    exact (hiff hr).mpr (hx.pieces hsz hr hfile hfed)

/-- A call below `p->sz` only writes entries. -/
theorem mprotect_heap_iff (hs : Vma.Sorted s.vmas) (hsz : start < s.sz)
    (hloop : protectLoop arch (getMmapperms arch (toInt32 prot))
      (Vmem.pageCeil (add64 start len - start)) start s = some s') :
    MeetsItsWord arch start len (toInt32 prot) 0 s s' ↔ ExactProtect arch start len prot s := by
  have hiff : CoveredRange start len s →
      (ProtectsExactly arch start (start + len) (toInt32 prot) s s' ↔
        ∀ v ∈ s.vmas, v.Intersects start (start + len) →
          v.perm = flagsInt (getMmapperms arch (toInt32 prot)) ∧ v.origProt = toInt32 prot) := by
    intro hr
    rw [hr.nowrap hs] at hloop
    obtain ⟨hs', hin, hout⟩ := protectLoop_range hr.startMod hr.lenMod hloop
    have hvmas : s'.vmas = s.vmas := by rw [hs']
    exact protects_heap_iff hs hvmas hin hout
  rw [meetsItsWord_done]
  constructor
  · intro hx
    exact ⟨fun _ hr => (hiff hr).mp (hx hr), fun hle => absurd hsz (not_lt.mpr hle),
      fun hle => absurd hsz (not_lt.mpr hle)⟩
  · intro hx hr
    exact (hiff hr).mpr (hx.heap hsz hr)

/-- A call of `sys_mprotect` meets its word if and only if it is exact. -/
theorem sysMprotect_exact_iff (hs : Vma.Sorted s.vmas)
    (h : sysMprotect arch start len prot s = some (r, s')) :
    MeetsItsWord arch start len (toInt32 prot) r s s' ↔ ExactProtect arch start len prot s := by
  rw [sysMprotect] at h
  dsimp only at h
  split at h
  · -- the start is not aligned
    rename_i hal
    cases h
    refine iff_of_true (meetsItsWord_error (by decide)) ⟨fun _ hr => absurd hr.startMod hal,
      fun _ hr => absurd hr.startMod hal, fun _ hmod => absurd hmod hal⟩
  rename_i hal
  rw [not_not] at hal
  split at h
  · rename_i hlen
    cases h
    refine iff_of_true (meetsItsWord_error (by decide)) ⟨fun _ hr => absurd hr.pos (by omega),
      fun _ hr => absurd hr.pos (by omega), fun _ _ hne => absurd hlen hne⟩
  rename_i hlen
  split at h
  · rename_i hsz
    split at h
    · -- no area
      rename_i hfind
      cases h
      have hnone : ∀ v ∈ s.vmas, ¬v.Meets start (add64 start len) := by
        intro v hv
        have := List.find?_eq_none.mp hfind v hv
        simpa [Vma.Meets] using this
      refine iff_of_true (meetsItsWord_error (by decide)) ⟨fun hlt => absurd hsz (not_le.mpr hlt),
        fun _ hr => ?_, fun _ _ _ _ hst => ?_⟩
      · obtain ⟨v, hv, ha⟩ := hr.covered start le_rfl (by have := hr.pos; omega)
        refine absurd ?_ (hnone v hv)
        rw [hr.nowrap hs]
        exact ⟨ha.2, ha.1.trans_lt (by have := hr.pos; omega)⟩
      · obtain ⟨v, hv, hm⟩ := starved_meets hst
        exact absurd hm (hnone v hv)
    · rename_i first hfind
      have hfind : s.vmas.find? (fun v => v.Meets start (add64 start len)) = some first := hfind
      split at h
      · -- the file refuses
        rename_i hfile
        cases h
        have hno : ¬FileOk start (add64 start len) prot s := by
          intro hok
          rw [hok first hfind] at hfile
          cases hfile
        refine iff_of_true (meetsItsWord_error (by decide)) ⟨fun hlt => absurd hsz (not_le.mpr hlt),
          fun _ hr hok => ?_, fun _ _ _ hok => absurd hok hno⟩
        rw [← hr.nowrap hs] at hok
        exact absurd hok hno
      · rename_i hfile
        have hok : FileOk start (add64 start len) prot s := by
          intro v hv
          rw [hfind] at hv
          cases hv
          simpa using hfile
        split at h
        · rename_i hdone
          obtain ⟨s₁, hloop, heq⟩ := Option.map_eq_some_iff.mp h
          obtain ⟨rfl, rfl⟩ := Prod.mk.inj heq
          exact mprotect_done_iff hs hsz hok (Prod.ext hdone rfl) hloop
        · rename_i hdone
          cases h
          exact mprotect_starved_iff hs hsz hal hlen hok (Prod.ext (by simpa using hdone) rfl)
  · rename_i hsz
    obtain ⟨s₁, hloop, heq⟩ := Option.map_eq_some_iff.mp h
    obtain ⟨rfl, rfl⟩ := Prod.mk.inj heq
    exact mprotect_heap_iff hs (not_le.mp hsz) hloop

/-- A file mapped from its start, in three pages. -/
def fileArea : Space := { oneArea with vmas := [{ threePages with fd := 3 }] }

theorem fileArea_sorted : Vma.Sorted fileArea.vmas := Vma.sorted_singleton ⟨by decide, by decide, by decide⟩

theorem fileArea_covered {start len : Nat} (hstart : start % PGSIZE = 0) (hlen : len % PGSIZE = 0)
    (hpos : 0 < len) (hlo : 0x10000 ≤ start) (hhi : start + len ≤ 0x13000) :
    CoveredRange start len fileArea := by
  refine ⟨hstart, hlen, hpos, fun a h₁ h₂ => ⟨_, List.mem_singleton_self _, ?_, ?_⟩⟩
  · exact hlo.trans h₁
  · exact h₂.trans_le hhi

/-- The first page is made read-only. -/
theorem sysMprotect_exact_iff_first :
    ∃ s', sysMprotect .riscv 0x10000 0x1000 1 fileArea = some (0, s') ∧
      ProtectsExactly .riscv 0x10000 0x11000 1 fileArea s' := by
  obtain ⟨r, s', h, hr⟩ : ∃ r s', sysMprotect .riscv 0x10000 0x1000 1 fileArea = some (r, s') ∧ r = 0 :=
    ⟨_, _, Option.eq_some_of_isSome (by decide), by decide⟩
  subst hr
  have hexact : ExactProtect .riscv 0x10000 0x1000 1 fileArea := by
    refine ⟨fun h => absurd h (by decide), fun _ _ _ _ => ?_, fun _ _ _ _ hst => absurd hst ?_⟩
    · simp only [fileArea, List.mem_singleton, forall_eq]
      decide
    · unfold Starved
      simp only [fileArea, List.mem_singleton, exists_eq_left]
      decide
  have hword := (sysMprotect_exact_iff fileArea_sorted h).mpr hexact
  exact ⟨s', h, hword.1 rfl (fileArea_covered (by decide) (by decide) (by decide) (by decide) (by decide))⟩

/-- The second page is made read-only, and now shows the first page of the file. -/
theorem not_meetsItsWord_second :
    ¬∀ (start len prot : Nat) (r : Int) (s s' : Space), Vma.Sorted s.vmas →
      sysMprotect .riscv start len prot s = some (r, s') →
      MeetsItsWord .riscv start len (toInt32 prot) r s s' := by
  intro hall
  obtain ⟨r, s', h, hr, hvmas⟩ : ∃ r s', sysMprotect .riscv 0x11000 0x1000 1 fileArea = some (r, s') ∧
      r = 0 ∧ s'.vmas.map (fun v => (v.addr, v.end_, v.fOff)) =
        [(0x10000, 0x11000, 0), (0x11000, 0x12000, 0), (0x12000, 0x13000, 0x2000)] :=
    ⟨_, _, Option.eq_some_of_isSome (by decide), by decide, by decide⟩
  subst hr
  have hx := (hall _ _ _ _ _ _ fileArea_sorted h).1 rfl
    (fileArea_covered (by decide) (by decide) (by decide) (by decide) (by decide))
  obtain ⟨w, hw, hw'⟩ := List.mem_map.mp (hvmas ▸ (by decide :
    (0x11000, 0x12000, 0) ∈ [(0x10000, 0x11000, 0), (0x11000, 0x12000, 0), (0x12000, 0x13000, 0x2000)]))
  obtain ⟨haddr, hend, hoff⟩ : w.addr = 0x11000 ∧ w.end_ = 0x12000 ∧ w.fOff = 0 := by
    simpa only [Prod.mk.injEq] using hw'
  obtain ⟨v, hv, -, hsame, -⟩ := hx.backing w hw 0x11000 ⟨by omega, by omega⟩
  obtain rfl : v = { threePages with fd := 3 } := List.mem_singleton.mp hv
  rw [Vma.offset, haddr, hoff] at hsame
  exact absurd hsame (by decide)

end Call

end Space

end SC7
