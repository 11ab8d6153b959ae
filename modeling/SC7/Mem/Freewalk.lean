-- SUMMARY: `freewalk`: which tables it returns to the allocator, and why on LoongArch only the root is among them.
import SC7.Mem.PageTree
import SC7.Mem.PmemCalls

/-!
# Taking a page table apart

`freewalk` goes down from the root and returns every table behind the tables that its entries lead to.
It knows such an entry by its flags: they have to be `PTE_V` alone. `walk` writes entries with the flags
of `PTE_WALK`, which are these on RISC-V, and others on LoongArch.

The recursion of the source has no bound of its own. Here it has a depth; a state that is returned for
one depth is returned for every larger one. Beside the state, the calls of `pmem_free_pages` are recorded.
-/

namespace SC7

namespace PageTable

open Pmem (SameRegion)

/-! ## The code -/

section

variable (arch : Arch)

/-- `(pte & PTE_V) && PTE_FLAGS(pte) == PTE_V`: the entry is taken for one that leads to a table. -/
def Interior (pte : Nat) : Prop := pte &&& PTE_V ≠ 0 ∧ pte &&& flagsMask arch = PTE_V

instance (pte : Nat) : Decidable (Interior arch pte) := inferInstanceAs (Decidable (_ ∧ _))

/-- The loop over these entries of the table at `pt`; other valid entries are skipped. -/
def freewalkEntries (down : Nat → Pmem → Option (List Nat × Pmem)) (pt : Nat) :
    List Nat → Pmem → Option (List Nat × Pmem)
  | [], s => some ([], s)
  | i :: is, s =>
    if Interior arch (ld s (pt + 8 * i)) then
      (down (pageOf arch (ld s (pt + 8 * i))) s).bind fun (freed, s) =>
        (freewalkEntries down pt is (st s (pt + 8 * i) 0)).map fun (rest, s) => (freed ++ rest, s)
    else freewalkEntries down pt is s

/-- `freewalk`, at most this many tables deep. -/
def freewalk : Nat → Nat → Pmem → Option (List Nat × Pmem)
  | 0, _, _ => none
  | depth + 1, pt, s =>
    (freewalkEntries arch (freewalk depth) pt (List.range 512) s).bind fun (freed, s) =>
      (s.pmemFreePages pt 1).map fun s => (freed ++ [pt], s)

end

variable {arch : Arch} {s s' : Pmem} {live : List Block} {root va n t q depth : Nat}

/-! ## What is returned -/

section Below

variable {rd : Nat → Nat} {fs fs' ws ws' : List Nat} {x i : Nat} {live' : List Block}

/-- The tables that `freewalk` finds below and at a table, in the order in which it returns them. -/
def below (arch : Arch) (rd : Nat → Nat) : Nat → Nat → List Nat
  | 0, _ => []
  | depth + 1, pt =>
    ((List.range 512).flatMap fun i =>
      if Interior arch (rd (pt + 8 * i)) then below arch rd depth (pageOf arch (rd (pt + 8 * i))) else []) ++ [pt]

/-- No way down is longer than `depth`. -/
def Closed (arch : Arch) (rd : Nat → Nat) : Nat → Nat → Prop
  | 0, _ => False
  | depth + 1, pt => ∀ i < 512, Interior arch (rd (pt + 8 * i)) → Closed arch rd depth (pageOf arch (rd (pt + 8 * i)))

/-- `a` is the address of one page that the allocator has handed out on its own. -/
def OwnPage (s : Pmem) (live : List Block) (a : Nat) : Prop := ∃ q, a = s.pageAddr q ∧ (⟨q, 0⟩ : Block) ∈ live

/-- The word lies in one of these pages. -/
def InPages (fs : List Nat) (x : Nat) : Prop := ∃ f ∈ fs, f ≤ x ∧ x < f + PGSIZE

/-- From `s` to `s'` just the pages `fs` were returned, and words were written in the pages `ws` only. -/
structure Returned (s : Pmem) (live : List Block) (fs ws : List Nat) (s' : Pmem) (live' : List Block) : Prop where
  wf : s'.Wf live'
  same : SameRegion s s'
  live_iff : ∀ b, b ∈ live' ↔ b ∈ live ∧ s.pageAddr b.page ∉ fs
  ld_eq : ∀ x, x % 8 = 0 → ¬InPages ws x → ld s' x = ld s x

theorem InPages.mono (hsub : fs ⊆ fs') (h : InPages fs x) : InPages fs' x := by
  obtain ⟨f, hf, hin⟩ := h
  exact ⟨f, hsub hf, hin⟩

theorem Returned.refl (h : s.Wf live) : Returned s live [] [] s live :=
  ⟨h, SameRegion.refl s, fun b => by simp, fun _ _ _ => rfl⟩

theorem Returned.trans {s'' : Pmem} {live'' : List Block}
    (h : Returned s live fs ws s' live') (h' : Returned s' live' fs' ws' s'' live'') :
    Returned s live (fs ++ fs') (ws ++ ws') s'' live'' where
  wf := h'.wf
  same := h.same.trans h'.same
  live_iff := by
    intro b
    rw [h'.live_iff, h.live_iff, h.same.pageAddr, List.mem_append, not_or, and_assoc]
  ld_eq := by
    intro x hx hout
    rw [h'.ld_eq x hx fun hin => hout (hin.mono (List.subset_append_right _ _))]
    exact h.ld_eq x hx fun hin => hout (hin.mono (List.subset_append_left _ _))

theorem Returned.mono (h : Returned s live fs ws s' live') (hsub : ws ⊆ ws') : Returned s live fs ws' s' live' :=
  ⟨h.wf, h.same, h.live_iff, fun x hx hout => h.ld_eq x hx fun hin => hout (hin.mono hsub)⟩

/-- `pmem_free_pages(pt, 1)` of a page that was handed out on its own. -/
theorem returned_one (h : s.Wf live) (hown : OwnPage s live t) :
    ∃ s' live', s.pmemFreePages t 1 = some s' ∧ Returned s live [t] [] s' live' := by
  obtain ⟨q, rfl, hb⟩ := hown
  have hq : q ∈ (⟨q, 0⟩ : Block) := Block.page_mem _
  obtain ⟨s', hcall, hwf, hsame, hmem⟩ := h.pmemFreePages hb hq (n := 1) Int.one_pos (le_refl _)
  refine ⟨s', live.erase ⟨q, 0⟩, hcall, hwf, hsame, fun b => ?_, fun x _ _ => ?_⟩
  · rw [h.nodup.mem_erase_iff, List.mem_singleton]
    constructor
    · rintro ⟨hne, hb'⟩
      refine ⟨hb', fun heq => hne ?_⟩
      have hpage : b.page = q := Pmem.pageAddr_inj heq
      exact h.eq_of_mem hb' hb (hpage ▸ b.page_mem) hq
    · rintro ⟨hb', hne⟩
      refine ⟨?_, hb'⟩
      rintro rfl
      exact hne rfl
  · unfold ld
    rw [hmem]

theorem OwnPage.kept (h : OwnPage s live t)
    (hret : Returned s live fs ws s' live') (hnot : t ∉ fs) : OwnPage s' live' t := by
  obtain ⟨q, rfl, hb⟩ := h
  exact ⟨q, (hret.same.pageAddr q).symm, (hret.live_iff _).mpr ⟨hb, hnot⟩⟩

theorem OwnPage.aligned (h : OwnPage s live t) (hwf : s.Wf live) : t % PGSIZE = 0 := by
  obtain ⟨q, rfl, -⟩ := h
  exact pageAddr_mod hwf.region q

/-- Pages that share a word are one page. -/
theorem eq_of_mem_pages {f f' : Nat} (hf : f % PGSIZE = 0) (hf' : f' % PGSIZE = 0) (hx : f ≤ x ∧ x < f + PGSIZE)
    (hx' : f' ≤ x ∧ x < f' + PGSIZE) : f = f' := by
  simp only [PGSIZE] at *
  omega

/-- The entries of a table lie in its page. -/
theorem entry_mem (hi : i < 512) : t ≤ t + 8 * i ∧ t + 8 * i < t + PGSIZE := by
  simp only [PGSIZE]
  omega

/-- Clearing an entry. -/
theorem returned_clear (h : s.Wf live) (ht : t % PGSIZE = 0) (hi : i < 512) :
    Returned s live [] [t] (st s (t + 8 * i) 0) live := by
  refine ⟨h.setMem _, ⟨rfl, rfl, rfl⟩, fun b => by simp, fun x hx hout => ?_⟩
  apply ld_st_of_ne 0 _ hx
  · rintro rfl
    exact hout ⟨t, List.mem_singleton_self t, entry_mem hi⟩
  · simp only [PGSIZE] at ht
    omega

/-- The tables that are found behind entry `i`. -/
def behind (arch : Arch) (rd : Nat → Nat) (depth pt i : Nat) : List Nat :=
  if Interior arch (rd (pt + 8 * i)) then below arch rd depth (pageOf arch (rd (pt + 8 * i))) else []

theorem below_succ (arch : Arch) (rd : Nat → Nat) (depth pt : Nat) :
    below arch rd (depth + 1) pt = (List.range 512).flatMap (behind arch rd depth pt) ++ [pt] := rfl

/-- What `freewalk` needs to return these tables: they are pages of their own, and their words are as `rd` says. -/
structure Ready (rd : Nat → Nat) (s : Pmem) (live : List Block) (fs : List Nat) : Prop where
  wf : s.Wf live
  nodup : fs.Nodup
  own : ∀ f ∈ fs, OwnPage s live f
  ld_eq : ∀ x, x % 8 = 0 → InPages fs x → ld s x = rd x

theorem Ready.subset (h : Ready rd s live fs) (hsub : fs' ⊆ fs) (hnd : fs'.Nodup) : Ready rd s live fs' :=
  ⟨h.wf, hnd, fun f hf => h.own f (hsub hf), fun x hx hin => h.ld_eq x hx (hin.mono hsub)⟩

/-- Returning other pages makes no difference. -/
theorem Ready.kept {gs : List Nat} (h : Ready rd s live fs)
    (hret : Returned s live gs ws s' live') (hgs : ∀ f ∈ fs, f ∉ gs) (hws : ∀ f ∈ fs, f ∉ ws)
    (hal : ∀ w ∈ ws, w % PGSIZE = 0) : Ready rd s' live' fs where
  wf := hret.wf
  nodup := h.nodup
  own f hf := (h.own f hf).kept hret (hgs f hf)
  ld_eq := by
    rintro x hx ⟨f, hf, hin⟩
    rw [hret.ld_eq x hx]
    · exact h.ld_eq x hx ⟨f, hf, hin⟩
    · rintro ⟨w, hw, hin'⟩
      have heq := eq_of_mem_pages ((h.own f hf).aligned h.wf) (hal w hw) hin hin'
      exact hws f hf (heq ▸ hw)

/-- The loop over the entries `is`, of which the tables behind are ready to be returned. -/
theorem freewalkEntries_returns {is : List Nat}
    (hdown : ∀ {t s live}, Closed arch rd depth t → Ready rd s live (below arch rd depth t) →
      ∃ s' live', freewalk arch depth t s = some (below arch rd depth t, s') ∧
        Returned s live (below arch rd depth t) (below arch rd depth t) s' live')
    (his : ∀ i ∈ is, i < 512) (hnodup : is.Nodup)
    (hclosed : ∀ i < 512, Interior arch (rd (t + 8 * i)) → Closed arch rd depth (pageOf arch (rd (t + 8 * i))))
    (hready : Ready rd s live (is.flatMap (behind arch rd depth t))) (hself : OwnPage s live t)
    (hnot : t ∉ is.flatMap (behind arch rd depth t)) (hentries : ∀ i ∈ is, ld s (t + 8 * i) = rd (t + 8 * i)) :
    ∃ s' live', freewalkEntries arch (freewalk arch depth) t is s =
        some (is.flatMap (behind arch rd depth t), s') ∧
      Returned s live (is.flatMap (behind arch rd depth t)) (is.flatMap (behind arch rd depth t) ++ [t]) s' live' := by
  induction is generalizing s live with
  | nil => exact ⟨s, live, rfl, (Returned.refl hready.wf).mono (List.nil_subset _)⟩
  | cons i is ih =>
    obtain ⟨hi, hnodup⟩ := List.nodup_cons.mp hnodup
    have hi512 := his i List.mem_cons_self
    have hal := hself.aligned hready.wf
    have hnd := hready.nodup
    rw [List.flatMap_cons] at hready hnd hnot ⊢
    obtain ⟨hndi, hndis, hdisj⟩ := List.nodup_append.mp hnd
    rw [List.mem_append, not_or] at hnot
    unfold freewalkEntries
    rw [hentries i List.mem_cons_self]
    by_cases hint : Interior arch (rd (t + 8 * i))
    · have hbehind : behind arch rd depth t i = below arch rd depth (pageOf arch (rd (t + 8 * i))) := if_pos hint
      rw [if_pos hint]
      rw [hbehind] at hready hnot hdisj hndi ⊢
      obtain ⟨s₁, live₁, hrun, hret₁⟩ :=
        hdown (hclosed i hi512 hint) (hready.subset (List.subset_append_left _ _) hndi)
      have hret₂ := hret₁.trans (returned_clear hret₁.wf hal hi512)
      rw [List.append_nil] at hret₂
      have hrest : Ready rd (st s₁ (t + 8 * i) 0) live₁ (is.flatMap (behind arch rd depth t)) := by
        refine (hready.subset (List.subset_append_right _ _) hndis).kept hret₂ ?_ ?_ ?_
        · exact fun f hf hf' => hdisj f hf' f hf rfl
        · intro f hf hf'
          rcases List.mem_append.mp hf' with hf' | hf'
          · exact hdisj f hf' f hf rfl
          · exact hnot.2 (List.mem_singleton.mp hf' ▸ hf)
        · intro w hw
          rcases List.mem_append.mp hw with hw | hw
          · exact (hready.own w (List.mem_append_left _ hw)).aligned hready.wf
          · exact List.mem_singleton.mp hw ▸ hal
      have hself₂ : OwnPage (st s₁ (t + 8 * i) 0) live₁ t := hself.kept hret₂ hnot.1
      have hentries₂ : ∀ j ∈ is, ld (st s₁ (t + 8 * i) 0) (t + 8 * j) = rd (t + 8 * j) := by
        intro j hj
        have hne : t + 8 * j ≠ t + 8 * i := by
          intro heq
          have : j = i := by omega
          exact hi (this ▸ hj)
        have hmod : ∀ k, (t + 8 * k) % 8 = 0 := by
          intro k
          simp only [PGSIZE] at hal
          omega
        rw [ld_st_of_ne 0 (hmod i) (hmod j) hne, hret₁.ld_eq _ (hmod j), hentries j (List.mem_cons_of_mem i hj)]
        rintro ⟨f, hf, hin⟩
        have heq := eq_of_mem_pages ((hready.own f (List.mem_append_left _ hf)).aligned hready.wf) hal hin
          (entry_mem (his j (List.mem_cons_of_mem i hj)))
        exact hnot.1 (heq ▸ hf)
      obtain ⟨s', live', hrun', hret'⟩ :=
        ih (fun j hj => his j (List.mem_cons_of_mem i hj)) hnodup hrest hself₂ hnot.2 hentries₂
      refine ⟨s', live', ?_, (hret₂.trans hret').mono ?_⟩
      · rw [hrun, Option.bind_some]
        simp only
        rw [hrun', Option.map_some]
      · intro w hw
        simp only [List.mem_append, List.mem_singleton] at hw ⊢
        tauto
    · have hbehind : behind arch rd depth t i = [] := if_neg hint
      rw [if_neg hint]
      rw [hbehind, List.nil_append] at hready ⊢
      exact ih (fun j hj => his j (List.mem_cons_of_mem i hj)) hnodup hready hself hnot.2
        fun j hj => hentries j (List.mem_cons_of_mem i hj)

/-- `freewalk` returns the tables that it finds, once each. -/
theorem freewalk_returns (hclosed : Closed arch rd depth t) (hready : Ready rd s live (below arch rd depth t)) :
    ∃ s' live', freewalk arch depth t s = some (below arch rd depth t, s') ∧
      Returned s live (below arch rd depth t) (below arch rd depth t) s' live' := by
  induction depth generalizing t s live with
  | zero => exact hclosed.elim
  | succ depth ih =>
    rw [below_succ] at hready ⊢
    obtain ⟨hnd, -, hdisj⟩ := List.nodup_append.mp hready.nodup
    have hnot : t ∉ (List.range 512).flatMap (behind arch rd depth t) :=
      fun hmem => hdisj t hmem t (List.mem_singleton_self t) rfl
    have hself := hready.own t (List.mem_append_right _ (List.mem_singleton_self t))
    have hal := hself.aligned hready.wf
    have hentries : ∀ i ∈ List.range 512, ld s (t + 8 * i) = rd (t + 8 * i) := by
      intro i hi
      apply hready.ld_eq
      · simp only [PGSIZE] at hal
        omega
      · exact ⟨t, List.mem_append_right _ (List.mem_singleton_self t), entry_mem (List.mem_range.mp hi)⟩
    obtain ⟨s₁, live₁, hrun, hret⟩ := freewalkEntries_returns ih (fun i hi => List.mem_range.mp hi) List.nodup_range
      hclosed (hready.subset (List.subset_append_left _ _) hnd) hself hnot hentries
    obtain ⟨s', live', hcall, hone⟩ := returned_one hret.wf (hself.kept hret hnot)
    refine ⟨s', live', ?_, (hret.trans hone).mono (by simp)⟩
    unfold freewalk
    rw [hrun, Option.bind_some]
    simp only
    rw [hcall, Option.map_some]

end Below

/-! ## Page tables that were built -/

section Built

/-- A table of the page table at `root`, the root included. -/
def IsTable (arch : Arch) (s : Pmem) (root t : Nat) : Prop :=
  ∃ va n, n < PT_LEVEL arch ∧ table arch s root va n = some t

/-- What happens between `uvmcreate` and `freewalk`: to this page table, and elsewhere in memory. -/
inductive Step (arch : Arch) (root : Nat) : Pmem → Pmem → Prop
  | walk {s s' va pte} : walk arch root va true s = some (pte, s') → Step arch root s s'
  | mappages {s s' va pa len perm result} :
      mappages arch root va pa len perm s = some (.returned result s') → Step arch root s s'
  | unmap {s va pte} : PageTable.walk arch root va false s = some (pte, s) → pte ≠ NULL →
      Step arch root s (st s pte 0)
  | alloc {s s' n ptr} : s.AllocSafe n → s.pmemAllocPages n = some (ptr, s') → Step arch root s s'
  | free {s s' ptr n} : (∀ t, IsTable arch s root t → ¬(t ≤ ptr ∧ ptr < t + PGSIZE)) →
      s.pmemFreePages ptr n = some s' → Step arch root s s'
  | store {s mem} : (∀ t, IsTable arch s root t → ∀ x, t ≤ x → x < t + PGSIZE → mem x = s.mem x) →
      Step arch root s { s with mem }

/-- What `walk` and `mappages` make of the tables: each is a page of its own, an entry is empty or leads to a
table, and tables lie on the way to user addresses only. -/
structure Neat (arch : Arch) (s : Pmem) (live : List Block) (root : Nat) : Prop where
  own : ∀ {va n t}, n < PT_LEVEL arch → table arch s root va n = some t → OwnPage s live t
  entries : ∀ {va n t}, n + 1 < PT_LEVEL arch → table arch s root va n = some t →
    ld s (t + (shape arch).offset n va) = 0 ∨
      ∃ u, ld s (t + (shape arch).offset n va) = tableEntry arch u ∧ child arch (tableEntry arch u) = some u
  user : ∀ {va n t}, 0 < n → n < PT_LEVEL arch → table arch s root va n = some t →
    ∃ va' < MAXVA arch, Radix.Same (shape arch) n va va'

/-- Where the tables keep their words and their pages, nothing changes. -/
theorem Tree.frame {live' : List Block} (h : Tree arch s live root) (hneat : Neat arch s live root) (hwf : s'.Wf live')
    (hsame : SameRegion s s') (hlive : ∀ {q}, IsTable arch s root (s.pageAddr q) → (⟨q, 0⟩ : Block) ∈ live → ⟨q, 0⟩ ∈ live')
    (hld : ∀ {t}, IsTable arch s root t → ∀ x, x % 8 = 0 → t ≤ x → x < t + PGSIZE → ld s' x = ld s x) :
    Tree arch s' live' root ∧ Neat arch s' live' root ∧
      ∀ va, Radix.leaf (shape arch) (ld s') root va = Radix.leaf (shape arch) (ld s) root va := by
  have hword : ∀ {va n t}, n < PT_LEVEL arch → table arch s root va n = some t →
      ld s' (t + (shape arch).offset n va) = ld s (t + (shape arch).offset n va) := by
    intro va n t hn ht
    have hoff := (shape arch).offset_lt n va
    exact hld ⟨va, n, hn, ht⟩ _ (h.slot_page hn ht).2 (Nat.le_add_right _ _) (Nat.add_lt_add_left hoff t)
  obtain ⟨hwf', htable, hleaf⟩ := h.wf.congr hword
  have hown : ∀ {va n t}, n < PT_LEVEL arch → table arch s root va n = some t → OwnPage s' live' t := by
    intro va n t hn ht
    obtain ⟨q, rfl, hb⟩ := hneat.own hn ht
    exact ⟨q, (hsame.pageAddr q).symm, hlive ⟨va, n, hn, ht⟩ hb⟩
  refine ⟨⟨hwf, h.window.congr hsame, hwf', fun hn ht => ?_⟩, ⟨fun hn ht => ?_, fun hn ht => ?_, fun hpos hn ht => ?_⟩, hleaf⟩
  · rw [table, htable _ _ hn] at ht
    obtain ⟨q, hq, hb⟩ := hown hn ht
    exact ⟨q, hq, _, hb, Block.page_mem _⟩
  · rw [table, htable _ _ hn] at ht
    exact hown hn ht
  · have hn' : _ < PT_LEVEL arch := Nat.lt_of_succ_lt hn
    rw [table, htable _ _ hn'] at ht
    rw [hword hn' ht]
    exact hneat.entries hn ht
  · rw [table, htable _ _ hn] at ht
    exact hneat.user hpos hn ht

section Kept

variable (hneat : Neat arch s live root)

include hneat

/-- Only the allocator changes. -/
theorem Neat.of_mem (h : Tree arch s live root) (hwf : s'.Wf live)
    (hsame : SameRegion s s') (hmem : s'.mem = s.mem) : Neat arch s' live root := by
  refine (h.frame hneat hwf hsame (fun _ hb => hb) fun _ x _ _ _ => ?_).2.1
  unfold ld
  rw [hmem]

/-- A fresh table is linked on the way to a user address. -/
theorem Neat.link {b : Block} {m : Pmem} (hva : va < MAXVA arch)
    (h : Tree arch s live root) (hh : Pmem.Wf.Handed s live 1 m b) (horder : b.order = 0) (hn : n + 1 < PT_LEVEL arch)
    (ht : table arch s root va n = some t) (hmissing : child arch (ld s (t + (shape arch).offset n va)) = none) :
    Neat arch (st m (t + (shape arch).offset n va) (tableEntry arch (s.pageAddr b.page))) (b :: live) root := by
  obtain ⟨hword, hlinked⟩ := h.linked hh horder hn ht hmissing
  have hb : (⟨b.page, 0⟩ : Block) ∈ b :: live := by
    rw [← horder]
    exact List.mem_cons_self
  refine ⟨fun {va' m u} hm hu => ?_, fun {va' m u} hm hu => ?_, fun {va' m u} hpos hm hu => ?_⟩
  · rcases hlinked.table_cases h.wf hm hu with ⟨rfl, -, -⟩ | hu
    · exact ⟨b.page, (hh.same.pageAddr _).symm, hb⟩
    · obtain ⟨q, rfl, hq⟩ := hneat.own hm hu
      exact ⟨q, (hh.same.pageAddr q).symm, List.mem_cons_of_mem b hq⟩
  · have hm' : m < PT_LEVEL arch := Nat.lt_of_succ_lt hm
    rcases hlinked.table_cases h.wf hm' hu with ⟨rfl, -, -⟩ | hu
    · exact .inl (hlinked.rd_fresh m va')
    · by_cases hslot : u + (shape arch).offset m va' = t + (shape arch).offset n va
      · refine .inr ⟨s.pageAddr b.page, by rw [hslot, hword], ?_⟩
        have hchild := hlinked.child_eq
        rwa [hword] at hchild
      · rw [hlinked.rest _ (h.slot_page hm' hu).2 hslot (hlinked.not_mem h.wf hm' hu)]
        exact hneat.entries hm hu
  · rcases hlinked.table_cases h.wf hm hu with ⟨-, hsame, rfl⟩ | hu
    · exact ⟨va, hva, hsame.symm⟩
    · exact hneat.user hpos hm hu

theorem Neat.writeLeaf (h : Tree arch s live root) (w : Nat)
    (ht : table arch s root va (PT_LEVEL arch - 1) = some t) :
    Tree arch (st s (t + (shape arch).offset (PT_LEVEL arch - 1) va) w) live root ∧
      Neat arch (st s (t + (shape arch).offset (PT_LEVEL arch - 1) va) w) live root := by
  have hlast : PT_LEVEL arch - 1 < PT_LEVEL arch := Nat.sub_one_lt_of_lt (shape arch).depth_pos
  have hslot := (h.slot_page hlast ht).2
  have hwritten : Radix.Wf.LeafWritten (shape arch) (ld s)
      (ld (st s (t + (shape arch).offset (PT_LEVEL arch - 1) va) w)) va t :=
    fun x hx hne => ld_st_of_ne _ hslot hx hne
  have htable : ∀ {a n}, n < PT_LEVEL arch →
      table arch (st s (t + (shape arch).offset (PT_LEVEL arch - 1) va) w) root a n = table arch s root a n :=
    fun hn => h.wf.table_leafWritten ht hwritten hn
  refine ⟨⟨h.alloc.setMem _, h.window.congr ⟨rfl, rfl, rfl⟩, h.wf.leafWritten ht hwritten, fun hn hu => ?_⟩,
    ⟨fun hn hu => ?_, fun hn hu => ?_, fun hpos hn hu => ?_⟩⟩
  · rw [htable hn] at hu
    exact h.tables hn hu
  · rw [htable hn] at hu
    exact hneat.own hn hu
  · rw [htable (Nat.lt_of_succ_lt hn)] at hu
    rw [h.wf.rd_leafWritten ht hwritten hn hu]
    exact hneat.entries hn hu
  · rw [htable hn] at hu
    exact hneat.user hpos hn hu

/-- `walk` with allocation keeps the tree; if it finds an entry, that is a leaf entry. -/
theorem Neat.walk (h : Tree arch s live root) {pte : Nat}
    (hrun : PageTable.walk arch root va true s = some (pte, s')) :
    va < MAXVA arch ∧ ∃ live', Tree arch s' live' root ∧ Neat arch s' live' root ∧
      (pte = NULL ∨ ∃ t, table arch s' root va (PT_LEVEL arch - 1) = some t ∧
        pte = t + (shape arch).offset (PT_LEVEL arch - 1) va) := by
  unfold PageTable.walk at hrun
  have hva : va < MAXVA arch := by
    by_contra hge
    rw [if_pos (Nat.not_lt.mp hge)] at hrun
    cases hrun
  have hroot : table arch s root va (PT_LEVEL arch - 1 - (PT_LEVEL arch - 1)) = some root := by
    rw [Nat.sub_self]
    rfl
  rw [if_neg (Nat.not_le.mpr hva), if_neg h.root_ne_null] at hrun
  obtain ⟨pte', s'', live', hrun', htree, hneat', -, hres⟩ := Tree.walkLevels_keeps (P := fun s live => Neat arch s live root)
    (fun h hneat hwf hsame hmem => hneat.of_mem h hwf hsame hmem)
    (fun h hneat hh horder hn ht hmissing => hneat.link hva h hh horder hn ht hmissing) h hneat
    (Nat.sub_one_lt_of_lt (shape arch).depth_pos) hroot
  rw [hrun', Option.some_inj, Prod.mk.injEq] at hrun
  obtain ⟨rfl, rfl⟩ := hrun
  exact ⟨hva, live', htree, hneat', hres⟩

theorem Neat.mappagesLoop {perm end_ rounds current pa : Nat} {result : Int} (h : Tree arch s live root)
    (hrun : PageTable.mappagesLoop arch root perm end_ rounds current pa s = some (.returned result s')) :
    ∃ live', Tree arch s' live' root ∧ Neat arch s' live' root := by
  induction rounds generalizing current pa s live with
  | zero => cases hrun
  | succ rounds ih =>
    unfold PageTable.mappagesLoop at hrun
    cases hwalk : PageTable.walk arch root current true s with
    | none =>
      rw [hwalk] at hrun
      cases hrun
    | some r =>
      obtain ⟨pte, s₁⟩ := r
      obtain ⟨-, live₁, htree, hneat₁, hres⟩ := hneat.walk h hwalk
      simp only [hwalk] at hrun
      split at hrun
      · cases hrun
      · rename_i hnull
        obtain ⟨t, ht, rfl⟩ := hres.resolve_left hnull
        split at hrun
        · cases hrun
          exact ⟨live₁, htree, hneat₁⟩
        · obtain ⟨htree₂, hneat₂⟩ := hneat₁.writeLeaf htree (PA2PTE arch pa ||| perm ||| PTE_V) ht
          split at hrun
          · cases hrun
            exact ⟨live₁, htree₂, hneat₂⟩
          · exact ih hneat₂ htree₂ hrun

end Kept

/-- A word of a page is made of bytes of the page. -/
theorem ld_page {x : Nat} (ht : t % PGSIZE = 0) (hx : x % 8 = 0) (hlo : t ≤ x) (hhi : x < t + PGSIZE)
    (h : ∀ o < PGSIZE, s'.mem (t + o) = s.mem (t + o)) : ld s' x = ld s x := by
  apply Blocks.readWord_congr
  intro i hi
  have hbyte := h (x + i - t) (by simp only [PGSIZE] at *; omega)
  rwa [show t + (x + i - t) = x + i by omega] at hbyte

/-- Every step keeps the tree. -/
theorem Step.keeps (hstep : Step arch root s s') (h : Tree arch s live root) (hneat : Neat arch s live root) :
    ∃ live', Tree arch s' live' root ∧ Neat arch s' live' root := by
  cases hstep with
  | walk hrun =>
    obtain ⟨-, live', htree, hneat', -⟩ := hneat.walk h hrun
    exact ⟨live', htree, hneat'⟩
  | mappages hrun =>
    unfold PageTable.mappages at hrun
    split at hrun
    · cases hrun
    · exact hneat.mappagesLoop h hrun
  | @unmap va pte hrun hnull =>
    have hva : va < MAXVA arch := by
      by_contra hge
      unfold PageTable.walk at hrun
      rw [if_pos (Nat.not_lt.mp hge)] at hrun
      cases hrun
    rw [h.walk_read hva, Option.some_inj, Prod.mk.injEq] at hrun
    cases ht : table arch s root va (PT_LEVEL arch - 1) with
    | none =>
      rw [ht] at hrun
      exact absurd hrun.1.symm hnull
    | some t =>
      rw [ht, Option.elim_some] at hrun
      rw [← hrun.1]
      exact ⟨live, hneat.writeLeaf h 0 ht⟩
  | @alloc _ n ptr hsafe hcall =>
    rcases h.alloc.pmemAllocPages n hsafe with ⟨m, hnull, hwf, hsame, hmem⟩ | ⟨b, m, hcall', -, hh, -⟩
    · rw [hnull, Option.some_inj, Prod.mk.injEq] at hcall
      obtain ⟨-, rfl⟩ := hcall
      exact ⟨live, (h.of_mem hwf hsame hmem).1, hneat.of_mem h hwf hsame hmem⟩
    · rw [hcall', Option.some_inj, Prod.mk.injEq] at hcall
      obtain ⟨-, rfl⟩ := hcall
      have hframe := h.frame hneat hh.wf hh.same (fun _ hb => List.mem_cons_of_mem b hb) fun {t} ht x hx hlo hhi => ?_
      · exact ⟨b :: live, hframe.1, hframe.2.1⟩
      · obtain ⟨va, n, hn, ht⟩ := ht
        obtain ⟨q, rfl, hq⟩ := hneat.own hn ht
        refine ld_page (pageAddr_mod h.alloc.region q) hx hlo hhi fun o ho => ?_
        exact hh.mem_live hq (Block.page_mem _) ho
  | @free _ ptr n hout hcall =>
    obtain ⟨m, live', hrel⟩ := h.alloc.pmemFreePages_ptr ptr n
    obtain rfl : m = s' := Option.some_inj.mp (hrel.call.symm.trans hcall)
    have hframe := h.frame hneat hrel.wf hrel.same (fun {q} ht hb => ?_) fun _ x _ _ _ => ?_
    · exact ⟨live', hframe.1, hframe.2.1⟩
    · rw [hrel.live_eq, List.mem_filter, decide_eq_true_iff]
      refine ⟨hb, fun hreleased => hout _ ht ?_⟩
      have hcontains := hreleased.1
      rw [Extent.Contains, Pmem.limit_extent] at hcontains
      simpa [Pmem.extent, Pmem.pageAddr, PGSIZE, Nat.add_mul, ← Nat.add_assoc] using hcontains
    · unfold ld
      rw [hrel.mem_eq h.alloc]
  | @store mem hout =>
    have hregion : SameRegion s { s with mem } := ⟨rfl, rfl, rfl⟩
    have hframe := h.frame hneat (h.alloc.setMem mem) hregion (fun _ hb => hb) fun {t} ht x hx hlo hhi => ?_
    · exact ⟨live, hframe.1, hframe.2.1⟩
    · have hal : t % PGSIZE = 0 := by
        obtain ⟨va, n, hn, ht⟩ := ht
        exact h.wf.aligned hn ht
      refine ld_page hal hx hlo hhi fun o ho => ?_
      exact hout t ht _ (Nat.le_add_right _ _) (Nat.add_lt_add_left ho t)

/-- A fresh page is a page table without entries. -/
theorem neat_of_handed {b : Block} (h : s.Wf live) (hh : Pmem.Wf.Handed s live 1 s' b) (horder : b.order = 0) :
    Neat arch s' (b :: live) (s'.pageAddr b.page) := by
  have hclear := ld_fresh arch h hh horder
  obtain ⟨-, hempty⟩ := Radix.wf_of_clear (R := shape arch) (pageAddr_mod hh.wf.region b.page) hclear
  have hroot : ∀ {va n t}, table arch s' (s'.pageAddr b.page) va n = some t → n = 0 ∧ t = s'.pageAddr b.page := by
    intro va n t ht
    cases n with
    | zero => exact ⟨rfl, (Option.some_inj.mp ht).symm⟩
    | succ n =>
      rw [table, (hempty va).1 n] at ht
      cases ht
  refine ⟨fun _ ht => ?_, fun {va n t} _ ht => ?_, fun hpos _ ht => ?_⟩
  · refine ⟨b.page, (hroot ht).2, ?_⟩
    rw [← horder]
    exact List.mem_cons_self
  · rw [(hroot ht).2]
    exact .inl (hclear n va)
  · exact absurd (hroot ht).1 (Nat.ne_of_gt hpos)

end Built

/-! ## The tables that are found -/

section Found

/-- The digits of a number of which the digit `l` was replaced and the lower ones cleared. -/
theorem digits_replace (a l : Nat) {i : Nat} (hi : i < 512) :
    (a * 512 ^ (l + 1) + i * 512 ^ l) / 512 ^ l = a * 512 + i ∧
      ∀ j, (a * 512 ^ (l + 1) + i * 512 ^ l) / 512 ^ (l + 1 + j) = a / 512 ^ j := by
  have hfactor : a * 512 ^ (l + 1) + i * 512 ^ l = (a * 512 + i) * 512 ^ l := by
    rw [Nat.pow_succ]
    ring
  have hlow : (a * 512 ^ (l + 1) + i * 512 ^ l) / 512 ^ l = a * 512 + i := by
    rw [hfactor, Nat.mul_div_cancel _ (Nat.pow_pos (by decide))]
  refine ⟨hlow, fun j => ?_⟩
  generalize a * 512 ^ (l + 1) + i * 512 ^ l = x at hlow ⊢
  have hmid : x / 512 ^ (l + 1) = a := by
    rw [Nat.pow_succ, ← Nat.div_div_eq_div_mul, hlow]
    omega
  rw [Nat.pow_add, ← Nat.div_div_eq_div_mul, hmid]

/-- A key on the same way that selects a given entry. -/
theorem exists_key (hn : n < PT_LEVEL arch) (va : Nat) {i : Nat} (hi : i < 512) :
    ∃ va', Radix.Same (shape arch) n va va' ∧ (shape arch).offset n va' = 8 * i ∧
      (0 < n → va < MAXVA arch → va' < MAXVA arch) := by
  obtain ⟨l, hl⟩ : ∃ l, PT_LEVEL arch - 1 - n = l := ⟨_, rfl⟩
  obtain ⟨hdigit, hhigh⟩ := digits_replace (va / PGSIZE / 512 ^ (l + 1)) l hi
  have hpage : ∀ p : Nat, p * PGSIZE / PGSIZE = p := fun p => Nat.mul_div_cancel p (by decide)
  refine ⟨(va / PGSIZE / 512 ^ (l + 1) * 512 ^ (l + 1) + i * 512 ^ l) * PGSIZE, fun m hm => ?_, ?_, fun hpos hva => ?_⟩
  · obtain ⟨j, hj⟩ : ∃ j, PT_LEVEL arch - 1 - m = l + 1 + j := ⟨PT_LEVEL arch - 1 - m - (l + 1), by omega⟩
    simp only [shape, PX_eq, hj, hpage, hhigh]
    rw [Nat.pow_add, ← Nat.div_div_eq_div_mul]
  · simp only [shape, PX_eq, hl, hpage, hdigit]
    omega
  · -- the limit is a multiple of the reach of one entry above
    obtain ⟨k, hk⟩ : ∃ k, MAXVA arch = 512 ^ (l + 1) * k * PGSIZE := by
      have hle : l + 1 ≤ PT_LEVEL arch - 1 := by omega
      obtain ⟨d, hd⟩ := Nat.pow_dvd_pow 512 hle
      obtain ⟨c, hc⟩ : ∃ c, MAXVA arch = 512 ^ (PT_LEVEL arch - 1) * c * PGSIZE := by
        cases arch with
        | riscv => exact ⟨2 ^ 8, by decide⟩
        | loongarch => exact ⟨2 ^ 7, by decide⟩
      exact ⟨d * c, by rw [hc, hd, Nat.mul_assoc (512 ^ (l + 1))]⟩
    have hlt : va / PGSIZE / 512 ^ (l + 1) < k := by
      apply Nat.div_lt_of_lt_mul
      apply Nat.div_lt_of_lt_mul
      rw [Nat.mul_comm PGSIZE]
      exact hk ▸ hva
    have hdig : i * 512 ^ l < 512 ^ (l + 1) := by
      rw [Nat.pow_succ, Nat.mul_comm]
      exact Nat.mul_lt_mul_of_pos_left hi (Nat.pow_pos (by decide))
    have hsum : (va / PGSIZE / 512 ^ (l + 1) + 1) * 512 ^ (l + 1) ≤ k * 512 ^ (l + 1) := Nat.mul_le_mul_right _ hlt
    rw [hk, Nat.mul_comm (512 ^ (l + 1)) k]
    refine Nat.mul_lt_mul_of_pos_right ?_ (by decide)
    rw [Nat.add_mul, Nat.one_mul] at hsum
    omega

/-- On RISC-V the entry that `walk` writes for a table has no flag but `PTE_V`. -/
theorem interior_riscv (u : Nat) : Interior .riscv (tableEntry .riscv u) := by
  have hentry : tableEntry .riscv u = u >>> 12 * 2 ^ 10 + 1 := by
    have hor := Nat.shiftLeft_add_eq_or_of_lt (i := 10) (b := 1) (by decide) (u >>> 12)
    rw [Nat.shiftLeft_eq] at hor
    simp only [tableEntry, PA2PTE, PTE_WALK, dmwin_win0, PTE_V, Nat.or_zero, Nat.shiftLeft_eq, ← hor]
  have hmask : flagsMask .riscv = 2 ^ 10 - 1 := rfl
  unfold Interior
  rw [hentry, hmask, Nat.and_two_pow_sub_one_eq_mod, PTE_V, Nat.and_one_is_mod]
  omega

/-- On LoongArch it has others. -/
theorem not_interior_loongarch (u : Nat) : ¬Interior .loongarch (tableEntry .loongarch u) := by
  rintro ⟨-, hflags⟩
  have hbit : (tableEntry .loongarch u &&& flagsMask .loongarch).testBit 1 = true := by
    have hwalk : (PTE_WALK .loongarch).testBit 1 = true := by decide
    have hmask : (flagsMask .loongarch).testBit 1 = true := by decide
    rw [tableEntry, Nat.testBit_and, Nat.testBit_or, Nat.testBit_or, hwalk, hmask, Bool.or_true, Bool.true_or]
    rfl
  rw [hflags] at hbit
  exact absurd hbit (by decide)

theorem not_interior_of_invalid {w : Nat} (h : w &&& PTE_V = 0) : ¬Interior arch w := fun hint => hint.1 h

/-- `PTE_V` of every leaf is clear. -/
def Unmapped (arch : Arch) (root : Nat) (s : Pmem) : Prop := ∀ va < MAXVA arch, readLeaf arch root va s &&& PTE_V = 0

/-- Then no entry of a table of the last level is valid. -/
theorem Neat.last_invalid (hneat : Neat arch s live root) (h : Tree arch s live root) (hun : Unmapped arch root s)
    (ht : table arch s root va (PT_LEVEL arch - 1) = some t) {i : Nat} (hi : i < 512) :
    ld s (t + 8 * i) &&& PTE_V = 0 := by
  have hpos : 0 < PT_LEVEL arch - 1 := by cases arch <;> decide
  have hlast : PT_LEVEL arch - 1 < PT_LEVEL arch := Nat.sub_one_lt_of_lt (shape arch).depth_pos
  obtain ⟨va₁, hva₁, hsame₁⟩ := hneat.user hpos hlast ht
  obtain ⟨va₂, hsame₂, hoff, hva₂⟩ := exists_key hlast va₁ hi
  have hunmapped := hun va₂ (hva₂ hpos hva₁)
  have htable : table arch s root va₂ (PT_LEVEL arch - 1) = some t := by
    rw [table, ← Radix.table_same (hsame₁.trans hsame₂)]
    exact ht
  rw [h.readLeaf_eq (hva₂ hpos hva₁)] at hunmapped
  have hleaf : Radix.leaf (shape arch) (ld s) root va₂ = ld s (t + 8 * i) := by
    have helim : Radix.leaf (shape arch) (ld s) root va₂ = (table arch s root va₂ (PT_LEVEL arch - 1)).elim 0
        fun t => ld s (t + (shape arch).offset (PT_LEVEL arch - 1) va₂) := rfl
    rw [helim, htable, Option.elim_some, hoff]
  rwa [hleaf] at hunmapped

/-- The tables behind the entries of a table of the RISC-V tree. -/
structure BelowSpec (s : Pmem) (root n va : Nat) (fs : List Nat) : Prop where
  nodup : fs.Nodup
  mem_iff : ∀ u, u ∈ fs ↔ ∃ va' m, n ≤ m ∧ m < PT_LEVEL .riscv ∧ Radix.Same (shape .riscv) n va va' ∧
    table .riscv s root va' m = some u

/-- What `freewalk` finds behind one entry. -/
theorem Neat.behind_spec (hneat : Neat .riscv s live root) (h : Tree .riscv s live root) (hun : Unmapped .riscv root s)
    (hd : n + 1 + depth = PT_LEVEL .riscv)
    (ih : ∀ {va t}, 0 < depth → table .riscv s root va (n + 1) = some t →
      Closed .riscv (ld s) depth t ∧ BelowSpec s root (n + 1) va (below .riscv (ld s) depth t))
    (ht : table .riscv s root va n = some t) {i : Nat} (hi : i < 512) :
    ∃ va', Radix.Same (shape .riscv) n va va' ∧ (shape .riscv).offset n va' = 8 * i ∧
      (Interior .riscv (ld s (t + 8 * i)) → Closed .riscv (ld s) depth (pageOf .riscv (ld s (t + 8 * i)))) ∧
      BelowSpec s root (n + 1) va' (behind .riscv (ld s) depth t i) := by
  have hn : n < PT_LEVEL .riscv := by omega
  obtain ⟨va', hsame, hoff, -⟩ := exists_key hn va hi
  have ht' : table .riscv s root va' n = some t := by
    rw [table, ← Radix.table_same hsame]
    exact ht
  have hnext : table .riscv s root va' (n + 1) = child .riscv (ld s (t + 8 * i)) := by
    rw [← hoff]
    exact congrArg (Option.bind · _) ht'
  have hnothing : ¬Interior .riscv (ld s (t + 8 * i)) → (n + 1 < PT_LEVEL .riscv → child .riscv (ld s (t + 8 * i)) = none) →
      BelowSpec s root (n + 1) va' (behind .riscv (ld s) depth t i) := by
    intro hint hnone
    have hbehind : behind .riscv (ld s) depth t i = [] := if_neg hint
    rw [hbehind]
    refine ⟨List.nodup_nil, fun u => ⟨fun hu => absurd hu List.not_mem_nil, ?_⟩⟩
    rintro ⟨va'', m, hle, hm, hsame', htab⟩
    have hmissing : table .riscv s root va'' (n + 1) = none := by
      rw [table, ← Radix.table_same hsame']
      exact hnext.trans (hnone (by omega))
    rw [table, Radix.table_none_of_le hmissing hle] at htab
    cases htab
  refine ⟨va', hsame, hoff, ?_⟩
  by_cases hlast : depth = 0
  · -- a table of the last level
    have hn : n = PT_LEVEL .riscv - 1 := by omega
    subst hn
    have hint : ¬Interior .riscv (ld s (t + 8 * i)) := not_interior_of_invalid (hneat.last_invalid h hun ht hi)
    exact ⟨fun h => absurd h hint, hnothing hint fun hlt => by omega⟩
  · have hword := hneat.entries (by omega) ht'
    rw [hoff] at hword
    rcases hword with hzero | ⟨u, hentry, hchild⟩
    · have hint : ¬Interior .riscv (ld s (t + 8 * i)) := by
        rw [hzero]
        exact not_interior_of_invalid rfl
      refine ⟨fun h => absurd h hint, hnothing hint fun _ => ?_⟩
      rw [hzero]
      exact (shape .riscv).child_zero
    · have hint : Interior .riscv (ld s (t + 8 * i)) := hentry ▸ interior_riscv u
      have hpage : pageOf .riscv (ld s (t + 8 * i)) = u := by
        unfold child at hchild
        split at hchild
        · rw [hentry]
          exact Option.some_inj.mp hchild
        · cases hchild
      have hbehind : behind .riscv (ld s) depth t i = below .riscv (ld s) depth (pageOf .riscv (ld s (t + 8 * i))) :=
        if_pos hint
      rw [hentry, hchild] at hnext
      obtain ⟨hclosed, hspec⟩ := ih (Nat.pos_of_ne_zero hlast) hnext
      rw [hbehind, hpage]
      exact ⟨fun _ => hclosed, hspec⟩

/-- On RISC-V `freewalk` finds exactly the tables below and at a table, each once. -/
theorem Neat.below_spec (hneat : Neat .riscv s live root) (h : Tree .riscv s live root) (hun : Unmapped .riscv root s)
    (hd : n + depth = PT_LEVEL .riscv) (hpos : 0 < depth) (ht : table .riscv s root va n = some t) :
    Closed .riscv (ld s) depth t ∧ BelowSpec s root n va (below .riscv (ld s) depth t) := by
  induction depth generalizing n va t with
  | zero => exact absurd hpos (Nat.lt_irrefl 0)
  | succ depth ih =>
    have hn : n < PT_LEVEL .riscv := by omega
    have hentry := fun (i : Nat) (hi : i < 512) =>
      hneat.behind_spec h hun (by omega) (fun hpos ht => ih (by omega) hpos ht) ht hi
    have hself : t ∉ (List.range 512).flatMap (behind .riscv (ld s) depth t) := by
      intro hmem
      obtain ⟨i, hi, hbehind⟩ := List.mem_flatMap.mp hmem
      obtain ⟨va', -, -, -, hspec⟩ := hentry i (List.mem_range.mp hi)
      obtain ⟨va'', m, hle, hm, -, htab⟩ := (hspec.mem_iff t).mp hbehind
      have hlevel := (h.wf.distinct hn hm ht htab).1
      omega
    refine ⟨fun i hi => ?_, ⟨?_, fun u => ⟨fun hu => ?_, ?_⟩⟩⟩
    · obtain ⟨-, -, -, hclosed, -⟩ := hentry i hi
      exact hclosed
    · rw [below_succ, List.nodup_append]
      refine ⟨List.nodup_flatMap.mpr ⟨fun i hi => ?_, ?_⟩, List.nodup_singleton t, fun u hu v hv => ?_⟩
      · obtain ⟨_, -, -, -, hspec⟩ := hentry i (List.mem_range.mp hi)
        exact hspec.nodup
      · refine List.nodup_range.imp_of_mem fun {i j} hi hj hne => ?_
        obtain ⟨vi, -, hoffi, -, hspeci⟩ := hentry i (List.mem_range.mp hi)
        obtain ⟨vj, -, hoffj, -, hspecj⟩ := hentry j (List.mem_range.mp hj)
        intro u hui huj
        obtain ⟨vi', m, hle, hm, hsamei, htabi⟩ := (hspeci.mem_iff u).mp hui
        obtain ⟨vj', m', -, hm', hsamej, htabj⟩ := (hspecj.mem_iff u).mp huj
        obtain ⟨-, hsame⟩ := h.wf.distinct hm hm' htabi htabj
        have hi' := hsamei n (Nat.lt_succ_self n)
        have hj' := hsamej n (Nat.lt_succ_self n)
        have hij := hsame n (by omega)
        rw [hoffi] at hi'
        rw [hoffj] at hj'
        omega
      · rw [List.mem_singleton.mp hv]
        rintro rfl
        exact hself hu
    · rw [below_succ, List.mem_append] at hu
      rcases hu with hu | hu
      · obtain ⟨i, hi, hbehind⟩ := List.mem_flatMap.mp hu
        obtain ⟨va', hsame, -, -, hspec⟩ := hentry i (List.mem_range.mp hi)
        obtain ⟨va'', m, hle, hm, hsame', htab⟩ := (hspec.mem_iff u).mp hbehind
        exact ⟨va'', m, by omega, hm, hsame.trans (hsame'.mono (Nat.le_succ n)), htab⟩
      · obtain rfl := List.mem_singleton.mp hu
        exact ⟨va, n, le_refl n, hn, fun _ _ => rfl, ht⟩
    · rintro ⟨va', m, hle, hm, hsame, htab⟩
      rw [below_succ, List.mem_append]
      rcases Nat.eq_or_lt_of_le hle with rfl | hlt
      · rw [table, ← Radix.table_same hsame] at htab
        exact .inr (List.mem_singleton.mpr (Option.some_inj.mp (htab.symm.trans ht)))
      · have hi := PX_lt (PT_LEVEL .riscv - 1 - n) va'
        obtain ⟨vi, hsamei, hoff, -, hspec⟩ := hentry _ hi
        refine .inl (List.mem_flatMap.mpr ⟨_, List.mem_range.mpr hi, (hspec.mem_iff u).mpr ?_⟩)
        exact ⟨va', m, hlt, hm, Radix.same_succ.mpr ⟨hsamei.symm.trans hsame, hoff⟩, htab⟩

end Found

/-! ## Freeing the whole tree -/

section Whole

/-- `freewalk` ends, it returns each table of the page table once and nothing else, and exactly these pages
become free. -/
def FreesTree (arch : Arch) (root : Nat) (s : Pmem) : Prop :=
  ∃ depth freed s', freewalk arch depth root s = some (freed, s') ∧ freed.Nodup ∧
    (∀ t, t ∈ freed ↔ IsTable arch s root t) ∧ ∀ q, s'.FreePage q ↔ s.FreePage q ∨ s.pageAddr q ∈ freed

/-- The pages that are free afterwards. -/
theorem Returned.freePage_iff {live' : List Block} {fs ws : List Nat} (hret : Returned s live fs ws s' live')
    (hwf : s.Wf live) (hown : ∀ f ∈ fs, OwnPage s live f) (q : Nat) :
    s'.FreePage q ↔ s.FreePage q ∨ s.pageAddr q ∈ fs := by
  have honly : ∀ b ∈ live, s.pageAddr b.page ∈ fs → b = ⟨b.page, 0⟩ := by
    intro b hb hf
    obtain ⟨q', heq, hq'⟩ := hown _ hf
    obtain rfl := Pmem.pageAddr_inj heq
    exact hwf.eq_of_mem hb hq' b.page_mem (Block.page_mem _)
  rw [hret.wf.freePage_iff, hwf.freePage_iff, Pmem.managed_congr hret.same]
  constructor
  · rintro ⟨hm, hnot⟩
    by_cases hlive : ∃ b ∈ live, q ∈ b
    · obtain ⟨b, hb, hq⟩ := hlive
      have hf : s.pageAddr b.page ∈ fs := by
        by_contra hf
        exact hnot ⟨b, (hret.live_iff b).mpr ⟨hb, hf⟩, hq⟩
      rw [honly b hb hf, Block.mem_def] at hq
      have hpage : q = b.page := by
        simp only [Nat.pow_zero] at hq
        omega
      exact .inr (hpage ▸ hf)
    · exact .inl ⟨hm, hlive⟩
  · rintro (⟨hm, hnot⟩ | hf)
    · exact ⟨hm, fun ⟨b, hb, hq⟩ => hnot ⟨b, ((hret.live_iff b).mp hb).1, hq⟩⟩
    · obtain ⟨q', heq, hq'⟩ := hown _ hf
      obtain rfl := Pmem.pageAddr_inj heq
      refine ⟨hwf.managed hq' (Block.page_mem _), fun ⟨b, hb, hq⟩ => ?_⟩
      obtain ⟨hb, hnot⟩ := (hret.live_iff b).mp hb
      obtain rfl := hwf.eq_of_mem hb hq' hq (Block.page_mem _)
      exact hnot hf

/-- On RISC-V the whole tree is freed. -/
theorem Neat.freesTree_riscv (hneat : Neat .riscv s live root) (h : Tree .riscv s live root)
    (hun : Unmapped .riscv root s) : FreesTree .riscv root s := by
  have hroot : table .riscv s root 0 0 = some root := rfl
  have hdepth : 0 + 3 = PT_LEVEL .riscv := rfl
  obtain ⟨hclosed, hspec⟩ := hneat.below_spec h hun hdepth (by decide) hroot
  have htable : ∀ t, t ∈ below .riscv (ld s) 3 root ↔ IsTable .riscv s root t := by
    intro t
    rw [hspec.mem_iff]
    constructor
    · rintro ⟨va, n, -, hn, -, ht⟩
      exact ⟨va, n, hn, ht⟩
    · rintro ⟨va, n, hn, ht⟩
      exact ⟨va, n, Nat.zero_le n, hn, fun i hi => absurd hi (Nat.not_lt_zero i), ht⟩
  have hown : ∀ f ∈ below .riscv (ld s) 3 root, OwnPage s live f := by
    intro f hf
    obtain ⟨va, n, hn, ht⟩ := (htable f).mp hf
    exact hneat.own hn ht
  obtain ⟨s', live', hrun, hret⟩ := freewalk_returns hclosed ⟨h.alloc, hspec.nodup, hown, fun _ _ _ => rfl⟩
  exact ⟨3, _, s', hrun, hspec.nodup, htable, hret.freePage_iff h.alloc hown⟩

theorem freewalkEntries_skip {down : Nat → Pmem → Option (List Nat × Pmem)} {is : List Nat}
    (h : ∀ i ∈ is, ¬Interior arch (ld s (t + 8 * i))) : freewalkEntries arch down t is s = some ([], s) := by
  induction is with
  | nil => rfl
  | cons i is ih =>
    unfold freewalkEntries
    rw [if_neg (h i List.mem_cons_self)]
    exact ih fun j hj => h j (List.mem_cons_of_mem i hj)

/-- On LoongArch the root is returned and nothing else. -/
theorem Neat.freewalk_loongarch (hneat : Neat .loongarch s live root) (h : Tree .loongarch s live root) (depth : Nat) :
    ∃ s' live', freewalk .loongarch (depth + 1) root s = some ([root], s') ∧ OwnPage s live root ∧
      Returned s live [root] [] s' live' := by
  have hroot : ∀ va, table .loongarch s root va 0 = some root := fun _ => rfl
  have hskip : ∀ i ∈ List.range 512, ¬Interior .loongarch (ld s (root + 8 * i)) := by
    intro i hi
    obtain ⟨va, -, hoff, -⟩ := exists_key (by decide : 0 < PT_LEVEL .loongarch) 0 (List.mem_range.mp hi)
    have hword := hneat.entries (n := 0) (by decide) (hroot va)
    rw [hoff] at hword
    rcases hword with hzero | ⟨u, hentry, -⟩
    · rw [hzero]
      exact not_interior_of_invalid rfl
    · rw [hentry]
      exact not_interior_loongarch u
  have hown : OwnPage s live root := hneat.own (n := 0) (by decide) (hroot 0)
  obtain ⟨s', live', hcall, hret⟩ := returned_one h.alloc hown
  refine ⟨s', live', ?_, hown, hret⟩
  unfold freewalk
  rw [freewalkEntries_skip hskip, Option.bind_some]
  simp only
  rw [hcall, Option.map_some]
  rfl

/-- So the whole tree is freed only if there is no other table. -/
theorem Neat.freesTree_loongarch_iff (hneat : Neat .loongarch s live root) (h : Tree .loongarch s live root) :
    FreesTree .loongarch root s ↔ ∀ t, IsTable .loongarch s root t → t = root := by
  constructor
  · rintro ⟨depth, freed, s', hrun, -, htable, -⟩ t ht
    cases depth with
    | zero => cases hrun
    | succ depth =>
      obtain ⟨s'', -, hrun', -⟩ := hneat.freewalk_loongarch h depth
      rw [hrun', Option.some_inj, Prod.mk.injEq] at hrun
      have hmem := (htable t).mpr ht
      rw [← hrun.1] at hmem
      exact List.mem_singleton.mp hmem
  · intro honly
    obtain ⟨s', live', hrun, hown, hret⟩ := hneat.freewalk_loongarch h 0
    refine ⟨1, _, s', hrun, List.nodup_singleton root, fun t => ?_, hret.freePage_iff h.alloc ?_⟩
    · rw [List.mem_singleton]
      constructor
      · rintro rfl
        exact ⟨0, 0, by decide, rfl⟩
      · exact honly t
    · intro f hf
      rw [List.mem_singleton.mp hf]
      exact hown

/-- What is known of every page table that was built. -/
theorem built_neat {start end_ : Nat} (hregion : ValidRegion start end_) {mem : Nat → UInt8} {heap : Heap}
    (hreach : heap.SafelyReachable start end_ mem) (hwindow : InWindow arch heap.pmem) {s₀ : Pmem}
    (hcreate : heap.pmem.pmemAllocPages 1 = some (root, s₀)) (hroot : root ≠ NULL)
    (hrun : Reaches (Step arch root) s₀ s) : ∃ live, Tree arch s live root ∧ Neat arch s live root := by
  obtain ⟨live, hwf, -⟩ := hreach.wf hregion
  obtain ⟨b, rfl, hh, horder⟩ := hwf.handed_one hcreate hroot
  refine hrun.invariant (I := fun s => ∃ live, Tree arch s live (s₀.pageAddr b.page) ∧ Neat arch s live (s₀.pageAddr b.page))
    ⟨b :: live, (wellFormed_of_handed hwf hwindow hh horder).toTree, neat_of_handed hwf hh horder⟩ ?_
  rintro s₁ s₂ ⟨live₁, htree, hneat⟩ hstep
  exact hstep.keeps htree hneat

/-- `freewalk` frees a page table that was built and of which every leaf has been unmapped: always on
RISC-V, and on LoongArch if there is no table but the root. -/
theorem freewalk_freesTree_iff {start end_ : Nat} (hregion : ValidRegion start end_) {mem : Nat → UInt8} {heap : Heap}
    (hreach : heap.SafelyReachable start end_ mem) (hwindow : InWindow arch heap.pmem) {s₀ : Pmem}
    (hcreate : heap.pmem.pmemAllocPages 1 = some (root, s₀)) (hroot : root ≠ NULL)
    (hrun : Reaches (Step arch root) s₀ s) (hun : Unmapped arch root s) :
    FreesTree arch root s ↔ arch = .riscv ∨ ∀ t, IsTable arch s root t → t = root := by
  obtain ⟨live, htree, hneat⟩ := built_neat hregion hreach hwindow hcreate hroot hrun
  cases arch with
  | riscv => exact ⟨fun _ => .inl rfl, fun _ => hneat.freesTree_riscv htree hun⟩
  | loongarch =>
    rw [hneat.freesTree_loongarch_iff htree]
    exact ⟨.inr, fun h => h.resolve_left (by decide)⟩

/-- After one `walk` in a fresh page table, no leaf is valid, and a table of the last level is there. -/
theorem unmapped_walked {s₀ : Pmem} {pte : Nat} (hwf : s₀.Wf live) (hwindow : InWindow arch s₀)
    (hcreate : s₀.pmemAllocPages 1 = some (root, s)) (hroot : root ≠ NULL)
    (hwalk : walk arch root va true s = some (pte, s')) (hpte : pte ≠ NULL) :
    Unmapped arch root s' ∧ ∃ t, t ≠ root ∧ IsTable arch s' root t := by
  obtain ⟨b, rfl, hh, horder⟩ := hwf.handed_one hcreate hroot
  have htree := (wellFormed_of_handed hwf hwindow hh horder).toTree
  have hva : va < MAXVA arch := ((neat_of_handed hwf hh horder).walk htree hwalk).1
  obtain ⟨pte', s'', live', hwalk', htree', hwalked, hres⟩ := htree.walk hva
  rw [hwalk', Option.some_inj, Prod.mk.injEq] at hwalk
  obtain ⟨rfl, rfl⟩ := hwalk
  obtain ⟨-, hempty⟩ := Radix.wf_of_clear (R := shape arch) (pageAddr_mod hh.wf.region b.page)
    (ld_fresh arch hwf hh horder)
  refine ⟨fun a ha => ?_, ?_⟩
  · rw [htree'.readLeaf_eq ha, hwalked.leaf, (hempty a).2]
    rfl
  · obtain ⟨u, hu, -⟩ := hres.resolve_left hpte
    have hlast : PT_LEVEL arch - 1 < PT_LEVEL arch := Nat.sub_one_lt_of_lt (shape arch).depth_pos
    refine ⟨u, ?_, va, _, hlast, hu⟩
    rintro rfl
    have hzero : table arch s'' (s.pageAddr b.page) va 0 = some (s.pageAddr b.page) := rfl
    have hlevel := (htree'.wf.distinct (shape arch).depth_pos hlast hzero hu).1
    cases arch with
    | riscv => exact absurd hlevel (by decide)
    | loongarch => exact absurd hlevel (by decide)

/-- Sixteen pages, a page table in the first of them, and a `walk` in it that allocates. -/
theorem exists_walked (arch : Arch) {start end_ : Nat} (hregion : ValidRegion start end_) (hwindow : ∀ s : Pmem,
      s.memStart = start → s.memEnd = end_ → InWindow arch s)
    (heval : ((buddyInit start end_ fun _ => 0).bind fun s => (s.pmemAllocPages 1).bind fun r =>
      (walk arch r.1 0x1000 true r.2).map fun r' => (decide (r.1 ≠ NULL), decide (r'.1 ≠ NULL))) = some (true, true)) :
    ∃ (heap : Heap) (root : Nat) (s₀ s : Pmem), heap.SafelyReachable start end_ (fun _ => 0) ∧ InWindow arch heap.pmem ∧
      heap.pmem.pmemAllocPages 1 = some (root, s₀) ∧ root ≠ NULL ∧ Reaches (Step arch root) s₀ s ∧
      Unmapped arch root s ∧ ∃ t, t ≠ root ∧ IsTable arch s root t := by
  obtain ⟨p, hinit, heval⟩ := Option.bind_eq_some_iff.mp heval
  obtain ⟨⟨root, s₀⟩, hcreate, heval⟩ := Option.bind_eq_some_iff.mp heval
  obtain ⟨⟨pte, s⟩, hwalk, heval⟩ := Option.map_eq_some_iff.mp heval
  simp only [Prod.mk.injEq, decide_eq_true_eq] at heval
  obtain ⟨hroot, hpte⟩ := heval
  obtain ⟨p', L, hinit', hstart, hend, -, hinv, -⟩ := buddyInit_inv hregion fun _ => 0
  obtain rfl : p' = p := Option.some_inj.mp (hinit'.symm.trans hinit)
  have hwf : p'.Wf [] := ⟨L, hinv⟩
  have hwin := hwindow p' hstart hend
  obtain ⟨hun, htable⟩ := unmapped_walked hwf hwin hcreate hroot hwalk hpte
  exact ⟨⟨p', []⟩, root, s₀, s, ⟨p', hinit, .refl⟩, hwin, hcreate, hroot, .single (.walk hwalk), hun, htable⟩

/-- A RISC-V page table with tables on every level, without leaves. -/
theorem freewalk_freesTree_iff_walked : ∃ root s, (∃ t, t ≠ root ∧ IsTable .riscv s root t) ∧ FreesTree .riscv root s := by
  obtain ⟨heap, root, s₀, s, hreach, hwin, hcreate, hroot, hrun, hun, htable⟩ :=
    exists_walked .riscv validRegion_sixteenPages (fun _ _ _ => trivial) (by decide +kernel)
  exact ⟨root, s, htable, (freewalk_freesTree_iff validRegion_sixteenPages hreach hwin hcreate hroot hrun hun).mpr (.inl rfl)⟩

/-- Sixteen pages in the window of LoongArch. -/
theorem validRegion_window : ValidRegion 0x9000000080000000 0x9000000080010000 where
  start_aligned := by decide
  end_aligned := by decide
  start_le := by decide
  room := by decide
  end_le := by decide

/-- On LoongArch a page table with tables on every level, without leaves, is not freed as a whole. -/
theorem freewalk_keeps_tables : ¬∀ (arch : Arch) (start end_ : Nat) (mem : Nat → UInt8) (heap : Heap) (root : Nat)
    (s₀ s : Pmem), ValidRegion start end_ → heap.SafelyReachable start end_ mem → InWindow arch heap.pmem →
    heap.pmem.pmemAllocPages 1 = some (root, s₀) → root ≠ NULL → Reaches (Step arch root) s₀ s →
    Unmapped arch root s → FreesTree arch root s := by
  intro hall
  obtain ⟨heap, root, s₀, s, hreach, hwin, hcreate, hroot, hrun, hun, t, hne, ht⟩ :=
    exists_walked .loongarch validRegion_window
      (fun s hstart hend => by rw [InWindow, hstart, hend]; decide) (by decide +kernel)
  obtain ⟨live, htree, hneat⟩ := built_neat validRegion_window hreach hwin hcreate hroot hrun
  have hfrees := hall .loongarch _ _ _ heap root s₀ s validRegion_window hreach hwin hcreate hroot hrun hun
  exact hne ((hneat.freesTree_loongarch_iff htree).mp hfrees t ht)

end Whole

end PageTable

end SC7
