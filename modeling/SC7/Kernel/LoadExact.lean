-- SUMMARY: The load image is right exactly if each segment finds memory of its own and the segments that share a page bring the same bytes.
import SC7.Kernel.LoadImage

/-!
# When the load image is right

`Inv` describes the address space between two steps of the loop: which pages the segments so far were given, and
the byte `B a` at each address `a` of them. A growth adds pages, whose bytes are zero, and keeps `B`
(`grow_inv`); `loadseg` keeps the pages and changes `B` where the segment brings a byte (`Inv.loadseg`). Where a
segment begins in a page of an earlier one, the growth is refused, so the segment has memory only if it
ends in that page.
-/

namespace SC7.Load

open Exec (ElfFile ProgramHeader ELF_PROG_LOAD)
open Vmem (pageCeil Affords Fresh Grown LivePage inRange nowhere)

variable {arch : Arch} {pid a j o : Nat} {f : ElfBytes} {s t u : Vmem} {live₀ live live' : List Block}
  {i k n lo hi perm q v : Nat} {B : Nat → UInt8} {ph : ProgramHeader}

/-! ## The address space between two steps -/

/-- Page `v` is a page of the user that was taken since the start, and holds the bytes of `B`. -/
def Holds (arch : Arch) (pid : Nat) (live₀ live : List Block) (B : Nat → UInt8) (t : Vmem) (v : Nat) : Prop :=
  ∃ q, (t.leaf pid v).pa = t.pmem.pageAddr q ∧ (t.leaf pid v).flags &&& PTE_U arch ≠ 0 ∧ LivePage live q ∧
    ¬LivePage live₀ q ∧ ∀ o < PGSIZE, t.pmem.mem (t.pmem.pageAddr q + o) = B (v * PGSIZE + o)

/-- The address space `t` after the growth for the first `i` headers, made from the table `s`. -/
structure Inv (arch : Arch) (pid : Nat) (f : ElfBytes) (s : Vmem) (live₀ : List Block) (i : Nat) (B : Nat → UInt8)
    (t : Vmem) (live : List Block) : Prop where
  /-- whatever the pages of the table hold now -/
  grown : Grown arch (fun pid' _ => pid' = pid) (s.withMem t.pmem.mem) t live₀ live
  safe : t.Safe
  /-- each segment has its pages -/
  given : ∀ j < i, f.Loads j → ∀ v, firstPage (f.program j) ≤ v → v < endPage (f.program j) →
    (t.leaf pid v).valid = true ∧ (s.leaf pid v).valid = false
  page : ∀ v, (t.leaf pid v).valid = true → (s.leaf pid v).valid = false → Holds arch pid live₀ live B t v
  /-- there are no others -/
  early : ∀ v, (t.leaf pid v).valid = true → (s.leaf pid v).valid = false →
    v * PGSIZE < MAXVA arch ∧ ∃ j < i, f.Loads j ∧ v < endPage (f.program j)
  blank : ∀ v, (t.leaf pid v).valid = false → ∀ o < PGSIZE, B (v * PGSIZE + o) = 0

/-- Fresh user memory is the user's. -/
theorem userPerm_user (arch : Arch) (perm : Nat) : (Vmem.userPerm arch perm ||| PTE_V) &&& PTE_U arch ≠ 0 := by
  intro h
  cases arch with
  | riscv =>
    have hbit := congrArg (fun n => n.testBit 4) h
    have hU : (PTE_U .riscv).testBit 4 = true := by decide
    simp [Vmem.userPerm, hU] at hbit
  | loongarch =>
    have hbit := congrArg (fun n => n.testBit 2) h
    have hU : (PTE_U .loongarch).testBit 2 = true := by decide
    simp [Vmem.userPerm, hU] at hbit

/-- The page keeps its bytes when memory is taken. -/
theorem Holds.grown {P : Nat → Nat → Prop} (h : Holds arch pid live₀ live B t v) (hg : Grown arch P t u live live')
    (hleaf : u.leaf pid v = t.leaf pid v) : Holds arch pid live₀ live' B u v := by
  obtain ⟨q, hpa, huser, hlive, hnew, hbytes⟩ := h
  refine ⟨q, ?_, ?_, hlive.mono hg.sub, hnew, fun o ho => ?_⟩
  · rw [hleaf, hpa, hg.same.pageAddr]
  · rwa [hleaf]
  · rw [hg.same.pageAddr, hg.mem q hlive o ho]
    exact hbytes o ho

namespace Inv

theorem start (h : s.Ok arch live) (hsafe : s.Safe) : Inv arch pid f s live 0 (fun _ => 0) s live where
  grown := Grown.refl h
  safe := hsafe
  given _ hj := absurd hj (Nat.not_lt_zero _)
  page v hv hnot := by
    rw [hnot] at hv
    cases hv
  early v hv hnot := by
    rw [hnot] at hv
    cases hv
  blank _ _ _ _ := rfl

/-- A header that is not one of a segment. -/
theorem skip (h : Inv arch pid f s live₀ i B t live) (hnot : ¬f.Loads i) : Inv arch pid f s live₀ (i + 1) B t live where
  grown := h.grown
  safe := h.safe
  given j hj hloads := h.given j (by
    have hne : j ≠ i := by
      rintro rfl
      exact hnot hloads
    omega) hloads
  page := h.page
  early v hv hnew := by
    obtain ⟨hmax, j, hj, hrest⟩ := h.early v hv hnew
    exact ⟨hmax, j, by omega, hrest⟩
  blank := h.blank

/-- The pages `[lo, hi)` were mapped, and now the segment has all its pages. -/
theorem grow (h : Inv arch pid f s live₀ i B t live) (hloads : f.Loads i)
    (hfresh : Fresh arch pid perm lo hi t u live live') (hsafe : u.Safe) (hvac : t.Vacant pid lo hi)
    (hin : ∀ v, lo ≤ v → v < hi → v * PGSIZE < MAXVA arch ∧ v < endPage (f.program i))
    (hgiven : ∀ v, firstPage (f.program i) ≤ v → v < endPage (f.program i) →
      (u.leaf pid v).valid = true ∧ (s.leaf pid v).valid = false) :
    Inv arch pid f s live₀ (i + 1) B u live' := by
  -- a page that was mapped is not in the range, and its entry is as it was
  have hkeep : ∀ v, (t.leaf pid v).valid = true → u.leaf pid v = t.leaf pid v := by
    intro v hv
    refine hfresh.grown.leaf pid v ?_
    rintro ⟨-, h1, h2⟩
    rw [hvac v h1 h2] at hv
    cases hv
  have hout : ∀ v, ¬(lo ≤ v ∧ v < hi) → u.leaf pid v = t.leaf pid v := fun v hv =>
    hfresh.grown.leaf pid v fun hin => hv hin.2
  have hgrown : Grown arch (fun pid' _ => pid' = pid) (t.withMem u.pmem.mem) u live live' :=
    (hfresh.grown.mono fun _ _ h => h.1).withMem u.pmem.mem
  refine ⟨(h.grown.withMem u.pmem.mem).trans hgrown, hsafe, ?_, ?_, ?_, ?_⟩
  · intro j hj hj' v h1 h2
    by_cases hji : j = i
    · subst hji
      exact hgiven v h1 h2
    · obtain ⟨hv, hnew⟩ := h.given j (by omega) hj' v h1 h2
      rw [hkeep v hv]
      exact ⟨hv, hnew⟩
  · intro v hv hnew
    by_cases hrange : lo ≤ v ∧ v < hi
    · obtain ⟨q, hleaf, hlive, hnot, hzero⟩ := hfresh.entry v hrange.1 hrange.2
      refine ⟨q, ?_, ?_, hlive, fun hold => hnot (hold.mono h.grown.sub), fun o ho => ?_⟩
      · rw [hleaf]
      · rw [hleaf]
        exact userPerm_user arch perm
      · rw [hzero o ho, h.blank v (hvac v hrange.1 hrange.2) o ho]
    · rw [hout v hrange] at hv
      exact (h.page v hv hnew).grown hfresh.grown (hout v hrange)
  · intro v hv hnew
    by_cases hrange : lo ≤ v ∧ v < hi
    · obtain ⟨hmax, hend⟩ := hin v hrange.1 hrange.2
      exact ⟨hmax, i, Nat.lt_succ_self i, hloads, hend⟩
    · rw [hout v hrange] at hv
      obtain ⟨hmax, j, hj, hrest⟩ := h.early v hv hnew
      exact ⟨hmax, j, by omega, hrest⟩
  · intro v hv
    refine h.blank v ?_
    by_contra hne
    have hvalid := eq_true_of_ne_false hne
    rw [hkeep v hvalid, hvalid] at hv
    cases hv

/-- No other page has the memory of a page that was taken since the start. -/
theorem own {w : Nat} (h : Inv arch pid f s live₀ i B t live) (hv : (t.leaf pid v).valid = true)
    (hnew : (s.leaf pid v).valid = false) (hw : (t.leaf pid w).valid = true)
    (heq : (t.leaf pid v).pa = (t.leaf pid w).pa) : v = w := by
  have hx : t.Holds (.leaf pid v) (t.leaf pid v).pa := ⟨hv, rfl⟩
  have hy : t.Holds (.leaf pid w) (t.leaf pid v).pa := ⟨hw, heq.symm⟩
  rcases h.grown.one _ _ _ hx hy with hsame | ⟨hold, -⟩
  · cases hsame
    rfl
  · have hvalid : (s.leaf pid v).valid = true := hold.1
    rw [hnew] at hvalid
    cases hvalid

/-- The pages of a segment have memory. -/
theorem hasMemory (h : Inv arch pid f s live₀ (i + 1) B t live) (hloads : f.Loads i) :
    HasMemory pid (firstPage (f.program i)) (endPage (f.program i)) s t where
  mapped v h1 h2 := (h.given i (Nat.lt_succ_self i) hloads v h1 h2).1
  new v h1 h2 := (h.given i (Nat.lt_succ_self i) hloads v h1 h2).2
  backed v h1 h2 := by
    obtain ⟨hv, hnew⟩ := h.given i (Nat.lt_succ_self i) hloads v h1 h2
    obtain ⟨q, hpa, -, ⟨b, hb, hq⟩, -⟩ := h.page v hv hnew
    have hlt := (h.grown.ok.wf.placed hb).mem_lt hq
    rw [h.grown.same.totalPages] at hlt
    rw [h.grown.same.pageAddr] at hpa
    exact ⟨q, hlt, hpa⟩
  own v w h1 h2 h1' h2' heq := by
    obtain ⟨hv, hnew⟩ := h.given i (Nat.lt_succ_self i) hloads v h1 h2
    obtain ⟨hw, -⟩ := h.given i (Nat.lt_succ_self i) hloads w h1' h2'
    exact h.own hv hnew hw heq

end Inv

/-! ## The growth for a segment -/

/-- The pages of a segment, if any, were not mapped from the start; there is memory for them, or the segment ends in
its first page, which is mapped. -/
def GrowMeets (arch : Arch) (pid : Nat) (f : ElfBytes) (s : Vmem) (i : Nat) (t : Vmem) : Prop :=
  firstPage (f.program i) < endPage (f.program i) →
    s.Vacant pid (firstPage (f.program i)) (endPage (f.program i)) ∧
      (t.Vacant pid (firstPage (f.program i)) (endPage (f.program i)) ∧
          Affords arch pid (firstPage (f.program i)) (endPage (f.program i)) t ∨
        (t.leaf pid (firstPage (f.program i))).valid = true ∧ endPage (f.program i) = firstPage (f.program i) + 1)

theorem freeCount_le (s : Pmem) : s.freeCount ≤ s.totalPages := by
  have hcard := Finset.card_filter_le (Finset.range s.totalPages) fun q => s.FreePage q
  rwa [Finset.card_range] at hcard

/-- With memory for it, the growth gives the segment its pages. -/
theorem grow_inv (h : Inv arch pid f s live₀ i B t live) (htries : f.Tries i) (hpages : s.pmem.totalPages < 2 ^ 31)
    (hreq : t.pmem.AllocSafe (toInt32 (endPage (f.program i) - firstPage (f.program i))))
    (hmeets : GrowMeets arch pid f s i t) :
    ∃ r u live', grow arch pid f i t = some (r, u) ∧ Inv arch pid f s live₀ (i + 1) B u live' := by
  have hok := h.grown.ok
  have htotal : t.pmem.totalPages < 2 ^ 31 := by
    rw [h.grown.same.totalPages]
    exact hpages
  by_cases hlt : firstPage (f.program i) < endPage (f.program i)
  · have hnew : firstPage (f.program i) * PGSIZE < (f.program i).vaddr + (f.program i).memsz := Vmem.lt_pageCeil.mp hlt
    obtain ⟨hstart, ⟨hvac, hafford⟩ | ⟨hv, hone⟩⟩ := hmeets hlt
    · have hfree := freeCount_le t.pmem
      have hsmall := hafford.pages
      rcases Vmem.uvmGrow_vacant hok h.safe htotal hreq hnew htries.fits (by unfold endPage at *; omega) hvac with
        ⟨-, u, live', hcall, hsafe, hfresh⟩ | ⟨hnot, -⟩
      · refine ⟨_, u, live', hcall, h.grow htries.loads hfresh hsafe hvac (fun v h1 h2 => ⟨?_, h2⟩) fun v h1 h2 => ?_⟩
        · exact (Nat.mul_lt_mul_of_pos_right h2 (by decide)).trans_le hafford.below
        · obtain ⟨q, hleaf, -⟩ := hfresh.entry v h1 h2
          rw [hleaf]
          exact ⟨Vmem.valid_mk _ _, hstart v h1 h2⟩
      · exact absurd hafford hnot
    · obtain ⟨hmax, -⟩ := h.early _ hv (hstart _ (le_refl _) hlt)
      obtain ⟨u, live', hcall, hsafe, hg⟩ :=
        Vmem.uvmGrow_mapped (flagsToPerm arch (f.flags i)) hok h.safe hmax hv hnew hone htries.fits
      have hfresh : Fresh arch pid 0 0 0 t u live live' := .none hg
      refine ⟨_, u, live', hcall, h.grow htries.loads hfresh hsafe (fun v _ h2 => absurd h2 (Nat.not_lt_zero v))
        (fun v _ h2 => absurd h2 (Nat.not_lt_zero v)) fun v h1 h2 => ?_⟩
      obtain rfl : v = firstPage (f.program i) := by omega
      rw [hg.leaf_eq]
      exact ⟨hv, hstart _ (le_refl _) hlt⟩
  · have hend : (f.program i).vaddr + (f.program i).memsz ≤ pgRoundDown (f.program i).vaddr :=
      Nat.not_lt.mp fun hnew => hlt (Vmem.lt_pageCeil.mpr hnew)
    have hcall : grow arch pid f i t = some ((pgRoundDown (f.program i).vaddr : Int), t) := by
      rw [Load.grow, Vmem.uvmGrow, if_pos hend]
    have hfresh : Fresh arch pid 0 0 0 t t live live := .refl hok
    exact ⟨_, t, live, hcall, h.grow htries.loads hfresh h.safe (fun v _ h2 => absurd h2 (Nat.not_lt_zero v))
      (fun v _ h2 => absurd h2 (Nat.not_lt_zero v)) fun v h1 h2 => absurd (h1.trans_lt h2) hlt⟩

/-- There are not more pages than the memory has. -/
theorem HasMemory.count_le (h : HasMemory pid lo hi s t) : hi - lo ≤ s.pmem.totalPages := by
  choose! g hg hpa using h.backed
  have hmaps : ∀ v ∈ Finset.Ico lo hi, g v ∈ Finset.range s.pmem.totalPages := by
    intro v hv
    obtain ⟨h1, h2⟩ := Finset.mem_Ico.mp hv
    exact Finset.mem_range.mpr (hg v h1 h2)
  have hinj : ∀ v ∈ Finset.Ico lo hi, ∀ w ∈ Finset.Ico lo hi, g v = g w → v = w := by
    intro v hv w hw heq
    obtain ⟨h1, h2⟩ := Finset.mem_Ico.mp hv
    obtain ⟨h1', h2'⟩ := Finset.mem_Ico.mp hw
    exact h.own v w h1 h2 h1' h2' (by rw [hpa v h1 h2, hpa w h1' h2', heq])
  have hcard := Finset.card_le_card_of_injOn g hmaps hinj
  rwa [Nat.card_Ico, Finset.card_range] at hcard

/-- A page of an earlier segment is the first page of this one at the latest. -/
theorem Inv.page_le (h : Inv arch pid f s live₀ i B t live) (hwf : f.WellFormed) (hloads : f.Loads i)
    (hv : (t.leaf pid v).valid = true) (hnew : (s.leaf pid v).valid = false) : v ≤ firstPage (f.program i) := by
  obtain ⟨-, j, hj, hloads', hend⟩ := h.early v hv hnew
  have hordered := hwf.ordered j i hj hloads' hloads
  simp only [endPage, firstPage, pageCeil, PGSIZE] at hend ⊢
  omega

/-- The segment has memory after the growth exactly if there was memory for it. -/
theorem grow_iff (h : Inv arch pid f s live₀ i B t live) (hwf : f.WellFormed)
    (htries : f.Tries i) (hpages : s.pmem.totalPages < 2 ^ 31)
    (hreq : t.pmem.AllocSafe (toInt32 (endPage (f.program i) - firstPage (f.program i)))) :
    (∃ r u, grow arch pid f i t = some (r, u) ∧
        HasMemory pid (firstPage (f.program i)) (endPage (f.program i)) s u) ↔ GrowMeets arch pid f s i t := by
  constructor
  · rintro ⟨r, u, hcall, hmem⟩ hlt
    refine ⟨fun v h1 h2 => hmem.new v h1 h2, ?_⟩
    have hnew : firstPage (f.program i) * PGSIZE < (f.program i).vaddr + (f.program i).memsz := Vmem.lt_pageCeil.mp hlt
    have hround : Vmem.uvmGrow arch pid (firstPage (f.program i) * PGSIZE)
        ((f.program i).vaddr + (f.program i).memsz) (flagsToPerm arch (f.flags i)) t = some (r, u) := hcall
    by_cases hvac : t.Vacant pid (firstPage (f.program i)) (endPage (f.program i))
    · -- no page is mapped: the growth maps them all
      have hcount := hmem.count_le
      have hnewsz : (f.program i).vaddr + (f.program i).memsz < 2 ^ 64 := htries.fits
      have htotal : t.pmem.totalPages < 2 ^ 31 := by
        rw [h.grown.same.totalPages]
        exact hpages
      rcases Vmem.uvmGrow_vacant h.grown.ok h.safe htotal hreq hnew hnewsz (lt_of_le_of_lt hcount hpages) hvac with
        ⟨hafford, -⟩ | ⟨-, hnone⟩
      · exact .inl ⟨hvac, hafford⟩
      · have hfirst := hmem.mapped _ (le_refl _) hlt
        rw [hnone r u hround] at hfirst
        cases hfirst
    · -- the only page that is mapped is the first
      obtain ⟨v, h1, h2, hv⟩ : ∃ v, firstPage (f.program i) ≤ v ∧ v < endPage (f.program i) ∧
          (t.leaf pid v).valid = true := by
        simpa [Vmem.Vacant] using hvac
      have hle := h.page_le hwf htries.loads hv (hmem.new v h1 h2)
      obtain rfl : v = firstPage (f.program i) := by omega
      refine .inr ⟨hv, ?_⟩
      by_contra hne
      have hnext := hmem.mapped (firstPage (f.program i) + 1) (by omega) (by omega)
      have hfirst : pgRoundUp (firstPage (f.program i) * PGSIZE) = firstPage (f.program i) * PGSIZE :=
        Vmem.pgRoundUp_page (hnew.trans htries.fits)
      rw [Vmem.uvmGrow_first hfirst hv hround] at hnext
      have hlast := h.page_le hwf htries.loads hnext (hmem.new _ (by omega) (by omega))
      omega
  · intro hmeets
    obtain ⟨r, u, live', hcall, hinv⟩ := grow_inv h htries hpages hreq hmeets
    exact ⟨r, u, hcall, hinv.hasMemory htries.loads⟩

/-! ## The loop of `loadseg` -/

/-- The address of the `k`th page, with or without the sign of `i`. -/
theorem loadAddr_cases (hk : k * PGSIZE < 2 ^ 32) (hva : loadAddr ph k < 2 ^ 63)
    (hbase : pgRoundDown ph.vaddr + k * PGSIZE < 2 ^ 64) :
    k * PGSIZE < 2 ^ 31 ∧ loadAddr ph k = pgRoundDown ph.vaddr + k * PGSIZE ∨
      2 ^ 31 ≤ k * PGSIZE ∧ loadAddr ph k + 2 ^ 32 = pgRoundDown ph.vaddr + k * PGSIZE := by
  unfold loadAddr add64 pgRoundDown at *
  split at hva
  · rename_i hlow
    rw [if_pos hlow]
    simp only [PGSIZE] at *
    omega
  · rename_i hhigh
    rw [if_neg hhigh]
    simp only [PGSIZE] at *
    omega

/-- The addresses of the `k`th page, by the `i` that leads to them. -/
theorem loadIndex_page (hk : k * PGSIZE < 2 ^ 32) (hva : loadAddr ph k < 2 ^ 63)
    (hbase : pgRoundDown ph.vaddr + k * PGSIZE < 2 ^ 64) (ha : a / PGSIZE = loadAddr ph k / PGSIZE) :
    loadIndex ph a = if k * PGSIZE + a % PGSIZE < ph.loadSize then some (k * PGSIZE + a % PGSIZE) else none := by
  have hd : ((a : Int) - pgRoundDown ph.vaddr) % 2 ^ 32 = ((k * PGSIZE + a % PGSIZE : Nat) : Int) ∧
      -2 ^ 31 ≤ (a : Int) - pgRoundDown ph.vaddr ∧ (a : Int) - pgRoundDown ph.vaddr < 2 ^ 31 := by
    have hcases := loadAddr_cases hk hva hbase
    generalize loadAddr ph k = va at *
    simp only [pgRoundDown, PGSIZE] at *
    omega
  obtain ⟨hmod, h1, h2⟩ := hd
  simp only [loadIndex, hmod, h1, h2, true_and, Int.toNat_natCast]

/-- Conversely, the `i` gives the page. -/
theorem page_of_loadIndex (hk : k * PGSIZE < 2 ^ 32) (hva : loadAddr ph k < 2 ^ 63)
    (hbase : pgRoundDown ph.vaddr + k * PGSIZE < 2 ^ 64) (hj : loadIndex ph a = some j) (hjk : j / PGSIZE = k) :
    a / PGSIZE = loadAddr ph k / PGSIZE := by
  have hcases := loadAddr_cases hk hva hbase
  unfold loadIndex at hj
  dsimp only at hj
  split at hj
  · rename_i hcond
    obtain ⟨h1, h2, -⟩ := hcond
    have hj' := Option.some.inj hj
    generalize loadAddr ph k = va at *
    simp only [pgRoundDown, PGSIZE] at *
    omega
  · cases hj

/-- What a page that `walkaddr` finds is. -/
theorem walkaddr_some {va pa : Nat} (h : t.Ok arch live) (hwalk : walkaddr arch pid va t = some pa) (hne : pa ≠ 0) :
    va < MAXVA arch ∧ (t.leaf pid (va / PGSIZE)).valid = true ∧ (t.leaf pid (va / PGSIZE)).pa = pa ∧
      (t.leaf pid (va / PGSIZE)).flags &&& PTE_U arch ≠ 0 := by
  unfold walkaddr at hwalk
  dsimp only at hwalk
  split at hwalk
  · cases hwalk
  · rename_i hva
    have hvalid : (t.leaf pid (va / PGSIZE)).valid = true := by
      by_contra hnot
      rw [if_pos (Vmem.pteAt_of_not_valid (eq_false_of_ne_true hnot))] at hwalk
      exact hne (Option.some.inj hwalk).symm
    rw [Vmem.pteAt_of_valid h hvalid, if_neg (by rw [hvalid]; decide)] at hwalk
    split at hwalk
    · exact absurd (Option.some.inj hwalk).symm hne
    · rename_i huser
      exact ⟨Nat.not_le.mp hva, hvalid, Option.some.inj hwalk, huser⟩

theorem page_offset (v : Nat) (ho : o < PGSIZE) : (v * PGSIZE + o) / PGSIZE = v ∧ (v * PGSIZE + o) % PGSIZE = o := by
  simp only [PGSIZE] at *
  omega

/-- A store to a page, of a page at most, changes its bytes only. -/
theorem store_mem {bytes : List UInt8} {q' : Nat} (hlen : bytes.length ≤ PGSIZE) (ho : o < PGSIZE) :
    (store (t.pmem.pageAddr q) bytes t).pmem.mem (t.pmem.pageAddr q' + o) =
      if q' = q ∧ o < bytes.length then bytes.getD o 0 else t.pmem.mem (t.pmem.pageAddr q' + o) := by
  have hin : (t.pmem.pageAddr q ≤ t.pmem.pageAddr q' + o ∧ t.pmem.pageAddr q' + o < t.pmem.pageAddr q + bytes.length) ↔
      q' = q ∧ o < bytes.length := by
    simp only [Pmem.pageAddr, PGSIZE] at *
    omega
  change (if t.pmem.pageAddr q ≤ t.pmem.pageAddr q' + o ∧ t.pmem.pageAddr q' + o < t.pmem.pageAddr q + bytes.length then
    bytes.getD (t.pmem.pageAddr q' + o - t.pmem.pageAddr q) 0 else t.pmem.mem (t.pmem.pageAddr q' + o)) = _
  by_cases hcond : q' = q ∧ o < bytes.length
  · rw [if_pos (hin.mpr hcond), if_pos hcond, hcond.1, Nat.add_sub_cancel_left]
  · rw [if_neg fun h => hcond (hin.mp h), if_neg hcond]

/-- The bytes of the file that a complete read brings. -/
theorem read_byte {off n k : Nat} (hread : (f.read off n).length = n) (hk : k < n) :
    (f.read off n).getD k 0 = f.byte (off + k) := by
  have hlt : k < (f.read off n).length := by rwa [hread]
  have hget : (f.read off n)[k]? = some ((f.read off n)[k]) := List.getElem?_eq_getElem hlt
  rw [List.getD_eq_getElem?_getD, hget, Option.getD_some]
  exact f.agrees off n k _ hget

/-- The bytes after the `k`th round. -/
def afterRound (f : ElfBytes) (ph : ProgramHeader) (k : Nat) (B : Nat → UInt8) (a : Nat) : UInt8 :=
  if (loadIndex ph a).getD 0 / PGSIZE = k then (brings f ph a).getD (B a) else B a

/-- The bytes after the rounds from the `k`th on. -/
def afterFrom (f : ElfBytes) (ph : ProgramHeader) (k : Nat) (B : Nat → UInt8) (a : Nat) : UInt8 :=
  if k ≤ (loadIndex ph a).getD 0 / PGSIZE then (brings f ph a).getD (B a) else B a

theorem brings_none (h : loadIndex ph a = none) : brings f ph a = none := by
  rw [brings, h, Option.map_none]

theorem afterRound_page (hk : k * PGSIZE < 2 ^ 32) (hva : loadAddr ph k < 2 ^ 63)
    (hbase : pgRoundDown ph.vaddr + k * PGSIZE < 2 ^ 64) (ha : a / PGSIZE = loadAddr ph k / PGSIZE) :
    afterRound f ph k B a =
      if a % PGSIZE < (ph.loadRead k).2 then f.byte ((ph.loadRead k).1 + a % PGSIZE) else B a := by
  have hindex := loadIndex_page hk hva hbase ha
  have hmod : a % PGSIZE < PGSIZE := Nat.mod_lt _ (by decide)
  have hcond : k * PGSIZE + a % PGSIZE < ph.loadSize ↔ a % PGSIZE < (ph.loadRead k).2 := by
    simp only [ProgramHeader.loadRead]
    omega
  unfold afterRound
  by_cases hread : a % PGSIZE < (ph.loadRead k).2
  · rw [if_pos (hcond.mpr hread)] at hindex
    have hdiv : (k * PGSIZE + a % PGSIZE) / PGSIZE = k := by
      simp only [PGSIZE] at *
      omega
    have hmod' : (k * PGSIZE + a % PGSIZE) % PGSIZE = a % PGSIZE := by
      simp only [PGSIZE]
      omega
    rw [if_pos hread, hindex, Option.getD_some, if_pos hdiv, brings, hindex, Option.map_some, Option.getD_some, hdiv,
      hmod']
  · rw [if_neg fun h => hread (hcond.mp h)] at hindex
    rw [if_neg hread, brings_none hindex, Option.getD_none, ite_self]

theorem afterRound_other (hk : k * PGSIZE < 2 ^ 32) (hva : loadAddr ph k < 2 ^ 63)
    (hbase : pgRoundDown ph.vaddr + k * PGSIZE < 2 ^ 64) (ha : a / PGSIZE ≠ loadAddr ph k / PGSIZE) :
    afterRound f ph k B a = B a := by
  unfold afterRound
  cases hindex : loadIndex ph a with
  | none => rw [brings_none hindex, Option.getD_none, Option.getD_none, ite_self]
  | some j => exact if_neg fun hjk => ha (page_of_loadIndex hk hva hbase hindex hjk)

/-- A round changes the bytes of its page. -/
theorem Inv.loadPage (h : Inv arch pid f s live₀ i B t live) (hk : k * PGSIZE < 2 ^ 32)
    (hbase : pgRoundDown ph.vaddr + k * PGSIZE < 2 ^ 64) (hcall : loadPage arch pid f ph k t = some u) :
    Inv arch pid f s live₀ i (afterRound f ph k B) u live := by
  obtain ⟨pa, hwalk, hcall⟩ := Option.bind_eq_some_iff.mp hcall
  dsimp only at hcall
  split at hcall
  · cases hcall
  · rename_i hne
    split at hcall
    · cases hcall
    · rename_i hread
      have hlen : (f.read (ph.loadRead k).1 (ph.loadRead k).2).length = (ph.loadRead k).2 := by
        simpa [ElfFile.complete] using hread
      obtain rfl := Option.some.inj hcall
      obtain ⟨hva, hvalid, hpa, -⟩ := walkaddr_some h.grown.ok hwalk hne
      have hva' : loadAddr ph k < 2 ^ 63 := hva.trans_le ((Vmem.MAXVA_le arch).trans (by decide))
      obtain ⟨q, rfl, -⟩ := h.grown.ok.held (.leaf pid (loadAddr ph k / PGSIZE)) pa ⟨hvalid, hpa⟩
      have hroom : (f.read (ph.loadRead k).1 (ph.loadRead k).2).length ≤ PGSIZE := by
        rw [hlen]
        exact Nat.min_le_right _ _
      refine ⟨h.grown.withMem _, h.safe, h.given, fun v hv hnew => ?_, h.early, fun v hv o ho => ?_⟩
      · obtain ⟨q', hpa', huser, hlive, hnot, hbytes⟩ := h.page v hv hnew
        refine ⟨q', hpa', huser, hlive, hnot, fun o ho => ?_⟩
        obtain ⟨hdiv, hmod⟩ := page_offset v ho
        refine (store_mem hroom ho).trans ?_
        by_cases hpage : v = loadAddr ph k / PGSIZE
        · have hqq : q' = q := by
            refine Pmem.pageAddr_inj (s := t.pmem) ?_
            rw [← hpa', ← hpa, ← hpage]
          rw [afterRound_page hk hva' hbase (by rw [hdiv, hpage]), hmod, hlen, hbytes o ho]
          by_cases hread : o < (ph.loadRead k).2
          · rw [if_pos ⟨hqq, hread⟩, if_pos hread]
            exact read_byte hlen hread
          · rw [if_neg fun h => hread h.2, if_neg hread]
        · have hqq : q' ≠ q := by
            rintro rfl
            exact hpage (h.own hv hnew hvalid (hpa'.trans hpa.symm))
          rw [afterRound_other hk hva' hbase (by rwa [hdiv]), if_neg fun h => hqq h.1]
          exact hbytes o ho
      · have hpage : v ≠ loadAddr ph k / PGSIZE := by
          rintro rfl
          exact absurd hvalid (by rw [show (t.leaf pid (loadAddr ph k / PGSIZE)).valid = false from hv]; decide)
        rw [afterRound_other hk hva' hbase (by rwa [(page_offset v ho).1])]
        exact h.blank v hv o ho

theorem Inv.congr {B' : Nat → UInt8} (h : Inv arch pid f s live₀ i B t live) (heq : ∀ a, B' a = B a) :
    Inv arch pid f s live₀ i B' t live := by
  obtain rfl : B' = B := funext heq
  exact h

/-- One round more. -/
theorem afterFrom_succ (f : ElfBytes) (ph : ProgramHeader) (k : Nat) (B : Nat → UInt8) (a : Nat) :
    afterFrom f ph k B a = afterFrom f ph (k + 1) (afterRound f ph k B) a := by
  unfold afterFrom afterRound
  rcases Nat.lt_trichotomy ((loadIndex ph a).getD 0 / PGSIZE) k with hlt | heq | hgt
  · rw [if_neg (by omega), if_neg (by omega), if_neg (by omega)]
  · rw [if_pos (by omega), if_neg (by omega), if_pos heq]
  · rw [if_pos (by omega), if_pos (by omega), if_neg (by omega)]

/-- The rounds from the `k`th on. -/
theorem Inv.loadPages (h : Inv arch pid f s live₀ i B t live) (hn : k + n = ph.loadPages)
    (hk : ph.loadSize ≤ 2 ^ 32 - PGSIZE) (hbase : pgRoundDown ph.vaddr + ph.loadSize < 2 ^ 64)
    (hcall : loadPages arch pid f ph n k t = some u) : Inv arch pid f s live₀ i (afterFrom f ph k B) u live := by
  induction n generalizing k t B with
  | zero =>
    obtain rfl : t = u := Option.some.inj hcall
    refine h.congr fun a => ?_
    unfold afterFrom
    by_cases hlast : k ≤ (loadIndex ph a).getD 0 / PGSIZE
    · rw [if_pos hlast]
      cases hindex : loadIndex ph a with
      | none => rw [brings_none hindex, Option.getD_none]
      | some j =>
        -- no `i` is behind the last page
        have hj : j < ph.loadSize := by
          unfold loadIndex at hindex
          dsimp only at hindex
          split at hindex
          · rename_i hcond
            rw [← Option.some.inj hindex]
            exact hcond.2.2
          · cases hindex
        rw [hindex, Option.getD_some] at hlast
        simp only [ProgramHeader.loadPages, PGSIZE] at hn hlast
        omega
    · rw [if_neg hlast]
  | succ n ih =>
    obtain ⟨t₁, hround, hcall⟩ := Option.bind_eq_some_iff.mp hcall
    have hsize : k * PGSIZE < ph.loadSize := by
      simp only [ProgramHeader.loadPages, PGSIZE] at hn ⊢
      omega
    have h₁ := h.loadPage (by simp only [PGSIZE] at *; omega) (by omega) hround
    exact (ih h₁ (by omega) hcall).congr (afterFrom_succ f ph k B)

/-- `loadseg` puts the bytes of the file where it loads. -/
theorem Inv.loadseg (h : Inv arch pid f s live₀ i B t live) (hsizes : ph.filesz ≤ ph.memsz)
    (hfits : ph.vaddr + ph.memsz < 2 ^ 64) (hcall : loadseg arch pid f ph t = some u) :
    Inv arch pid f s live₀ i (fun a => (brings f ph a).getD (B a)) u live := by
  unfold Load.loadseg at hcall
  split at hcall
  · cases hcall
  · rename_i hsize
    have hle : ph.loadSize ≤ ph.filesz + ph.vaddr % PGSIZE := Nat.mod_le _ _
    have hbase : pgRoundDown ph.vaddr + ph.loadSize < 2 ^ 64 := by
      simp only [pgRoundDown, PGSIZE] at *
      omega
    refine (h.loadPages (Nat.zero_add _) (Nat.not_lt.mp hsize) hbase hcall).congr fun a => ?_
    rw [afterFrom, if_pos (Nat.zero_le _)]

/-! ## The loop over the headers -/

theorem lastByte_succ (a : Nat) : lastByte f a (n + 1) =
    if (f.program n).type = ELF_PROG_LOAD then (brings f (f.program n) a).getD (lastByte f a n) else lastByte f a n :=
  rfl

/-- A header of a segment that the loop tries to load. -/
theorem loadHeader_tries (h : f.Tries i) :
    loadHeader arch pid f i t = (grow arch pid f i t).bind fun r => loadseg arch pid f (f.program i) r.2 := by
  unfold loadHeader
  dsimp only
  rw [if_neg (by rw [h.complete]; decide), if_neg (not_not.mpr h.loads.2), if_neg (Nat.not_lt.mpr h.sizes),
    if_neg (Nat.not_le.mpr h.fits)]

/-- A header, if there is memory for its segment. -/
theorem Inv.loadHeader (h : Inv arch pid f s live₀ i (fun a => lastByte f a i) t live) (hi : i < f.header.phnum)
    (hpages : s.pmem.totalPages < 2 ^ 31)
    (hreq : f.Tries i → t.pmem.AllocSafe (toInt32 (endPage (f.program i) - firstPage (f.program i))))
    (hmeets : f.Tries i → GrowMeets arch pid f s i t) (hcall : loadHeader arch pid f i t = some u) :
    ∃ live', Inv arch pid f s live₀ (i + 1) (fun a => lastByte f a (i + 1)) u live' := by
  unfold Load.loadHeader at hcall
  dsimp only at hcall
  split at hcall
  · cases hcall
  · rename_i hread
    split at hcall
    · rename_i htype
      obtain rfl := Option.some.inj hcall
      refine ⟨live, (h.skip fun hloads => htype hloads.2).congr fun a => ?_⟩
      rw [lastByte_succ, if_neg htype]
    · rename_i htype
      split at hcall
      · cases hcall
      · rename_i hsizes
        split at hcall
        · cases hcall
        · rename_i hfits
          have htries : f.Tries i := ⟨⟨hi, not_not.mp htype⟩, eq_true_of_ne_false hread, Nat.not_lt.mp hsizes,
            Nat.not_le.mp hfits⟩
          obtain ⟨⟨r, v⟩, hgrow, hcall⟩ := Option.bind_eq_some_iff.mp hcall
          obtain ⟨r', v', live', hgrow', hinv⟩ := grow_inv h htries hpages (hreq htries) (hmeets htries)
          obtain rfl : v = v' := (Prod.mk.inj (Option.some.inj (hgrow.symm.trans hgrow'))).2
          refine ⟨live', (hinv.loadseg htries.sizes htries.fits hcall).congr fun a => ?_⟩
          rw [lastByte_succ, if_pos (not_not.mp htype)]

/-- The first `n` headers. -/
theorem Inv.loadTo (h : s.Ok arch live) (hsafe : s.Safe) (hpages : s.pmem.totalPages < 2 ^ 31)
    (hreq : ∀ i t, loadTo arch pid f i s = some t → f.Tries i →
      t.pmem.AllocSafe (toInt32 (endPage (f.program i) - firstPage (f.program i))))
    (hmeets : ∀ i < n, ∀ t, loadTo arch pid f i s = some t → f.Tries i → GrowMeets arch pid f s i t)
    (hn : n ≤ f.header.phnum) (hcall : loadTo arch pid f n s = some t) :
    ∃ live', Inv arch pid f s live n (fun a => lastByte f a n) t live' := by
  induction n generalizing t with
  | zero =>
    obtain rfl : s = t := Option.some.inj hcall
    exact ⟨live, .start h hsafe⟩
  | succ n ih =>
    obtain ⟨t₁, hprev, hheader⟩ := Option.bind_eq_some_iff.mp hcall
    obtain ⟨live₁, hinv⟩ := ih (fun i hi => hmeets i (Nat.lt_succ_of_lt hi)) (Nat.le_of_succ_le hn) hprev
    exact hinv.loadHeader hn hpages (hreq n t₁ hprev) (hmeets n (Nat.lt_succ_self n) t₁ hprev) hheader

/-! ## The image -/

/-- What the user reads in a page that was taken since the start. -/
theorem Inv.userByte (h : Inv arch pid f s live₀ i B t live) (hv : (t.leaf pid (a / PGSIZE)).valid = true)
    (hnew : (s.leaf pid (a / PGSIZE)).valid = false) : userByte arch pid a t = some (B a) := by
  obtain ⟨q, hpa, huser, ⟨b, hb, hqb⟩, -, hbytes⟩ := h.page _ hv hnew
  obtain ⟨hmax, -⟩ := h.early _ hv hnew
  have hplaced := h.grown.ok.wf.placed hb
  have hne : t.pmem.pageAddr q ≠ 0 := Pmem.pageAddr_ne_zero (hplaced.mem_lt hqb) (hplaced.meta_le_mem hqb)
  have hlow : ¬a ≥ MAXVA arch := by
    have hmod : MAXVA arch % PGSIZE = 0 := by cases arch <;> decide
    simp only [PGSIZE] at *
    omega
  have hwalk : walkaddr arch pid a t = some (t.pmem.pageAddr q) := by
    rw [walkaddr, if_neg hlow]
    dsimp only
    rw [Vmem.pteAt_of_valid h.grown.ok hv, if_neg (by rw [hv]; decide), if_neg huser, hpa]
  have hbyte := hbytes (a % PGSIZE) (Nat.mod_lt _ (by decide))
  rw [Nat.div_add_mod'] at hbyte
  rw [Load.userByte, hwalk, Option.bind_some, if_neg hne, hbyte]

/-- The image of a segment that has its pages. -/
theorem Inv.segment (h : Inv arch pid f s live₀ f.header.phnum B t live) (hloads : f.Loads i)
    (hj : j < (f.program i).memsz) :
    Load.userByte arch pid ((f.program i).vaddr + j) t = some (B ((f.program i).vaddr + j)) := by
  obtain ⟨hv, hnew⟩ := h.given i hloads.1 hloads (((f.program i).vaddr + j) / PGSIZE)
    (Nat.div_le_div_right (Nat.le_add_right _ _))
    (by
      simp only [endPage, pageCeil, PGSIZE]
      omega)
  exact h.userByte hv hnew

theorem load_ne_fails : load arch pid f s ≠ .fails := by
  unfold load
  split
  · exact fun h => by cases h
  · exact fun h => by cases h

theorem load_eq_loaded : load arch pid f s = .loaded t ↔ loadTo arch pid f f.header.phnum s = some t := by
  unfold load
  constructor
  · intro h
    split at h
    · cases h
      assumption
    · cases h
  · intro h
    rw [h]

/-- A file of `size` bytes. -/
def fileOf (size : Nat) (byte : Nat → UInt8) : ElfBytes where
  read off n := (List.range (min n (size - off))).map fun k => byte (off + k)
  byte := byte
  agrees off n k b h := by
    rw [List.getElem?_map, Option.map_eq_some_iff] at h
    obtain ⟨j, hj, rfl⟩ := h
    rw [(List.getElem?_eq_some_iff.mp hj).2.symm, List.getElem_range]

/-- A file of the headers only, with the segments [0x1000, 0x1028), for which it has 0x20 bytes, and [0x1028, 0x102C),
or with the first of them. -/
def segmentFile (phnum : UInt8) : ElfBytes :=
  fileOf 176 fun a =>
    ([(0, 0x7F), (1, 0x45), (2, 0x4C), (3, 0x46), (32, 64), (54, 56), (56, phnum),
      (64, 1), (68, 6), (81, 0x10), (96, 0x20), (104, 0x28),
      (120, 1), (124, 6), (128, 0x28), (136, 0x28), (137, 0x10), (152, 4), (160, 4)].lookup a).getD 0

theorem segmentFile_program :
    (segmentFile 1).program 0 = ⟨1, 0, 0x1000, 0x20, 0x28⟩ ∧
      (segmentFile 2).program 0 = ⟨1, 0, 0x1000, 0x20, 0x28⟩ ∧
      (segmentFile 2).program 1 = ⟨1, 0x28, 0x1028, 4, 4⟩ := ⟨rfl, rfl, rfl⟩

end SC7.Load
