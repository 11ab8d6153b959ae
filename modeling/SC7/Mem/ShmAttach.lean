-- SUMMARY: `mmap` with `MAP_SHARED` and `shmat` attach a segment.
import SC7.Mem.ShmFork

/-!
# Attaching a segment

`mmap` with `MAP_SHARED` enters a page into its new segment for every page that it maps. The first
`shmat` of a segment maps new pages and enters them, a later one maps those that are there. Both need
a place in which no page is mapped yet and that `fork` does not fill on its own account.
-/

namespace SC7

open Function (update update_of_ne update_self)

variable {arch : Arch} {shm shm' : Nat → ShmidKernel} {origin : Nat → Nat} {mm mm' : Mm} {v w : Vma}
  {lo hi shp : Nat}

/-- A range of whole pages. -/
structure PageRange (lo hi : Nat) : Prop where
  lo_mod : lo % PGSIZE = 0
  hi_mod : hi % PGSIZE = 0
  lt : lo < hi
  bound : hi < 2 ^ 64
  len : hi ≤ lo + 2 ^ 63

/-- The new area is put in its place; the pages of the others stay. -/
theorem Shares.attach {before after : List Vma} (h : Shares arch shm origin mm)
    (hrange : PageRange lo hi) (hlist : before ++ after = mm.vmas) (hvmas : mm'.vmas = before ++ w :: after)
    (hsz : mm'.sz = mm.sz) (haddr : w.addr = lo) (hend : w.end_ = hi) (hbefore : ∀ v ∈ before, v.end_ ≤ lo)
    (hafter : ∀ v ∈ after, hi ≤ v.addr) (hleaf : ∀ vpn, ¬InRange lo hi vpn → mm'.leaf vpn = mm.leaf vpn)
    (hkept : ShmKept shm shm')
    (hw : Space.TakesShared w → SharedOk arch shm' (attachedAt lo hi origin) mm' w) :
    Shares arch shm' (attachedAt lo hi origin) mm' := by
  have hout : ∀ v ∈ mm.vmas, ∀ vpn, v.HasPage vpn → ¬InRange lo hi vpn := by
    rintro v hv vpn ⟨hvlo, hvhi⟩ ⟨hrlo, hrhi⟩
    rw [← hlist] at hv
    rcases List.mem_append.mp hv with hv | hv
    · have := hbefore v hv
      omega
    · have := hafter v hv
      omega
  have hmem : ∀ v ∈ mm'.vmas, v = w ∨ v ∈ mm.vmas := by
    intro v hv
    rw [hvmas] at hv
    rw [← hlist]
    rcases List.mem_append.mp hv with hv | hv
    · exact .inr (List.mem_append_left _ hv)
    · exact (List.mem_cons.mp hv).imp_right fun hv => List.mem_append_right _ hv
  constructor
  · rw [hvmas]
    have hsorted := h.sorted
    rw [← hlist] at hsorted
    refine hsorted.insert ⟨?_, ?_, ?_⟩ (by rwa [haddr]) (by rwa [hend]) <;> rw [hend]
    · rw [haddr]
      exact hrange.lt.le
    · exact hrange.bound
    · rw [haddr]
      exact hrange.len
  · intro v hv
    rcases hmem v hv with rfl | hv
    · rw [haddr, hend]
      exact ⟨hrange.lo_mod, hrange.hi_mod⟩
    · exact h.aligned v hv
  · intro v hv hsh
    rcases hmem v hv with rfl | hv
    · exact hw hsh
    have hok := (h.shared v hv hsh).kept hkept
    exact
      { hok with
        heap := by rw [hsz]; exact hok.heap
        origin := fun vpn hp => by
          rw [attachedAt, if_neg (hout v hv vpn hp)]
          exact hok.origin vpn hp
        backed := hok.backed.outside fun vpn hp => hleaf vpn (hout v hv vpn hp) }

/-- The new area itself. -/
theorem SharedOk.new (haddr : w.addr = lo) (hend : w.end_ = hi)
    (hcount : Vmem.pageCeil w.size = (hi - lo) / PGSIZE)
    (hsome : (shm w.shmKernel).shmPages.isSome = true)
    (hlength : ((shm w.shmKernel).shmPages.getD []).length = Vmem.pageCeil (shm w.shmKernel).size)
    (hsize : (shm w.shmKernel).size < 2 ^ 31) (hfits : Vmem.pageCeil w.size ≤ Vmem.pageCeil (shm w.shmKernel).size)
    (hattached : (shm w.shmKernel).attaches ≠ NULL) (hflags : w.flags = 0) (hheap : mm.sz ≤ lo)
    (hfree : ∀ vpn, InRange lo hi vpn → ¬Reserved arch vpn) (hbacked : Backed shm mm.leaf w) :
    SharedOk arch shm (attachedAt lo hi origin) mm w := by
  have hpage : ∀ vpn, w.HasPage vpn → InRange lo hi vpn := fun vpn hp => ⟨haddr ▸ hp.1, hend ▸ hp.2⟩
  constructor
  · rw [haddr, hend]
    exact hcount
  · rwa [hlength]
  · exact hsome
  · exact hlength
  · exact hsize
  · exact hattached
  · rw [hflags]
    decide
  · rwa [haddr]
  · exact fun vpn hp => hfree vpn (hpage vpn hp)
  · intro vpn hp
    rw [attachedAt, if_pos (hpage vpn hp), haddr]
  · exact hbacked

namespace Space

variable {s s' t : Space} {z : Focus} {i pa vpn flags addr perm start offset end_ n : Nat} {size len fd prot r : Int}
  {env : FileEnv} {x : Vma} {L : List Vma}

/-- What the allocator promises: a page that it hands out is not a segment in use, and lies in
physical memory. -/
structure Supplies (s : Space) : Prop where
  fresh : ∀ n, (s.shm (s.supply n)).shmPages = none
  bound : ∀ n, s.supply n < 2 ^ 63

theorem Supplies.same (h : Supplies s) (hsame : SameShm s s') : Supplies s' := by
  obtain ⟨k, hk⟩ := hsame.supply
  refine ⟨fun n => ?_, fun n => ?_⟩
  · rw [hsame.shm, hk]
    exact h.fresh _
  · rw [hk]
    exact h.bound _

/-! ## The pages of a new segment -/

/-- Only the segment `shp` and the pages `P` change. -/
structure Grows (shp : Nat) (P : Nat → Prop) (s s' : Space) : Prop where
  others : ∀ q, q ≠ shp → s'.shm q = s.shm q
  size : (s'.shm shp).size = (s.shm shp).size
  attaches : (s'.shm shp).attaches = (s.shm shp).attaches
  some : (s'.shm shp).shmPages.isSome = (s.shm shp).shmPages.isSome
  length : ((s'.shm shp).shmPages.getD []).length = ((s.shm shp).shmPages.getD []).length
  sz : s'.sz = s.sz
  vmas : s'.vmas = s.vmas
  outside : ∀ vpn, ¬P vpn → s'.leaf vpn = s.leaf vpn

namespace Grows

variable {P Q : Nat → Prop}

theorem of_eq (hshm : s'.shm = s.shm) (hsz : s'.sz = s.sz) (hvmas : s'.vmas = s.vmas)
    (hleaf : ∀ vpn, ¬P vpn → s'.leaf vpn = s.leaf vpn) : Grows shp P s s' where
  others q _ := by rw [hshm]
  size := by rw [hshm]
  attaches := by rw [hshm]
  some := by rw [hshm]
  length := by rw [hshm]
  sz := hsz
  vmas := hvmas
  outside := hleaf

theorem refl : Grows shp P s s := of_eq rfl rfl rfl fun _ _ => rfl

theorem trans (h₁ : Grows shp P s s') (h₂ : Grows shp P s' t) : Grows shp P s t where
  others q hq := (h₂.others q hq).trans (h₁.others q hq)
  size := h₂.size.trans h₁.size
  attaches := h₂.attaches.trans h₁.attaches
  some := h₂.some.trans h₁.some
  length := h₂.length.trans h₁.length
  sz := h₂.sz.trans h₁.sz
  vmas := h₂.vmas.trans h₁.vmas
  outside vpn hp := (h₂.outside vpn hp).trans (h₁.outside vpn hp)

theorem mono (h : Grows shp P s s') (hPQ : ∀ vpn, P vpn → Q vpn) : Grows shp Q s s' :=
  { h with outside := fun vpn hq => h.outside vpn fun hp => hq (hPQ vpn hp) }

/-- The array of the segment gets a page. -/
theorem setShmPage {i pa : Nat} : Grows shp P s (setShmPage shp i pa s) := by
  constructor
  · exact fun q hq => update_of_ne hq _ _
  all_goals try exact fun _ _ => rfl
  all_goals try rfl
  all_goals simp only [Space.setShmPage, setShm, update_self]
  · cases (s.shm shp).shmPages <;> rfl
  · cases (s.shm shp).shmPages with
    | none => rfl
    | some pages => exact List.length_set

end Grows

/-- After `shp->shm_pages[i] = pa`. -/
theorem segPage_setShmPage {j : Nat} (hi : i < ((s.shm shp).shmPages.getD []).length) :
    segPage (setShmPage shp i pa s).shm shp j = if j = i then pa else segPage s.shm shp j := by
  unfold segPage
  simp only [setShmPage, setShm, update_self]
  cases hpages : (s.shm shp).shmPages with
  | none =>
    rw [hpages] at hi
    cases hi
  | some pages =>
    rw [hpages, Option.getD_some] at hi
    simp only [Option.map_some, Option.getD_some, List.getD_eq_getElem?_getD]
    by_cases heq : j = i
    · rw [heq, if_pos rfl, List.getElem?_set_self hi]
      rfl
    · rw [if_neg heq, List.getElem?_set_ne (Ne.symm heq)]

/-- The number of a page of the area. -/
theorem index_eq (hp : v.HasPage vpn) : vpn - v.addr / PGSIZE = i ↔ vpn = v.addr / PGSIZE + i := by
  have hlo := hp.1
  simp only [PGSIZE] at *
  omega

/-- A page is entered into the segment and mapped at its address. -/
theorem backed_enter {leaf : Nat → Pte} (hb : Backed s.shm leaf v)
    (hshp : v.shmKernel = shp) (hi : i < ((s.shm shp).shmPages.getD []).length) (hne : pa ≠ 0) :
    Backed (setShmPage shp i pa s).shm (update leaf (v.addr / PGSIZE + i) ⟨pa, flags⟩) v := by
  intro vpn hp hv
  rw [hshp, segPage_setShmPage hi]
  by_cases heq : vpn = v.addr / PGSIZE + i
  · rw [if_pos ((index_eq hp).mpr heq), heq, update_self]
    exact ⟨rfl, hne⟩
  · rw [update_of_ne heq] at hv ⊢
    rw [if_neg fun hidx => heq ((index_eq hp).mp hidx), ← hshp]
    exact hb vpn hp hv

section Loops

variable {va i n perm : Nat} {ok : Bool} {env : FileEnv}

/-- The pages of the area from the one with the number `i` on, `n` of them. -/
def PagesOf (v : Vma) (i n vpn : Nat) : Prop := PagesFrom (v.addr / PGSIZE + i) n vpn

theorem PagesOf.first : PagesOf v i (n + 1) (v.addr / PGSIZE + i) := PagesFrom.first

theorem PagesOf.rest {vpn : Nat} (h : PagesOf v (i + 1) n vpn) : PagesOf v i (n + 1) vpn := by
  unfold PagesOf PagesFrom at *
  omega

/-- The loop of `mmap` for a shared mapping. -/
theorem sharedLoop_grows (hva : va = (v.addr / PGSIZE + i) * PGSIZE) (hshp : v.shmKernel = shp)
    (hfits : i + n ≤ ((s.shm shp).shmPages.getD []).length) (hb : Backed s.shm s.leaf v)
    (h : sharedLoop arch perm shp n i va s = some (ok, s')) :
    Grows shp (PagesOf v i n) s s' ∧ Backed s'.shm s'.leaf v := by
  induction n generalizing i va s with
  | zero =>
    cases h
    exact ⟨.refl, hb⟩
  | succ n ih =>
    rw [sharedLoop, hva] at h
    dsimp only at h
    split at h
    · cases h
      exact ⟨.of_eq rfl rfl rfl fun _ _ => rfl, hb⟩
    rename_i hne
    obtain ⟨⟨r, t⟩, hmap, hrest⟩ := Option.bind_eq_some_iff.mp h
    have hlt : (v.addr / PGSIZE + i) * PGSIZE < MAXVA arch := by
      by_contra hge
      rw [mappages, Leaf.mappages, if_pos (.inl (not_lt.mp hge))] at hmap
      cases hmap
    obtain ⟨⟨r', leaf⟩, hone, heq⟩ := Option.map_eq_some_iff.mp hmap
    cases heq
    dsimp only at hrest
    rcases Leaf.mappages_one page_mod hone with ⟨rfl, -, rfl⟩ | ⟨rfl, -, rfl⟩
    · rw [if_pos (by decide)] at hrest
      cases hrest
      exact ⟨.of_eq rfl rfl rfl fun _ _ => rfl, hb⟩
    · rw [if_neg (by decide), page_div, next_page_lt hlt, Nat.add_assoc] at hrest
      -- the space with the new page mapped, before it is entered
      generalize hu : ({ s.alloc.2 with leaf := _ } : Space) = u at hrest
      have hushm : u.shm = s.shm := by rw [← hu]; rfl
      have huleaf : u.leaf = update s.leaf (v.addr / PGSIZE + i)
          ⟨s.alloc.1, (perm ||| PTE_U arch ||| PTE_R arch) ||| PTE_V⟩ := by rw [← hu]; rfl
      have hmapped : Grows shp (PagesOf v i (n + 1)) s u := by
        refine .of_eq hushm (by rw [← hu]; rfl) (by rw [← hu]; rfl) fun vpn hp => ?_
        rw [huleaf, update_of_ne]
        rintro rfl
        exact hp .first
      have hgrows : Grows shp (PagesOf v i (n + 1)) s (setShmPage shp i s.alloc.1 u) :=
        hmapped.trans .setShmPage
      have hbacked : Backed (setShmPage shp i s.alloc.1 u).shm (setShmPage shp i s.alloc.1 u).leaf v := by
        have hleaf : (setShmPage shp i s.alloc.1 u).leaf = u.leaf := rfl
        rw [hleaf, huleaf]
        refine backed_enter (by rwa [hushm]) hshp ?_ hne
        rw [hushm]
        omega
      obtain ⟨hrestg, hrestb⟩ := ih rfl (by rw [hgrows.length]; omega) hbacked hrest
      exact ⟨hgrows.trans (hrestg.mono fun _ => PagesOf.rest), hrestb⟩

theorem experm_grows (arch : Arch) (shp va perm : Nat) (s : Space) : Grows shp (· = va / PGSIZE) s (s.experm arch va perm).2 ∧
    ∀ {v : Vma}, Backed s.shm s.leaf v →
      Backed (s.experm arch va perm).2.shm (s.experm arch va perm).2.leaf v := by
  unfold experm
  dsimp only
  split
  · exact ⟨.refl, id⟩
  split
  · exact ⟨.refl, id⟩
  rename_i hvalid
  split
  · exact ⟨.refl, id⟩
  refine ⟨.of_eq rfl rfl rfl fun vpn hp => update_of_ne hp _ _, fun {v} hb vpn hp hv => ?_⟩
  dsimp only [setLeaf] at hv ⊢
  by_cases heq : vpn = va / PGSIZE
  · subst heq
    rw [update_self]
    exact hb _ hp (Bool.eq_true_of_not_eq_false hvalid)
  · rw [update_of_ne heq] at hv ⊢
    exact hb vpn hp hv

/-- Reading the file adds rights to pages that are there. -/
theorem sharedRead_grows (arch : Arch) (shp perm : Nat) (env : FileEnv)
    (hva : va = (v.addr / PGSIZE + i) * PGSIZE)
    (hwrap : (v.addr / PGSIZE + i + n) * PGSIZE < 2 ^ 64) (hb : Backed s.shm s.leaf v) :
    Grows shp (PagesOf v i n) s (sharedRead arch env perm n va s).2 ∧
      Backed (sharedRead arch env perm n va s).2.shm (sharedRead arch env perm n va s).2.leaf v := by
  induction n generalizing i va s with
  | zero => exact ⟨.refl, hb⟩
  | succ n ih =>
    rw [sharedRead, hva, next_page hwrap]
    obtain ⟨hgrows, hbacked⟩ := experm_grows arch shp ((v.addr / PGSIZE + i) * PGSIZE) perm s
    have hfirst : Grows shp (PagesOf v i (n + 1)) s
        (s.experm arch ((v.addr / PGSIZE + i) * PGSIZE) perm).2 := by
      refine hgrows.mono fun vpn hp => ?_
      rw [hp, page_div]
      exact .first
    split
    · exact ⟨hfirst, hbacked hb⟩
    · have hwrap' : (v.addr / PGSIZE + (i + 1) + n) * PGSIZE < 2 ^ 64 := by
        have hnext : v.addr / PGSIZE + (i + 1) + n = v.addr / PGSIZE + i + (n + 1) := by omega
        rwa [hnext]
      obtain ⟨hrestg, hrestb⟩ := ih rfl hwrap' (hbacked hb)
      rw [← Nat.add_assoc] at hrestg hrestb
      exact ⟨hfirst.trans (hrestg.mono fun _ => PagesOf.rest), hrestb⟩

/-- `mmap` with `MAP_SHARED`, once the area and the segment are there. -/
theorem sharedMap_grows {f : Option File} {len fsize r : Int} (hshp : v.shmKernel = shp)
    (hal : v.addr % PGSIZE = 0) (hlen : 0 < len) (hwrap : v.addr + len ≤ 2 ^ 64 - PGSIZE)
    (hfits : rounds len ≤ ((s.shm shp).shmPages.getD []).length) (hsize : f.isSome = true → 0 ≤ fsize)
    (hb : Backed s.shm s.leaf v)
    (h : sharedMap arch env v.addr len perm f fsize shp z v s = some (r, s')) :
    ∃ size, Grows shp (PagesOf v 0 (rounds len)) (s.setVmas (z.put { v with fsize := size })) s' ∧
      Backed s'.shm s'.leaf { v with fsize := size } := by
  have haddr : v.addr / PGSIZE * PGSIZE = v.addr := Nat.div_mul_cancel (Nat.dvd_of_mod_eq_zero hal)
  have hlt : len < 2 ^ 64 := by
    simp only [PGSIZE] at hwrap
    omega
  have hmono : ∀ {m : Int}, 0 ≤ m → m ≤ len → rounds m ≤ rounds len := fun h0 hle => rounds_mono h0 hle hlt
  have hend : ∀ {m : Int}, 0 ≤ m → m ≤ len → (v.addr / PGSIZE + 0 + rounds m) * PGSIZE < 2 ^ 64 := by
    intro m h0 hle
    rw [Nat.add_zero]
    refine rounds_wrap h0 ?_
    rw [← Nat.cast_mul, haddr]
    exact (Int.add_le_add_left hle _).trans hwrap
  have hsub : ∀ {m : Int}, 0 ≤ m → m ≤ len → ∀ vpn, PagesOf v 0 (rounds m) vpn → PagesOf v 0 (rounds len) vpn := by
    intro m h0 hle vpn hp
    have := hmono h0 hle
    unfold PagesOf PagesFrom at *
    omega
  rw [sharedMap] at h
  split at h
  · cases h
    exact ⟨v.fsize, .refl, hb⟩
  generalize hlen' : (if f.isSome = true then min fsize len else len) = len' at h
  have hbound : 0 ≤ len' ∧ len' ≤ len := by
    rw [← hlen']
    split
    · exact ⟨le_min (hsize ‹_›) hlen.le, min_le_right _ _⟩
    · exact ⟨hlen.le, le_rfl⟩
  obtain ⟨size, hv'⟩ : ∃ size, (if f.isSome = true then { v with fsize := toU64 fsize } else v) =
      { v with fsize := size } := by
    split
    · exact ⟨_, rfl⟩
    · exact ⟨v.fsize, rfl⟩
  dsimp only at h
  rw [hv'] at h
  obtain ⟨⟨ok, s₁⟩, hloop, hrest⟩ := Option.bind_eq_some_iff.mp h
  obtain ⟨hgrows, hbacked⟩ := sharedLoop_grows (v := { v with fsize := size })
    (s := s.setVmas (z.put { v with fsize := size })) (by rw [Nat.add_zero, haddr]) hshp
    (by rw [Nat.zero_add]; exact (hmono hbound.1 hbound.2).trans hfits) hb hloop
  have hgrows : Grows shp (PagesOf v 0 (rounds len)) (s.setVmas (z.put { v with fsize := size })) s₁ :=
    hgrows.mono (hsub hbound.1 hbound.2)
  refine ⟨size, ?_⟩
  dsimp only at hrest
  split at hrest
  · cases hrest
    exact ⟨hgrows, hbacked⟩
  split at hrest
  · cases hrest
    exact ⟨hgrows, hbacked⟩
  rename_i hfile
  split at hrest
  · cases hrest
    exact ⟨hgrows, hbacked⟩
  · cases hrest
    have h0 : 0 ≤ min len' fsize := le_min hbound.1 (hsize (Option.isSome_iff_ne_none.mpr hfile))
    have hle : min len' fsize ≤ len := (min_le_left _ _).trans hbound.2
    obtain ⟨hreadg, hreadb⟩ := sharedRead_grows arch shp perm env (i := 0) (by rw [Nat.add_zero, haddr])
      (hend h0 hle) hbacked
    exact ⟨hgrows.trans (hreadg.mono (hsub h0 hle)), hreadb⟩

end Loops

/-! ## `mmap` -/

/-- A new segment in a place where there was none. -/
theorem kept_of_fresh (hnone : (shm shp).shmPages = none) (hothers : ∀ q, q ≠ shp → shm' q = shm q)
    (hmade : SegMade (shm' shp)) : ShmKept shm shm' where
  kept q hsome hne := by
    have hq : q ≠ shp := by
      rintro rfl
      rw [hnone] at hsome
      cases hsome
    rw [hothers q hq]
    exact ShmKept.refl.kept q hsome hne
  made h q hq := by
    by_cases heq : q = shp
    · rwa [heq]
    · rw [hothers q heq] at hq ⊢
      exact h q hq

theorem noteAttaches_kept (s : Space) : ShmKept s.shm s.noteAttaches.shm where
  kept shp hsome hne := by
    unfold noteAttaches
    dsimp only
    split
    · exact ⟨rfl, hsome, rfl, Nat.one_ne_zero, fun _ _ => rfl⟩
    · exact ShmKept.refl.kept shp hsome hne
  made h shp hsome := by
    unfold noteAttaches at *
    dsimp only at *
    split at hsome
    · rename_i hin
      rw [if_pos hin]
      exact h shp hsome
    · rename_i hin
      rw [if_neg hin]
      exact h shp hsome

/-- Only the note that a segment is attached is new. -/
theorem noteAttaches_same (s : Space) (shp : Nat) :
    (s.noteAttaches.shm shp).shmPages = (s.shm shp).shmPages ∧
      (s.noteAttaches.shm shp).size = (s.shm shp).size := by
  unfold noteAttaches
  dsimp only
  split <;> exact ⟨rfl, rfl⟩

theorem noteAttaches_attached (hv : v ∈ s.vmas) (hsh : v.type = .SHARE) :
    (s.noteAttaches.shm v.shmKernel).attaches ≠ NULL := by
  unfold noteAttaches
  dsimp only
  rw [if_pos ⟨v, hv, hsh, rfl⟩]
  exact Nat.one_ne_zero

theorem newseg_spec (h : newseg size s = some (shp, s')) :
    shp = s.supply 0 ∧ shp ≠ NULL ∧ s'.toMm = s.toMm ∧ (∃ k, ∀ n, s'.supply n = s.supply (n + k)) ∧
      s'.shm = update s.shm shp
        { shmid := shp, size := toU64 size, attachCount := 0, isDeleted := false,
          shmPages := some (List.replicate ((size + PGSIZE - 1) / PGSIZE).toNat 0), attaches := NULL } := by
  obtain ⟨s₁, h₁, h⟩ := Option.bind_eq_some_iff.mp h
  obtain ⟨s₂, h₂, heq⟩ := Option.map_eq_some_iff.mp h
  cases heq
  have hsame := (allocNode_sameShm h₁).trans (allocNode_sameShm h₂)
  refine ⟨rfl, ?_, (allocNode_toMm h₂).trans (allocNode_toMm h₁), hsame.supply, ?_⟩
  · intro hnull
    rw [allocNode, if_pos hnull] at h₁
    cases h₁
  · dsimp only [setShm]
    rw [hsame.shm]

theorem newseg_kept (hs : Supplies s) (hlo : -2 ^ 31 ≤ size) (hhi : size < 2 ^ 31)
    (h : newseg size s = some (shp, s')) : ShmKept s.shm s'.shm := by
  obtain ⟨hshp, -, -, -, hshm⟩ := newseg_spec h
  refine kept_of_fresh (hshp ▸ hs.fresh 0) (fun q hq => ?_) ?_
  · rw [hshm, update_of_ne hq]
  · rw [hshm, update_self]
    exact ⟨size, hlo, hhi, rfl, List.length_replicate⟩

/-- A range in which a shared mapping can be put. -/
structure Attachable (arch : Arch) (lo hi : Nat) (s : Space) : Prop extends PageRange lo hi where
  areas : ∀ v ∈ s.vmas, ∀ vpn, InRange lo hi vpn → ¬v.HasPage vpn
  unmapped : ∀ vpn, InRange lo hi vpn → (s.leaf vpn).valid = false
  free : ∀ vpn, InRange lo hi vpn → ¬Reserved arch vpn
  heap : s.sz ≤ lo

theorem Attachable.not_contained (h : Attachable arch lo hi s) : ¬Contained lo hi s.vmas := by
  rintro ⟨v, hv, hle, hlt, -, -⟩
  have hlo : lo / PGSIZE * PGSIZE = lo := Nat.div_mul_cancel (Nat.dvd_of_mod_eq_zero h.lo_mod)
  refine h.areas v hv (lo / PGSIZE) ?_ ?_
  · rw [InRange, hlo]
    exact ⟨le_rfl, h.lt⟩
  · rw [Vma.HasPage, hlo]
    exact ⟨hle, hlt⟩

theorem Attachable.same (h : Attachable arch lo hi s) (hsame : SameShm s s') (hvmas : s'.vmas = s.vmas)
    (hleaf : s'.leaf = s.leaf) : Attachable arch lo hi s' :=
  { h with
    areas := by rw [hvmas]; exact h.areas
    unmapped := by rw [hleaf]; exact h.unmapped
    heap := by rw [hsame.sz]; exact h.heap }

/-- The area that `alloc_vma` makes without mapping its pages. -/
theorem allocVma_area (hno : ¬Contained (pgRoundUp addr) (pgRoundUp (toU64 (addr + len))) s.vmas)
    (h : allocVma arch addr len perm false s = some (z, t)) :
    z.vma = VmaMem.initVma Vma.zero .MMAP (pgRoundUp addr) (pgRoundUp (toU64 (addr + len))) len perm ∧
      t.toMm = s.toMm ∧ SameShm s t := by
  rw [allocVma] at h
  split at h
  · cases h
  · rename_i z' hslot
    obtain ⟨hmem, hin⟩ := findSlot_inr hslot
    exact absurd ⟨z'.vma, hmem, hin⟩ hno
  · obtain ⟨s₁, hnode, h⟩ := Option.bind_eq_some_iff.mp h
    obtain ⟨s₂, hmap, heq⟩ := Option.map_eq_some_iff.mp h
    rw [if_neg (by simp)] at hmap
    cases hmap
    cases heq
    exact ⟨rfl, allocNode_toMm hnode, allocNode_sameShm hnode⟩

theorem chooseStart_sameShm (hsz : (s.chooseStart len).2.sz = s.sz) : SameShm s (s.chooseStart len).2 := by
  refine .of_eq ?_ hsz ?_ <;> unfold chooseStart <;> dsimp only <;> split
  · rfl
  · split <;> rfl
  · rfl
  · split <;> rfl

theorem allocMmapVma_area
    (hflags : Bits.has flags MAP_SHARED = true) (hsz : start = 0 → (s.chooseStart len).2.sz = s.sz)
    (hno : ¬Contained (placeStart start len s) (placeEnd start len s) s.vmas)
    (h : allocMmapVma arch flags start len perm fd offset s = some (z, t)) :
    (z.vma.type = .MMAP ∧ z.vma.size = toU64 len ∧ z.vma.flags = 0) ∧
      t.vmas = s.vmas ∧ t.leaf = s.leaf ∧ t.ofile = s.ofile ∧ SameShm s t := by
  have hiso : isalloc flags perm fd = false := by
    unfold isalloc
    have hone : Bits.has flags 0x01 = true := hflags
    rw [hone]
    simp
  rw [allocMmapVma, hiso] at h
  obtain ⟨addr, s₀, hstart⟩ : ∃ addr s₀, (if start = 0 then s.chooseStart len else (start, s)) = (addr, s₀) :=
    ⟨_, _, rfl⟩
  rw [hstart] at h
  obtain ⟨⟨z', s₁⟩, halloc, heq⟩ := Option.map_eq_some_iff.mp h
  cases heq
  obtain ⟨haddr, hvmas, hleaf, hofile, hsame⟩ : mmapAddr start len s = addr ∧ s₀.vmas = s.vmas ∧
      s₀.leaf = s.leaf ∧ s₀.ofile = s.ofile ∧ SameShm s s₀ := by
    unfold mmapAddr
    split at hstart
    · rename_i hzero
      have hs₀ : (s.chooseStart len).2 = s₀ := by rw [hstart]
      rw [if_pos hzero, hstart, ← hs₀]
      refine ⟨rfl, chooseStart_same.1, chooseStart_same.2, ?_, chooseStart_sameShm (hsz hzero)⟩
      unfold chooseStart
      dsimp only
      split
      · rfl
      · split <;> rfl
    · rename_i hzero
      cases hstart
      rw [if_neg hzero]
      exact ⟨rfl, rfl, rfl, rfl, .refl⟩
  unfold placeStart placeEnd at hno
  rw [haddr, ← hvmas] at hno
  obtain ⟨harea, hmm, hsame'⟩ := allocVma_area hno halloc
  refine ⟨?_, ?_, ?_, ?_, hsame.trans hsame'⟩
  · dsimp only
    rw [harea]
    exact ⟨rfl, rfl, rfl⟩
  · exact (congrArg Mm.vmas hmm).trans hvmas
  · exact (congrArg Mm.leaf hmm).trans hleaf
  · exact (congrArg Mm.ofile hmm).trans hofile

/-- The length of a mapping as `newseg` gets it. -/
theorem toInt32_len (hlen : 0 < len) (hint : len < 2 ^ 31) : toU64 len < 2 ^ 31 ∧ toInt32 (toU64 len) = len := by
  have hnat : toU64 len < 2 ^ 31 := by
    simp only [toU64]
    omega
  refine ⟨hnat, ?_⟩
  rw [toInt32_of_lt hnat, toU64]
  omega

/-- The entries that `newseg` makes. -/
theorem newseg_rounds (hlen : 0 < len) (hint : len < 2 ^ 31) : ((len + PGSIZE - 1) / PGSIZE).toNat = rounds len := by
  simp only [rounds, Vmem.pageCeil, toU64, PGSIZE]
  omega

/-- What `mmap` does once the range is free. -/
theorem mmapShared_attaches
    (h : Shares arch s.shm origin s.toMm) (hs : Supplies s) (hlen : 0 < len) (hint : len < 2 ^ 31)
    (hfree : Attachable arch lo hi s) (hlo : placeStart start len s = lo) (hhi : placeEnd start len s = hi)
    (hrange : hi = lo + rounds len * PGSIZE) (hwrap : lo + len ≤ 2 ^ 64 - PGSIZE)
    (hflags : Bits.has flags MAP_SHARED = true) (hsz : start = 0 → (s.chooseStart len).2.sz = s.sz)
    (hsize : fd ≠ -1 → 0 ≤ toInt32 env.stSize)
    (halloc : allocMmapVma arch flags start len perm fd offset s = some (z, t))
    (hpages : mmapPages arch env lo len prot perm flags fd z { z.vma with origProt := prot } t = some (r, s')) :
    Shares arch s'.noteAttaches.shm (attachedAt lo hi origin) s'.toMm ∧
      ShmKept s.shm s'.noteAttaches.shm := by
  have hno := hfree.not_contained
  rw [← hlo, ← hhi] at hno
  obtain ⟨⟨htype, hvsize, hvflags⟩, htvmas, htleaf, -, hsame⟩ := allocMmapVma_area hflags hsz hno halloc
  have hanswer := allocMmapVma_answer h.sorted halloc
  rw [hlo, hhi] at hanswer
  obtain ⟨hlist, haddr, hend, hbefore, hafter⟩ : z.before ++ z.after = s.vmas ∧ z.vma.addr = lo ∧
      z.vma.end_ = hi ∧ (∀ v ∈ z.before, v.end_ ≤ lo) ∧ ∀ v ∈ z.after, hi ≤ v.addr := by
    cases hanswer with
    | new free list addr end_ before after => exact ⟨list, addr, end_, before, after⟩
    | old contained length =>
      rw [hlo, hhi] at hno
      exact absurd contained hno
  have htfree := hfree.same hsame htvmas htleaf
  have hcount : Vmem.pageCeil (toU64 len) = (hi - lo) / PGSIZE := by
    rw [hrange, Nat.add_sub_cancel_left, Nat.mul_div_cancel _ (by decide)]
    rfl
  rw [mmapPages] at hpages
  dsimp only at hpages
  split at hpages
  · -- without rights nothing is shared yet
    cases hpages
    have hput : SameShm t (t.setVmas (z.put { z.vma with origProt := prot })) := .of_eq rfl rfl rfl
    have hkept := (hsame.trans hput).kept.trans (noteAttaches_kept _)
    refine ⟨h.attach hfree.toPageRange hlist rfl hsame.sz haddr hend hbefore hafter (fun vpn _ => ?_) hkept
      (fun hsh => ?_), hkept⟩
    · exact congrFun htleaf vpn
    · have hmmap : z.vma.type = .SHARE := hsh.1
      rw [htype] at hmmap
      cases hmmap
  rw [mmapShared] at hpages
  obtain ⟨⟨shp, s₁⟩, hseg, hmap⟩ := Option.bind_eq_some_iff.mp hpages
  obtain ⟨hshp, hnull, hmm, -, hshm⟩ := newseg_spec hseg
  have hts : Supplies t := hs.same hsame
  obtain ⟨hnat, hlenInt⟩ := toInt32_len hlen hint
  rw [hlenInt] at hshm
  -- the segment has as many pages as the area
  have hlength : ((s₁.shm shp).shmPages.getD []).length = rounds len := by
    rw [hshm, update_self, Option.getD_some, List.length_replicate, newseg_rounds hlen hint]
  have hsegsize : (s₁.shm shp).size = toU64 len := by rw [hshm, update_self]
  have hs₁leaf : s₁.leaf = t.leaf := congrArg Mm.leaf hmm
  have hbacked : Backed s₁.shm s₁.leaf
      { { z.vma with origProt := prot } with type := .SHARE, shmKernel := shp } := by
    rintro vpn ⟨hplo, hphi⟩ hv
    have hin : InRange lo hi vpn := ⟨haddr ▸ hplo, hend ▸ hphi⟩
    rw [hs₁leaf, htfree.unmapped vpn hin] at hv
    cases hv
  have hwrap' : (z.vma.addr : Int) + len ≤ 2 ^ 64 - PGSIZE := by rwa [haddr]
  have hal : z.vma.addr % PGSIZE = 0 := by rw [haddr]; exact hfree.lo_mod
  rw [← haddr] at hmap
  obtain ⟨size, hgrows, hfinal⟩ := sharedMap_grows (v := { { z.vma with origProt := prot } with
      type := .SHARE, shmKernel := shp }) rfl hal hlen hwrap' (by rw [hlength]) (fun hsome => hsize (by
        rintro rfl
        rw [if_pos rfl] at hsome
        cases hsome)) hbacked hmap
  generalize hw : ({ { { z.vma with origProt := prot } with type := .SHARE, shmKernel := shp } with
    fsize := size } : Vma) = w at hgrows hfinal
  have hwshm : w.shmKernel = shp := by rw [← hw]
  have hwaddr : w.addr = lo := by rw [← hw]; exact haddr
  have hwend : w.end_ = hi := by rw [← hw]; exact hend
  have hput : s'.vmas = z.before ++ w :: z.after := hgrows.vmas
  have hmem : w ∈ s'.vmas := by
    rw [hput]
    exact List.mem_append_right _ List.mem_cons_self
  have hkept : ShmKept s.shm s'.shm := by
    have hnone : (s.shm shp).shmPages = none := by
      rw [hshp, ← hsame.shm]
      exact hts.fresh 0
    have hneg : -2 ^ 31 ≤ len := le_trans (by decide) hlen.le
    refine kept_of_fresh hnone (fun q hq => ?_) ⟨len, hneg, hint, ?_, ?_⟩
    · refine (hgrows.others q hq).trans ?_
      dsimp only [setVmas]
      rw [hshm, update_of_ne hq, hsame.shm]
    · exact hgrows.size.trans hsegsize
    · rw [newseg_rounds hlen hint]
      exact hgrows.length.trans hlength
  have hkept' := hkept.trans (noteAttaches_kept s')
  obtain ⟨hnotepages, hnotesize⟩ := noteAttaches_same s' shp
  have hsz' : s'.sz = s.sz := hgrows.sz.trans ((congrArg Mm.sz hmm).trans hsame.sz)
  refine ⟨h.attach hfree.toPageRange hlist hput hsz' hwaddr hwend hbefore hafter (fun vpn hp => ?_) hkept'
    (fun hsh => ?_), hkept'⟩
  · refine (hgrows.outside vpn fun hpage => hp ?_).trans ((congrFun hs₁leaf vpn).trans (congrFun htleaf vpn))
    have hlomod : lo / PGSIZE * PGSIZE = lo := Nat.div_mul_cancel (Nat.dvd_of_mod_eq_zero hfree.lo_mod)
    unfold PagesOf PagesFrom at hpage
    dsimp only at hpage
    rw [haddr] at hpage
    unfold InRange
    simp only [PGSIZE] at *
    omega
  · have hsegEq : s'.noteAttaches.shm shp = s'.noteAttaches.shm w.shmKernel := by rw [hwshm]
    have hlen' : ((s'.shm shp).shmPages.getD []).length = rounds len := hgrows.length.trans hlength
    have hsz'' : (s'.shm shp).size = toU64 len := hgrows.size.trans hsegsize
    refine .new hwaddr hwend ?_ ?_ ?_ ?_ ?_ ?_ ?_ ?_ hfree.free ?_
    · rw [← hcount, ← hvsize, ← hw]
    · rw [hwshm, hnotepages, hgrows.some]
      dsimp only [setVmas]
      rw [hshm, update_self]
      rfl
    · rw [hwshm, hnotepages, hnotesize, hlen', hsz'']
      rfl
    · rw [hwshm, hnotesize, hsz'']
      exact hnat
    · rw [hwshm, hnotesize, hsz'', ← hvsize, ← hw]
    · exact noteAttaches_attached hmem hsh.1
    · rw [← hw]
      exact hvflags
    · rw [hsz']
      exact hfree.heap
    · intro vpn hp hv
      have hpage := hfinal vpn hp hv
      rw [segPage, hwshm] at hpage ⊢
      rwa [hnotepages]

/-! ## `MAP_FIXED` -/

/-- The shared mappings of a space are what is left of those in `vs`. -/
def LeftOf (vs : List Vma) (s : Space) : Prop :=
  ∀ w ∈ s.vmas, TakesShared w → ∃ v ∈ vs, TakesShared v ∧ w.addr = v.addr ∧ w.end_ ≤ v.end_

/-- The range that `munmap` gets for one area does not cut the front off a shared mapping. -/
theorem overlap_cutsBack (hs : Vma.Sorted L) (hx : x ∈ L)
    (hv : v ∈ L) (haddr : w.addr = v.addr) (hend : w.end_ ≤ v.end_)
    (hgt : max x.addr start < min x.end_ end_) (hback : v.Meets start end_ → v.end_ ≤ end_) :
    CutsBack (max x.addr start) (min x.end_ end_) w := by
  rintro ⟨hlo, hhi, hlt⟩
  have hmeets : v.Meets start end_ := ⟨(le_max_right _ _).trans_lt (hlo.trans_le hend), by omega⟩
  have hle := hback hmeets
  -- an address in both areas
  have hboth : v = x := hs.unique hv hx (a := max x.addr v.addr) (by constructor <;> omega)
    (by constructor <;> omega)
  subst hboth
  omega

/-- The range itself consists of whole pages. -/
theorem overlap_range (hstart : start % PGSIZE = 0) (hwrap : end_ < 2 ^ 64)
    (hal : x.addr % PGSIZE = 0 ∧ x.end_ % PGSIZE = 0) (hx : Removable start end_ x)
    (hgt : max x.addr start < min x.end_ end_) :
    pgRoundDown (max x.addr start) = max x.addr start ∧
      munmapEnd (max x.addr start) (toInt32 (min x.end_ end_ - max x.addr start)) = min x.end_ end_ := by
  have hos : max x.addr start % PGSIZE = 0 := by
    rcases max_choice x.addr start with heq | heq <;> rw [heq]
    · exact hal.1
    · exact hstart
  have hoe : min x.end_ end_ % PGSIZE = 0 := by
    rcases hx.boundary with hle | hmod
    · rw [min_eq_left hle]
      exact hal.2
    · rcases min_choice x.end_ end_ with heq | heq <;> rw [heq]
      · exact hal.2
      · exact hmod
  have hlt : min x.end_ end_ < 2 ^ 64 := (min_le_right _ _).trans_lt hwrap
  rw [munmapEnd, toU64_end hgt.le hlt hx.length]
  exact ⟨Nat.div_mul_cancel (Nat.dvd_of_mod_eq_zero hos), Nat.div_mul_cancel (Nat.dvd_of_mod_eq_zero hoe)⟩

theorem toInt32_lt : toInt32 n < 2 ^ 31 := Int.bmod_lt (by decide)

theorem toInt32_ge : -2 ^ 31 ≤ toInt32 n := Int.le_bmod (by decide)

theorem unmapFixed_shares_from {s₀ : Space}
    (h₀ : Shares arch s₀.shm origin s₀.toMm) (hstart : start % PGSIZE = 0) (hwrap : end_ < 2 ^ 64)
    (hL : ∀ v ∈ L, v ∈ s₀.vmas) (hrem : ∀ v ∈ L, v.Meets start end_ → Removable start end_ v)
    (hback : ∀ v ∈ s₀.vmas, TakesShared v → v.Meets start end_ → v.end_ ≤ end_)
    (h : Shares arch s.shm origin s.toMm) (hleft : LeftOf s₀.vmas s)
    (hcall : unmapFixed arch start end_ L s = some s') :
    Shares arch s'.shm origin s'.toMm ∧ SameShm s s' := by
  induction L generalizing s with
  | nil =>
    cases hcall
    exact ⟨h, .refl⟩
  | cons x xs ih =>
    have hL' : ∀ v ∈ xs, v ∈ s₀.vmas := fun v hv => hL v (List.mem_cons_of_mem _ hv)
    have hrem' : ∀ v ∈ xs, v.Meets start end_ → Removable start end_ v :=
      fun v hv => hrem v (List.mem_cons_of_mem _ hv)
    rw [unmapFixed] at hcall
    split at hcall
    · rename_i hov
      have hos : (if x.addr > start then x.addr else start) = max x.addr start := by
        rw [max_def]
        split <;> split <;> omega
      have hoe : (if x.end_ < end_ then x.end_ else end_) = min x.end_ end_ := by
        rw [min_def]
        split <;> split <;> omega
      dsimp only at hcall
      rw [hos, hoe] at hcall
      split at hcall
      · rename_i hgt
        obtain ⟨⟨r, t⟩, hmun, hrest⟩ := Option.bind_eq_some_iff.mp hcall
        have hxr := hrem x List.mem_cons_self ⟨hov.1, hov.2⟩
        obtain ⟨hround, hend⟩ := overlap_range hstart hwrap (h₀.aligned x (hL x List.mem_cons_self)) hxr hgt
        have hcut : ∀ w ∈ s.vmas, TakesShared w → CutsBack (pgRoundDown (max x.addr start))
            (munmapEnd (max x.addr start) (toInt32 (min x.end_ end_ - max x.addr start))) w := by
          intro w hw hsh
          obtain ⟨v, hv, hvsh, haddr, hle⟩ := hleft w hw hsh
          rw [hround, hend]
          exact overlap_cutsBack h₀.sorted (hL x List.mem_cons_self) hv haddr hle hgt (hback v hv hvsh)
        obtain ⟨ht, hsame, hleft'⟩ := munmap_shares h toInt32_lt hcut hmun
        have hleft₀ : LeftOf s₀.vmas t := by
          intro w hw hsh
          obtain ⟨v, hv, hvsh, haddr, hle⟩ := hleft' w hw hsh
          obtain ⟨u, hu, hush, haddr', hle'⟩ := hleft v hv hvsh
          exact ⟨u, hu, hush, haddr.trans haddr', hle.trans hle'⟩
        obtain ⟨hs', hsame'⟩ := ih hL' hrem' ht hleft₀ hrest
        exact ⟨hs', hsame.trans hsame'⟩
      · exact ih hL' hrem' h hleft hcall
    · exact ih hL' hrem' h hleft hcall

/-- Taking areas out of the range keeps the pages of the shared mappings together. -/
theorem unmapFixed_shares (h : Shares arch s.shm origin s.toMm) (hstart : start % PGSIZE = 0) (hwrap : end_ < 2 ^ 64)
    (hrem : ∀ v ∈ s.vmas, v.Meets start end_ → Removable start end_ v)
    (hback : ∀ v ∈ s.vmas, TakesShared v → v.Meets start end_ → v.end_ ≤ end_)
    (hcall : unmapFixed arch start end_ s.vmas s = some s') :
    Shares arch s'.shm origin s'.toMm ∧ SameShm s s' :=
  unmapFixed_shares_from h hstart hwrap (fun _ hv => hv) hrem hback h
    (fun w hw hsh => ⟨w, hw, hsh, rfl, le_rfl⟩) hcall

/-! ## The call -/

/-- A page fits before the end of the addresses. -/
theorem page_room {k : Nat} (h : k * PGSIZE < 2 ^ 64) : k * PGSIZE + PGSIZE ≤ 2 ^ 64 := by
  simp only [PGSIZE] at *
  omega

/-- The range of a mapping that starts at a page boundary. -/
theorem pageRange_of (hal : addr % PGSIZE = 0) (hlen : 0 < len)
    (hint : len < 2 ^ 31) (hwrap : addr + len ≤ 2 ^ 64 - PGSIZE) :
    pgRoundUp addr = addr ∧ pgRoundUp (toU64 (addr + len)) = addr + rounds len * PGSIZE ∧
      PageRange addr (addr + rounds len * PGSIZE) := by
  obtain ⟨lo, rfl⟩ : ∃ lo, addr = lo * PGSIZE := ⟨_, (Nat.div_mul_cancel (Nat.dvd_of_mod_eq_zero hal)).symm⟩
  rw [Nat.cast_mul] at hwrap ⊢
  have hend := pgRoundUp_len hlen hwrap
  have hpos : 0 < rounds len := by
    simp only [rounds, Vmem.pageCeil, toU64, PGSIZE]
    omega
  have hle : rounds len * PGSIZE ≤ 2 ^ 63 := by
    simp only [rounds, Vmem.pageCeil, toU64, PGSIZE]
    omega
  have hlt := rounds_wrap hlen.le hwrap
  have hround : pgRoundUp (lo * PGSIZE) = lo * PGSIZE := by
    have hpage : lo * PGSIZE < (lo + rounds len) * PGSIZE :=
      Nat.mul_lt_mul_of_pos_right (Nat.lt_add_of_pos_right hpos) (by decide)
    rw [VmaMem.pgRoundUp_eq ((Nat.add_le_add_right hpage.le _).trans (page_room hlt))]
    simp only [PGSIZE]
    omega
  rw [← Nat.add_mul]
  refine ⟨hround, hend, ?_⟩
  constructor
  · exact page_mod
  · exact page_mod
  · exact Nat.mul_lt_mul_of_pos_right (Nat.lt_add_of_pos_right hpos) (by decide)
  · exact hlt
  · rw [Nat.add_mul]
    exact Nat.add_le_add_left hle _

/-- A page that starts in the range starts before its unrounded end. -/
theorem inRange_lt (hal : addr % PGSIZE = 0) (hlen : 0 < len)
    (hint : len < 2 ^ 31) (hp : InRange addr (addr + rounds len * PGSIZE) vpn) :
    vpn * PGSIZE < addr + len.toNat := by
  obtain ⟨hlo, hhi⟩ := hp
  simp only [rounds, Vmem.pageCeil, toU64, PGSIZE] at *
  omega

/-- The end of the range that `mmap` clears for `MAP_FIXED`. -/
theorem fixed_end (hlen : 0 < len) (hwrap : start + len ≤ 2 ^ 64 - PGSIZE) :
    add64 start (toU64 len) = start + len.toNat ∧ start + len.toNat < 2 ^ 64 ∧ start < start + len.toNat := by
  simp only [add64, toU64, PGSIZE] at *
  omega

/-- What a call of `mmap` with `MAP_SHARED` must be given, once its arguments have passed the checks. -/
structure ShareMeets (arch : Arch) (env : FileEnv) (start : Nat) (len : Int) (flags : Nat) (fd : Int)
    (s : Space) : Prop where
  aligned : mmapAddr start len s % PGSIZE = 0
  len_pos : 0 < len
  /-- The size of a segment is an `int`. -/
  short : len < 2 ^ 31
  nowrap : mmapAddr start len s + len ≤ 2 ^ 64 - PGSIZE
  /-- With `MAP_FIXED` at `0` the area is put elsewhere. -/
  fixed : Bits.has flags MAP_FIXED = true → start ≠ 0
  /-- Without `MAP_FIXED`, no area has a page in the range. -/
  areas : Bits.has flags MAP_FIXED = false → ∀ v ∈ s.vmas, ∀ vpn,
    InRange (placeStart start len s) (placeEnd start len s) vpn → ¬v.HasPage vpn
  /-- With `MAP_FIXED`, the areas in the range can be taken out of it, -/
  removable : Bits.has flags MAP_FIXED = true → ∀ v ∈ s.vmas,
    v.Meets start (start + len.toNat) → Removable start (start + len.toNat) v
  /-- and no shared mapping loses its front without its back. -/
  back : Bits.has flags MAP_FIXED = true → ∀ v ∈ s.vmas, TakesShared v →
    v.Meets start (start + len.toNat) → v.end_ ≤ start + len.toNat
  /-- No page is mapped outside all areas, -/
  unmapped : ∀ vpn, InRange (placeStart start len s) (placeEnd start len s) vpn →
    (∀ v ∈ s.vmas, ¬v.HasPage vpn) → (s.leaf vpn).valid = false
  /-- and none is one that `fork` gives to every process. -/
  free : ∀ vpn, InRange (placeStart start len s) (placeEnd start len s) vpn → ¬Reserved arch vpn
  /-- The range lies above the program, and the break is left alone. -/
  heap : s.sz ≤ mmapAddr start len s
  brk : start = 0 → (s.chooseStart len).2.sz = s.sz
  /-- The size of the file is an `int`, too. -/
  size : fd ≠ -1 → 0 ≤ toInt32 env.stSize

/-- `mmap` with `MAP_SHARED` keeps the pages of the shared mappings together. -/
theorem mmapRange_shares (h : Shares arch s.shm origin s.toMm) (hs : Supplies s)
    (hflags : Bits.has flags MAP_SHARED = true) (hmeets : ShareMeets arch env start len flags fd s)
    (hcall : mmapRange arch env start len prot flags fd offset s = some (r, s')) :
    Shares arch s'.noteAttaches.shm
        (attachedAt (placeStart start len s) (placeEnd start len s) origin) s'.toMm ∧
      ShmKept s.shm s'.noteAttaches.shm := by
  have hint := hmeets.short
  obtain ⟨hlo, hhi, hrange⟩ := pageRange_of hmeets.aligned hmeets.len_pos hint hmeets.nowrap
  rw [mmapRange] at hcall
  obtain ⟨s₁, hunmap, hcall⟩ := Option.bind_eq_some_iff.mp hcall
  obtain ⟨⟨z, s₂⟩, halloc, hpages⟩ := Option.bind_eq_some_iff.mp hcall
  -- the space in which the area is made
  obtain ⟨h₁, hsame, hattach, hsz⟩ : Shares arch s₁.shm origin s₁.toMm ∧ SameShm s s₁ ∧
      Attachable arch (mmapAddr start len s) (mmapAddr start len s + rounds len * PGSIZE) s₁ ∧
      (start = 0 → s₁ = s) := by
    have hplace : ∀ vpn, InRange (mmapAddr start len s) (mmapAddr start len s + rounds len * PGSIZE) vpn →
        InRange (placeStart start len s) (placeEnd start len s) vpn := fun vpn hp => by
      rwa [placeStart, placeEnd, hlo, hhi]
    split at hunmap
    · rename_i hfixed
      have h0 := hmeets.fixed hfixed
      have haddr : mmapAddr start len s = start := by rw [mmapAddr, if_neg h0]
      have hstart : start % PGSIZE = 0 := haddr ▸ hmeets.aligned
      have hrem := hmeets.removable hfixed
      obtain ⟨hend, hwrap, hlt⟩ := fixed_end hmeets.len_pos (haddr ▸ hmeets.nowrap)
      rw [hend] at hunmap
      obtain ⟨h₁, hsame⟩ := unmapFixed_shares h hstart hwrap hrem (hmeets.back hfixed) hunmap
      obtain ⟨hleaf, -, hpages⟩ := unmapFixed_free hstart hwrap hlt hrem hunmap
      -- what is left in the range is outside all areas
      have hin : ∀ vpn, InRange (mmapAddr start len s) (mmapAddr start len s + rounds len * PGSIZE) vpn →
          (∀ w ∈ s₁.vmas, ¬w.HasPage vpn) ∧ ((s₁.leaf vpn).valid = false ∨ ∀ v ∈ s.vmas, ¬v.HasPage vpn) := by
        rw [haddr]
        exact fun vpn hp => hpages vpn hp.1 (inRange_lt hstart hmeets.len_pos hint hp)
      refine ⟨h₁, hsame, ⟨hrange, ?_, ?_, ?_, ?_⟩, fun hzero => absurd hzero h0⟩
      · exact fun v hv vpn hp => (hin vpn hp).1 v hv
      · intro vpn hp
        rcases (hin vpn hp).2 with hgone | hnone
        · exact hgone
        · have hfree := hmeets.unmapped vpn (hplace vpn hp) hnone
          rcases hleaf vpn with heq | heq
          · rwa [heq]
          · rw [heq]
            rfl
      · exact fun vpn hp => hmeets.free vpn (hplace vpn hp)
      · rw [hsame.sz]
        exact hmeets.heap
    · rename_i hfixed
      cases hunmap
      have hareas := hmeets.areas (Bool.eq_false_iff.mpr hfixed)
      refine ⟨h, .refl, ⟨hrange, ?_, ?_, ?_, hmeets.heap⟩, fun _ => rfl⟩
      · exact fun v hv vpn hp => hareas v hv vpn (hplace vpn hp)
      · exact fun vpn hp => hmeets.unmapped vpn (hplace vpn hp) fun v hv => hareas v hv vpn (hplace vpn hp)
      · exact fun vpn hp => hmeets.free vpn (hplace vpn hp)
  have haddr : mmapAddr start len s₁ = mmapAddr start len s := by
    by_cases hzero : start = 0
    · rw [hsz hzero]
    · rw [mmapAddr, mmapAddr, if_neg hzero, if_neg hzero]
  have hstart : (if Bits.has flags MAP_FIXED = true then start else z.vma.addr) = mmapAddr start len s := by
    split
    · rw [mmapAddr, if_neg (hmeets.fixed ‹_›)]
    · have hno := hattach.not_contained
      cases allocMmapVma_answer h₁.sorted halloc with
      | new free list addr end_ before after => rw [addr, placeStart, haddr, hlo]
      | old contained length =>
        rw [placeStart, placeEnd, haddr, hlo, hhi] at contained
        exact absurd contained hno
  dsimp only at hpages
  rw [hstart] at hpages
  have hfinal := mmapShared_attaches h₁ (hs.same hsame) hmeets.len_pos hint hattach
    (by rw [placeStart, haddr, hlo]) (by rw [placeEnd, haddr, hhi]) rfl hmeets.nowrap hflags
    (fun hzero => by rw [hsz hzero]; exact hmeets.brk hzero) hmeets.size halloc hpages
  rw [placeStart, placeEnd, hlo, hhi]
  exact ⟨hfinal.1, hsame.kept.trans hfinal.2⟩

/-- The same for the whole call, which may refuse its arguments. -/
theorem mmap_shares (h : Shares arch s.shm origin s.toMm) (hs : Supplies s)
    (hflags : Bits.has flags MAP_SHARED = true)
    (hmeets : mmapError len flags (mmapFd flags fd) s = none →
      ShareMeets arch env start len flags (mmapFd flags fd) s)
    (hcall : mmap arch env start len prot flags fd offset s = some (r, s')) :
    Shares arch s'.noteAttaches.shm
        (if (mmapError len flags (mmapFd flags fd) s).isSome then origin
        else attachedAt (placeStart start len s) (placeEnd start len s) origin) s'.toMm ∧
      ShmKept s.shm s'.noteAttaches.shm := by
  rw [mmap] at hcall
  split at hcall
  · rename_i e herror
    cases hcall
    rw [herror, if_pos (by rfl)]
    exact ⟨h.kept (noteAttaches_kept s), noteAttaches_kept s⟩
  · rename_i hnone
    rw [hnone, if_neg (by simp)]
    exact mmapRange_shares h hs hflags (hmeets hnone) hcall

end Space

end SC7
