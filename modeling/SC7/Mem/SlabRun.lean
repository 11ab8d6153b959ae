-- SUMMARY: What holds of the objects in every run of `slab_alloc` and `slab_free`, and the run of `test_slab` in which an object is lost.
import SC7.Mem.SlabInv

/-!
# The objects in runs

The objects of every slab stay in order as long as no object is released below the first free object of a
slab that is not full. The run that `test_slab` makes, on the largest class, shows what happens otherwise.
-/

namespace SC7.Slab

open SC7

/-- The sizes up to 1024 have a class. -/
theorem slabSize_class {size : Nat} (h : size ≤ 1024) : ∃ c, slabSize size = slabSizeTable c := by
  have hlast : size ≤ slabSizeTable 7 := h
  rw [slabSize]
  cases hfind : (List.finRange 8).find? fun c => decide (size ≤ slabSizeTable c) with
  | none =>
    have hno := List.find?_eq_none.mp hfind 7 (List.mem_finRange 7)
    exact absurd (decide_eq_true hlast) hno
  | some c => exact ⟨c, rfl⟩

namespace Run

/-- What is asked of the objects in a state: every slab is in order, the live objects are different slots of
slabs, a small request gets an object that is not live, and every live object can be released. -/
structure Sound (r : Run) : Prop where
  objects : ∀ c, ∀ slab ∈ r.slabs c, ∃ l, Chain NULL r.s.link (r.s.header slab).object l ∧ l.Nodup ∧
    l.length = (r.s.header slab).free ∧ ∀ a, a ∈ l ↔ a ∈ slots slab (slabSizeTable c) ∧ a ∉ r.live
  live : r.live.Nodup ∧ ∀ a ∈ r.live, ∃ c, ∃ slab ∈ r.slabs c, a ∈ slots slab (slabSizeTable c)
  alloc : ∀ size ≤ 1024, (∃ q, r.s.pmem.FreePage q) → ∀ addr s', r.s.slabAlloc size = .ok (addr, s') →
    addr ≠ NULL ∧ addr ∉ r.live
  free : ∀ addr ∈ r.live, r.InOrder (.free addr) → ∃ s', r.s.slabFree addr = .ok s'

theorem Inv.sound {r : Run} (h : r.Inv True) : r.Sound := by
  have hne : ∀ a ∈ r.live, a ≠ NULL := fun a ha heq => h.null trivial (heq ▸ ha)
  refine ⟨fun c slab hslab => ?_, ⟨?_, fun a ha => h.live a ha (hne a ha)⟩, ?_, ?_⟩
  · obtain ⟨l, hchain, hmem, hordered⟩ := (h.objects c slab hslab).list
    obtain ⟨hlen, _, hall⟩ := hordered trivial
    exact ⟨l, hchain, hchain.nodup, hlen, fun a => ⟨hmem a, fun ha => hall a ha.1 ha.2⟩⟩
  · refine List.nodup_iff_count_le_one.mpr fun a => ?_
    by_cases ha : a ∈ r.live
    · have hcount := List.count_eq_zero.mpr (h.once a (hne a ha))
      rw [List.count_erase_self] at hcount
      omega
    · rw [List.count_eq_zero.mpr ha]
      omega
  · intro size hsize ⟨q, hq⟩ addr s' hret
    obtain ⟨c, hc⟩ := slabSize_class hsize
    obtain ⟨haddr, hnot, _⟩ := h.allocObject hq hc hret
    exact ⟨haddr trivial, hnot (haddr trivial)⟩
  · intro addr haddr hmeets
    rw [h.slabFree_eq haddr (hne addr haddr)]
    by_cases hzero : (r.s.header (pgRoundDown addr)).free = 0
    · rw [if_pos hzero]
      exact ⟨_, rfl⟩
    · rw [if_neg hzero]
      obtain ⟨c, hslab, _⟩ := h.live_slot haddr (hne addr haddr)
      have hobject := (h.objects c _ hslab).object_ne_null trivial hzero
      obtain ⟨_, s', _, hret, _⟩ := h.freedToList haddr (hne addr haddr) hobject fun _ => (hmeets.2 haddr).resolve_left hzero
      exact ⟨s', hret⟩

/-- The invariant along a run. -/
theorem Start.reaches {r₀ r : Run} (hstart : r₀.Start) (hrun : Reaches (Move InOrder) r₀ r) : r.Inv True := by
  refine hrun.invariant hstart.inv.1 ?_
  rintro t t' ht ⟨op, hmeets, hstep⟩
  exact ht.step hmeets.1 (fun _ => hmeets.2) hstep

end Run

/-- In every run that is in order the objects of the slabs are as they should be. -/
theorem slab_objects {r₀ r : Run} (hstart : r₀.Start) (hrun : Reaches (Run.Move Run.InOrder) r₀ r) : r.Sound :=
  (hstart.reaches hrun).sound

/-! ## The state after `slab_init` -/

/-- A region of thirty-two pages at the start of the memory of the board. -/
theorem validRegion_thirtyTwoPages : ValidRegion 0x80000000 0x80020000 where
  start_aligned := by decide
  end_aligned := by decide
  start_le := by decide
  room := by decide
  end_le := by decide

/-- Sixteen of the pages are free at first, and seven after `slab_init`. -/
theorem exists_start : ∃ r : Run, r.Start ∧ FreePages r.s.pmem 7 := by
  obtain ⟨pmem, L, _, hstart, hend, _, hinv, _⟩ := buddyInit_inv validRegion_thirtyTwoPages fun _ => 0
  have htotal : pmem.totalPages = 32 := by
    have heq := hinv.region.end_eq
    rw [hstart, hend] at heq
    simp only [PGSIZE] at heq
    omega
  have htop : pmem.topOrder = some 4 := by
    rw [Pmem.topOrder, Pmem.metaEnd, hstart, hend, htotal]
    decide
  have hplaced : pmem.Placed ⟨16, 4⟩ := by
    rw [Pmem.Placed, hstart, htotal]
    exact ⟨by decide, by decide, by decide, by decide⟩
  have hwf : pmem.Wf [] := ⟨L, hinv⟩
  have hfree : ∀ q ∈ List.range' 16 16, pmem.FreePage q := by
    intro q hq
    have hrange := List.mem_range'_1.mp hq
    refine hwf.freePage_iff.mpr ⟨⟨⟨16, 4⟩, htop, hplaced, hrange.1, hrange.2⟩, ?_⟩
    rintro ⟨b, hb, _⟩
    cases hb
  have hsixteen : FreePages pmem (7 + 9) := ⟨List.range' 16 16, List.nodup_range', by simp, hfree⟩
  obtain ⟨s, hinit, _, _, hleft⟩ := @slabInit_ok True pmem [] (fun _ => 0) (fun _ => 0) (fun _ => ⟨0, 0, 0, 0⟩) 7 hwf hsixteen
  refine ⟨⟨s, fun c => [(s.cache c).freeSlab], [], []⟩, ⟨pmem, [], fun _ => 0, fun _ => ⟨0, 0, 0, 0⟩, fun _ => 0, hwf,
    ⟨List.range' 16 9, List.nodup_range', by simp, fun q hq => ?_⟩, hinit, rfl, rfl, rfl⟩, hleft⟩
  have hrange := List.mem_range'_1.mp hq
  exact hfree q (List.mem_range'_1.mpr ⟨hrange.1, by omega⟩)

/-! ## A run on the largest class -/

theorem slabSize_table : ∀ c : Class,
    slabSize (slabSizeTable c) = slabSizeTable c ∧ slabSizeTable c ≠ 0 ∧ slabSizeTable c ≤ 1024 := by
  decide

/-- The requests are for objects, and there are pages. -/
def Run.Small (r : Run) : Op → Prop
  | .alloc size => size ≤ 1024 ∧ ∃ q, r.s.pmem.FreePage q
  | .free _ | .write _ _ | .writeBlock _ _ => True

/-- Both conditions. -/
def Run.SmallInOrder (r : Run) (op : Op) : Prop := r.InOrder op ∧ r.Small op

/-- A request for the size of a class is in order if there are pages. -/
theorem Run.smallInOrder_alloc {r : Run} (c : Class) (hpages : FreePages r.s.pmem 1) :
    r.SmallInOrder (.alloc (slabSizeTable c)) := by
  obtain ⟨q, hq⟩ := hpages.exists_page
  obtain ⟨hc, hpos, hle⟩ := slabSize_table c
  refine ⟨⟨?_, trivial⟩, hle, q, hq⟩
  rw [Run.Paged, hc, if_neg hpos]
  exact ⟨q, hq⟩

/-- The list `l` of free objects is that of `slab`, the first slab of class `c`. -/
structure Front (r : Run) (c : Class) (slab next full : Nat) (l : List Nat) : Prop where
  inv : r.Inv True
  mem : slab ∈ r.slabs c
  cache : r.s.cache c = ⟨slab, full, slabSizeTable c⟩
  header : ∃ object, r.s.header slab = ⟨next, object, slabSizeTable c, l.length⟩ ∧ Chain NULL r.s.link object l

namespace Front

variable {r : Run} {c : Class} {slab next full a b : Nat} {l : List Nat}

theorem freeSlab (h : Front r c slab next full l) : (r.s.cache c).freeSlab = slab ∧ slab ≠ NULL := by
  refine ⟨?_, h.inv.slab_ne_null h.mem⟩
  rw [h.cache]

/-- A request for the size of the class, when there is a first slab. -/
theorem step (h : Front r c slab next full l) (hpages : FreePages r.s.pmem 1) {s' : Slabs}
    (hret : r.s.allocFromKmemCache c = .ok (a, s')) :
    r.Step (.alloc (slabSizeTable c)) { r with s := s', live := a :: r.live } ∧
      Run.Inv True { r with s := s', live := a :: r.live } := by
  obtain ⟨hfirst, hnull⟩ := h.freeSlab
  obtain ⟨hc, _, _⟩ := slabSize_table c
  rw [← Slabs.slabAlloc_eq h.inv.size hc] at hret
  have hslabs : r.created c s' = r.slabs := by rw [Run.created, hfirst, if_neg hnull]
  have hstep := Run.Step.object _ _ c _ hc hret
  rw [hslabs] at hstep
  exact ⟨hstep, h.inv.step (Run.smallInOrder_alloc c hpages).1.1 (fun _ => trivial) hstep⟩

/-- A request takes the first object. -/
theorem take (h : Front r c slab next full (a :: b :: l)) (hpages : FreePages r.s.pmem 1) :
    ∃ r', r.Step (.alloc (slabSizeTable c)) r' ∧ r'.live = a :: r.live ∧ r'.slabs = r.slabs ∧ r'.s.pmem = r.s.pmem ∧
      Front r' c slab next full (b :: l) := by
  obtain ⟨object, hheader, rfl, hne, htail⟩ := h.header
  obtain ⟨hfirst, hnull⟩ := h.freeSlab
  have hret : r.s.allocFromKmemCache c =
      .ok (object, r.s.setHeader slab ⟨next, r.s.link object, slabSizeTable c, l.length + 1⟩) := by
    rw [Slabs.allocFromKmemCache_take hfirst hnull]
    · simp [hheader]
    · simp [hheader]
    · rw [hheader]
      exact hne
  obtain ⟨hstep, hinv⟩ := h.step hpages hret
  exact ⟨_, hstep, rfl, rfl, rfl, hinv, h.mem, h.cache, r.s.link object, by simp [Slabs.setHeader], htail⟩

/-- The last object fills the slab. -/
theorem last (h : Front r c slab next NULL [a]) (hpages : FreePages r.s.pmem 1) :
    ∃ r', r.Step (.alloc (slabSizeTable c)) r' ∧ r'.live = a :: r.live ∧ r'.slabs = r.slabs ∧ r'.s.pmem = r.s.pmem ∧ r'.Inv True ∧
      r'.s.cache c = ⟨next, slab, slabSizeTable c⟩ ∧ r'.s.header slab = ⟨next, NULL, slabSizeTable c, 0⟩ ∧
      ∀ b, b ≠ slab → r'.s.header b = r.s.header b := by
  obtain ⟨object, hheader, rfl, hne, _⟩ := h.header
  obtain ⟨hfirst, hnull⟩ := h.freeSlab
  have hret : r.s.allocFromKmemCache c =
      .ok (object, (r.s.setHeader slab ⟨next, NULL, slabSizeTable c, 0⟩).setCache c ⟨next, slab, slabSizeTable c⟩) := by
    rw [Slabs.allocFromKmemCache_last hfirst hnull (by simp [hheader]), Slabs.moveToFull_first]
    · simp [Except.map, hheader, Slabs.setHeader, h.cache]
    · simp [Slabs.setHeader, h.cache]
  obtain ⟨hstep, hinv⟩ := h.step hpages hret
  exact ⟨_, hstep, rfl, rfl, rfl, hinv, by simp [Slabs.setCache], by simp [Slabs.setCache, Slabs.setHeader],
    fun b hb => Function.update_of_ne hb _ _⟩

end Front

/-- The class of 1024 bytes after `slab_init`. -/
theorem Run.Start.front {r : Run} (h : r.Start) :
    ∃ slab a b d, Front r 7 slab NULL NULL [a, b, d] ∧ r.slabs 7 = [slab] ∧ a < b ∧ b < d ∧ r.live = [] ∧
      ∀ x ∈ [a, b, d], pgRoundDown x = slab := by
  obtain ⟨hinv, hfresh⟩ : r.Inv True ∧ ∀ c, Fresh r.s c := h.inv
  have hslabs : r.slabs 7 = [(r.s.cache 7).freeSlab] ∧ r.live = [] := by
    obtain ⟨_, _, _, _, _, _, _, _, hslabs, hlive, _⟩ := h
    rw [hslabs]
    exact ⟨rfl, hlive⟩
  have hmem : (r.s.cache 7).freeSlab ∈ r.slabs 7 := by
    rw [hslabs.1]
    exact List.mem_singleton_self _
  have hobjects := hinv.objects 7 _ hmem
  obtain ⟨l, hchain, hslots, hordered⟩ := hobjects.list
  obtain ⟨hlen, hsorted, _⟩ := hordered trivial
  have hthree : l.length = 3 := by
    rw [hlen, (hfresh 7).free]
    decide
  obtain ⟨a, b, d, rfl⟩ := List.length_eq_three.mp hthree
  refine ⟨_, a, b, d, ⟨hinv, hmem, ?_, (r.s.header (r.s.cache 7).freeSlab).object, ?_, hchain⟩, hslabs.1, ?_, ?_, hslabs.2,
    fun x hx => pgRoundDown_slot (hinv.aligned hmem) (hslots x hx).1⟩
  · rw [← (hfresh 7).full, ← hinv.size 7]
  · rw [hlen, ← hobjects.size_eq]
    have hnext := (hfresh 7).next
    cases hheader : r.s.header (r.s.cache 7).freeSlab
    rw [hheader] at hnext
    simp only at hnext
    rw [hnext]
  · simp only [List.pairwise_cons, List.mem_cons] at hsorted
    exact hsorted.1 b (.inl rfl)
  · simp only [List.pairwise_cons, List.mem_cons] at hsorted
    exact hsorted.2.1 d (.inl rfl)

/-- Three requests fill the first slab of the class. -/
theorem Run.Start.fill {r : Run} (h : r.Start) (hpages : FreePages r.s.pmem 1) {meets : Run → Op → Prop}
    (hmeets : ∀ r slab full l, Front r 7 slab NULL full l → FreePages r.s.pmem 1 → meets r (.alloc (slabSizeTable 7))) :
    ∃ slab a b d r', Reaches (Run.Move meets) r r' ∧ r'.Inv True ∧ r'.live = [d, b, a] ∧ a < b ∧ b < d ∧
      r'.slabs = r.slabs ∧ r.slabs 7 = [slab] ∧ r'.s.pmem = r.s.pmem ∧ r'.s.cache 7 = ⟨NULL, slab, slabSizeTable 7⟩ ∧
      r'.s.header slab = ⟨NULL, NULL, slabSizeTable 7, 0⟩ ∧ ∀ x ∈ [a, b, d], pgRoundDown x = slab := by
  obtain ⟨slab, a, b, d, hfront, hslabs, hab, hbd, hlive, hround⟩ := h.front
  obtain ⟨r₁, hstep₁, hlive₁, hslabs₁, hpmem₁, hfront₁⟩ := hfront.take hpages
  have hmeets₁ := hmeets _ _ _ _ hfront hpages
  rw [← hpmem₁] at hpages
  obtain ⟨r₂, hstep₂, hlive₂, hslabs₂, hpmem₂, hfront₂⟩ := hfront₁.take hpages
  have hmeets₂ := hmeets _ _ _ _ hfront₁ hpages
  rw [← hpmem₂] at hpages
  obtain ⟨r₃, hstep₃, hlive₃, hslabs₃, hpmem₃, hinv₃, hcache, hheader, _⟩ := hfront₂.last hpages
  have hmeets₃ := hmeets _ _ _ _ hfront₂ hpages
  have hrun₁ : Reaches (Run.Move meets) r r₁ := .single ⟨_, hmeets₁, hstep₁⟩
  refine ⟨slab, a, b, d, r₃, (hrun₁.tail ⟨_, hmeets₂, hstep₂⟩).tail ⟨_, hmeets₃, hstep₃⟩, hinv₃, ?_, hab, hbd, ?_, hslabs, ?_,
    hcache, hheader, hround⟩
  · rw [hlive₃, hlive₂, hlive₁, hlive]
  · rw [hslabs₃, hslabs₂, hslabs₁]
  · rw [hpmem₃, hpmem₂, hpmem₁]

theorem slab_objects_three : ∃ r₀ r : Run, r₀.Start ∧ Reaches (Run.Move Run.InOrder) r₀ r ∧ r.live.length = 3 ∧ r.Sound := by
  obtain ⟨r₀, hstart, hpages⟩ := exists_start
  obtain ⟨slab, a, b, d, r, hrun, _, hlive, _⟩ := hstart.fill (hpages.mono (by omega)) fun _ _ _ _ _ hpages =>
    (Run.smallInOrder_alloc 7 hpages).1
  refine ⟨r₀, r, hstart, hrun, ?_, slab_objects hstart hrun⟩
  rw [hlive]
  rfl

/-- The order of `test_slab`: of the three objects of a full slab the second is released and then the
first. One request gets the first object again, and the next one gets `NULL`. -/
theorem slabAlloc_returns_null : ∃ r₀ r s', r₀.Start ∧ Reaches (Run.Move Run.Small) r₀ r ∧
    (∃ q, r.s.pmem.FreePage q) ∧ r.s.slabAlloc 1024 = .ok (NULL, s') := by
  obtain ⟨r₀, hstart, hpages⟩ := exists_start
  obtain ⟨slab, a, b, d, r, hrun, hinv, hlive, hab, _, hslabs, hslab, hpmem, hcache, hheader, hround⟩ :=
    hstart.fill (hpages.mono (by omega)) fun _ _ _ _ _ hpages => (Run.smallInOrder_alloc 7 hpages).2
  have hfree : FreePages r.s.pmem 1 := hpmem ▸ hpages.mono (by omega)
  obtain ⟨q, hq⟩ := hfree.exists_page
  have hmem : slab ∈ r.slabs 7 := by
    rw [hslabs, hslab]
    exact List.mem_singleton_self _
  -- the second object comes back to the full slab
  have hb : b ∈ r.live := by simp [hlive]
  have hbne : b ≠ NULL := fun heq => hinv.null trivial (heq ▸ hb)
  have hzero : (r.s.header (pgRoundDown b)).free = 0 := by rw [hround b (by simp), hheader]
  have hret₁ : r.s.slabFree b = .ok (r.s.freeToFull slab b) := by
    rw [hinv.slabFree_eq hb hbne, if_pos hzero, hround b (by simp)]
  have hinv₁ := hinv.freedToFull hb hbne hzero
  rw [hround b (by simp)] at hinv₁
  have hstep₁ := Run.Step.freeObject b _ hb hret₁
  rw [hinv.freeToFull_eq hmem, hheader, hcache] at hinv₁ hstep₁
  generalize hs₁ : Slabs.setCache _ _ _ = s₁ at hinv₁ hstep₁
  have hheader₁ : s₁.header slab = ⟨NULL, b, slabSizeTable 7, 1⟩ := by simp [← hs₁, Slabs.setCache, Slabs.setHeader]
  have hcache₁ : s₁.cache 7 = ⟨slab, NULL, slabSizeTable 7⟩ := by simp [← hs₁, Slabs.setCache]
  have hpmem₁ : s₁.pmem = r.s.pmem := by
    rw [← hs₁]
    rfl
  -- the first object comes back below it
  have ha : a ∈ r.live.erase b := by
    rw [List.mem_erase_of_ne (Nat.ne_of_lt hab)]
    simp [hlive]
  have hane : a ≠ NULL := fun heq => hinv₁.null trivial (heq ▸ ha)
  have ha' : pgRoundDown a = slab := hround a (by simp)
  obtain ⟨s₂, hret₂, hpmem₂, hcache₂, hlink₂, hheader₂⟩ := (hinv₁.objects 7 slab hmem).freeToList_below
    (by simp [hheader₁]) ha (by simpa [hheader₁] using hab)
  have hstep₂ := Run.Step.freeObject (r := { r with s := s₁, live := r.live.erase b }) a s₂ ha (by
    rw [hinv₁.slabFree_eq ha hane, ha', if_neg (by simp [hheader₁])]
    exact hret₂)
  have hheader₂' : s₂.header slab = ⟨NULL, a, slabSizeTable 7, 2⟩ := by
    rw [hheader₂, Function.update_self, hheader₁]
  have hsize₂ : ∀ c, (s₂.cache c).size = slabSizeTable c := by
    rw [hcache₂]
    exact hinv₁.size
  -- the request for the first object leaves a null list with one object on its count
  have hnull : slab ≠ NULL := hinv.slab_ne_null hmem
  have hfirst₂ : (s₂.cache 7).freeSlab = slab := by rw [hcache₂, hcache₁]
  have hret₃ : s₂.slabAlloc 1024 = .ok (a, s₂.setHeader slab ⟨NULL, NULL, slabSizeTable 7, 1⟩) := by
    rw [Slabs.slabAlloc_eq hsize₂ (show slabSize 1024 = slabSizeTable 7 from rfl),
      Slabs.allocFromKmemCache_take hfirst₂ hnull (by simp [hheader₂']) (by rw [hheader₂']; exact hane)]
    simp [hheader₂', hlink₂]
  have hstep₃ := Run.Step.object (r := { r with s := s₂, live := (r.live.erase b).erase a }) 1024 a 7 _ rfl hret₃
  have hpages₂ : s₂.pmem.FreePage q := by
    rw [hpmem₂, hpmem₁]
    exact hq
  obtain ⟨s₄, hret₄⟩ : ∃ s', (s₂.setHeader slab ⟨NULL, NULL, slabSizeTable 7, 1⟩).slabAlloc 1024 = .ok (NULL, s') := by
    have hsize₃ : ∀ c, ((s₂.setHeader slab ⟨NULL, NULL, slabSizeTable 7, 1⟩).cache c).size = slabSizeTable c := hsize₂
    have hfirst₃ : ((s₂.setHeader slab ⟨NULL, NULL, slabSizeTable 7, 1⟩).cache 7).freeSlab = slab := hfirst₂
    rw [Slabs.slabAlloc_eq hsize₃ (show slabSize 1024 = slabSizeTable 7 from rfl),
      Slabs.allocFromKmemCache_last hfirst₃ hnull (by simp [Slabs.setHeader]), Slabs.moveToFull_first]
    · simp only [Except.map, Slabs.setHeader, Function.update_self]
      exact ⟨_, rfl⟩
    · simp [Slabs.setHeader, hcache₂, hcache₁]
  have hrun₁ := hrun.tail ⟨.free b, trivial, hstep₁⟩
  have hrun₂ := hrun₁.tail ⟨.free a, trivial, hstep₂⟩
  have hrun₃ := hrun₂.tail ⟨.alloc 1024, ⟨le_refl _, q, hpages₂⟩, hstep₃⟩
  exact ⟨r₀, _, s₄, hstart, hrun₃, ⟨q, hpages₂⟩, hret₄⟩

end SC7.Slab
