-- SUMMARY: What `slab_free` gives back: exactly the object or the page block, unless a page block looks like a slab or an object is below the first free one.
import SC7.Mem.SlabRun

/-!
# What is given back

`slab_free` tells a page block from an object by the first word of the page, which for a page block is the
client's. It gives back exactly what was taken, for every content, except when that word is the magic number
of slabs; and when an object is below the first free one of its slab, which then loses the others.
-/

namespace SC7.Slab

open SC7

/-- The object is on the free list of the slab. -/
def FreeObject (s : Slabs) (slab a : Nat) : Prop := ∃ l, Chain NULL s.link (s.header slab).object l ∧ a ∈ l

/-- The free objects of a slab in order. -/
theorem Objects.freeObject_iff {s : Slabs} {live : List Nat} {slab size a : Nat} (h : Objects True s live slab size) :
    FreeObject s slab a ↔ a ∈ slots slab size ∧ a ∉ live := by
  obtain ⟨l, hchain, hmem, hordered⟩ := h.list
  obtain ⟨_, _, hall⟩ := hordered trivial
  constructor
  · rintro ⟨l', hchain', ha⟩
    rw [hchain'.unique hchain] at ha
    exact hmem a ha
  · rintro ⟨hslot, hnot⟩
    exact ⟨l, hchain, hall a hslot hnot⟩

/-- The operation that led to `s'` gave back these objects and these pages and no others, and left what the other
clients hold as it was. -/
structure Releases (r : Run) (s' : Slabs) (object page : Nat → Prop) : Prop where
  objects : ∀ c, ∀ slab ∈ r.slabs c, ∀ a,
    FreeObject s' slab a ↔ FreeObject r.s slab a ∨ (object a ∧ pgRoundDown a = slab)
  pages : ∀ q, s'.pmem.FreePage q ↔ r.s.pmem.FreePage q ∨ page q
  live : ∀ a ∈ r.live, ¬ object a → s'.link a = r.s.link a
  blocks : ∀ addr len, (addr, len) ∈ r.blocks → ∀ a, addr ≤ a ∧ a < addr + len →
    s'.magic a = r.s.magic a ∧ s'.header a = r.s.header a ∧ s'.link a = r.s.link a

/-- `slab_free` gives back the object at `addr`. -/
def ReleasesObject (r : Run) (addr : Nat) : Prop :=
  ∃ s', r.s.slabFree addr = .ok s' ∧ Releases r s' (· = addr) fun _ => False

/-- `slab_free` gives back the pages of the block at `addr`. -/
def ReleasesBlock (r : Run) (addr len : Nat) : Prop :=
  ∃ s', r.s.slabFree addr = .ok s' ∧
    Releases r s' (fun _ => False) fun q => addr ≤ r.s.pmem.pageAddr q ∧ r.s.pmem.pageAddr q < addr + len

namespace Run.Inv

variable {r : Run} {addr len : Nat} {s' : Slabs}

/-- The free objects after a release that is in order. -/
theorem freeObject_erase (h : r.Inv True) (haddr : addr ∈ r.live) (hne : addr ≠ NULL)
    (hinv : Run.Inv True { r with s := s', live := r.live.erase addr }) :
    ∀ c, ∀ slab ∈ r.slabs c, ∀ a,
      FreeObject s' slab a ↔ FreeObject r.s slab a ∨ (a = addr ∧ pgRoundDown a = slab) := by
  intro c slab hslab a
  rw [(hinv.objects c slab hslab).freeObject_iff, (h.objects c slab hslab).freeObject_iff]
  obtain ⟨c', hslab', hslot'⟩ := h.live_slot haddr hne
  by_cases heq : a = addr
  · subst heq
    have honce := h.once a hne
    constructor
    · rintro ⟨hslot, _⟩
      exact .inr ⟨rfl, pgRoundDown_slot (h.aligned hslab) hslot⟩
    · rintro (⟨_, hnot⟩ | ⟨_, rfl⟩)
      · exact absurd haddr hnot
      · rw [h.class_eq hslab hslab']
        exact ⟨hslot', honce⟩
  · have hmem : a ∈ r.live.erase addr ↔ a ∈ r.live := List.mem_erase_of_ne heq
    simp only [hmem, heq, false_and, or_false]

/-- The memory of a page block is apart from the slabs. -/
theorem block_apart (h : r.Inv True) {c : Class} {slab a : Nat} (hslab : slab ∈ r.slabs c)
    (hblock : (addr, len) ∈ r.blocks) (ha : addr ≤ a ∧ a < addr + len) :
    a ≠ slab ∧ a ∉ slots slab (slabSizeTable c) := by
  obtain ⟨held, hpages⟩ := h.pages
  have hpage := (hpages.block addr len hblock).disjoint (hpages.slab c slab hslab) hpages.wf
    (hpages.apart c slab hslab addr len hblock).symm ha
  refine ⟨?_, fun hslot => ?_⟩
  · rintro rfl
    exact hpage ⟨le_refl _, by simp [PGSIZE]⟩
  · have hlo := (slot_bounds hslot).1
    exact hpage ⟨by omega, slot_lt hslot⟩

/-- An object is given back exactly if its slab is full or it is above the first free object. -/
theorem releasesObject_iff (h : r.Inv True) (haddr : addr ∈ r.live) :
    ReleasesObject r addr ↔
      (r.s.header (pgRoundDown addr)).free = 0 ∨ (r.s.header (pgRoundDown addr)).object < addr := by
  have hne : addr ≠ NULL := fun heq => h.null trivial (heq ▸ haddr)
  obtain ⟨c, hslab, hslot⟩ := h.live_slot haddr hne
  have hobjects := h.objects c _ hslab
  constructor
  · rintro ⟨s', hret, hreleases⟩
    by_contra hno
    obtain ⟨hfree, hbelow⟩ := not_or.mp hno
    have hobject := hobjects.object_ne_null trivial hfree
    obtain ⟨hfirst, hnot⟩ := hobjects.object_mem hobject
    have hlt : addr < (r.s.header (pgRoundDown addr)).object := by
      rcases Nat.lt_or_eq_of_le (Nat.not_lt.mp hbelow) with hlt | heq
      · exact hlt
      · exact absurd (heq ▸ haddr) hnot
    obtain ⟨s₁, hret₁, _, _, hlink, hheader⟩ := hobjects.freeToList_below hfree haddr hlt
    rw [h.slabFree_eq haddr hne, if_neg hfree, hret₁] at hret
    cases hret
    -- the first free object was there and is not any more
    obtain ⟨l, hchain, hin⟩ := (hreleases.objects c _ hslab (r.s.header (pgRoundDown addr)).object).mpr
      (.inl (hobjects.freeObject_iff.mpr ⟨hfirst, hnot⟩))
    rw [hheader, Function.update_self] at hchain
    have hlist : l = [addr] := hchain.unique ⟨rfl, hne, hlink⟩
    rw [hlist, List.mem_singleton] at hin
    omega
  · intro hcond
    by_cases hzero : (r.s.header (pgRoundDown addr)).free = 0
    · have hret : r.s.slabFree addr = .ok (r.s.freeToFull (pgRoundDown addr) addr) := by
        rw [h.slabFree_eq haddr hne, if_pos hzero]
      have hinv := h.freedToFull haddr hne hzero
      refine ⟨_, hret, h.freeObject_erase haddr hne hinv, ?_, ?_, ?_⟩
      · rw [h.freeToFull_eq hslab]
        intro q
        exact (or_false _).symm ▸ Iff.rfl
      · intro a _ hane
        rw [h.freeToFull_eq hslab]
        exact Function.update_of_ne hane _ _
      · intro addr' len hblock a ha
        obtain ⟨has, hslots⟩ := h.block_apart hslab hblock ha
        have hane : a ≠ addr := by
          rintro rfl
          exact hslots hslot
        rw [h.freeToFull_eq hslab]
        simp [Slabs.setCache, Slabs.setHeader, Slabs.setLink, has, hane]
    · have hobject := hobjects.object_ne_null trivial hzero
      obtain ⟨c', s', hslab', hret, hfreed, hinv⟩ := h.freedToList haddr hne hobject fun _ => hcond.resolve_left hzero
      obtain ⟨object, hheader⟩ := hfreed.header
      rw [← h.slabFree_eq haddr hne |>.trans (if_neg hzero)] at hret
      refine ⟨s', hret, h.freeObject_erase haddr hne hinv, ?_, hfreed.kept, ?_⟩
      · intro q
        rw [hfreed.pmem]
        exact (or_false _).symm ▸ Iff.rfl
      · intro addr' len hblock a ha
        obtain ⟨has, hslots⟩ := h.block_apart hslab' hblock ha
        rw [hfreed.magic, hheader, Function.update_of_ne has]
        exact ⟨rfl, rfl, hfreed.link a hslots⟩

/-- The slab path of `slab_free` gives no page back. -/
theorem slabFree_pmem (hmagic : r.s.magic (pgRoundDown addr) = SLAB_MAGIC) (hret : r.s.slabFree addr = .ok s') :
    s'.pmem = r.s.pmem := by
  rw [Slabs.slabFree] at hret
  simp only [if_pos hmagic] at hret
  split at hret
  · cases hret
  split at hret
  · cases hret
    rw [Slabs.freeToFull]
    simp only
    split
    · rfl
    · rfl
  · have hhead : (r.s.freeAtHead (pgRoundDown addr) addr).pmem = r.s.pmem := by
      rw [Slabs.freeAtHead]
      split
      · rfl
      · rfl
    simp only [Slabs.freeToList] at hret
    cases hsearch : search (r.s.freeAtHead (pgRoundDown addr) addr).link addr (PGSIZE / 8)
        (r.s.header (pgRoundDown addr)).object with
    | error e =>
      rw [hsearch] at hret
      cases hret
    | ok x =>
      rw [hsearch] at hret
      cases hret
      exact hhead

/-- A page block is given back exactly if it does not begin with the magic number of slabs. -/
theorem releasesBlock_iff (h : r.Inv True) (hblock : (addr, len) ∈ r.blocks) :
    ReleasesBlock r addr len ↔ r.s.magic addr ≠ SLAB_MAGIC := by
  obtain ⟨held, hpages⟩ := h.pages
  have hheld := hpages.block addr len hblock
  have haligned := hheld.aligned hpages.wf
  have hround : pgRoundDown addr = addr := by
    simp only [pgRoundDown, PGSIZE] at *
    omega
  constructor
  · rintro ⟨s', hret, hreleases⟩ hmagic
    rw [← hround] at hmagic
    have hpmem := slabFree_pmem hmagic hret
    -- the first page of the block would have to become free
    obtain ⟨b, hb, hb', hlen⟩ := hheld
    have hpage := (hreleases.pages b.page).mpr (.inr ⟨Nat.le_of_eq hb'.symm, by
      have := Nat.two_pow_pos b.order
      rw [hb', hlen]
      simp only [PGSIZE]
      omega⟩)
    rw [hpmem] at hpage
    exact (hpages.wf.freePage_iff.mp hpage).2 ⟨b, hb, b.page_mem⟩
  · intro hmagic
    obtain ⟨pmem, hret, hsame, hwf, hinv⟩ := h.freedBlock hblock hmagic
    obtain ⟨b, hb, hb', hlen, hwf'⟩ := hwf held hpages
    refine ⟨_, hret, fun c slab hslab a => ?_, fun q => ?_, fun a _ _ => rfl, fun _ _ _ a _ => ⟨rfl, rfl, rfl⟩⟩
    · rw [or_iff_left fun hno => hno.1]
      exact Iff.rfl
    · have hin : q ∈ b ↔ addr ≤ r.s.pmem.pageAddr q ∧ r.s.pmem.pageAddr q < addr + len := by
        rw [← hb', hlen, Block.mem_def]
        generalize 2 ^ b.order = m
        simp only [Pmem.pageAddr, PGSIZE]
        omega
      rw [← hin]
      have hnew : Pmem.FreePage pmem q ↔ r.s.pmem.Managed q ∧ ¬ ∃ b' ∈ held.erase b, q ∈ b' := by
        rw [hwf'.freePage_iff, Pmem.managed_congr hsame]
      rw [hpages.wf.freePage_iff]
      refine hnew.trans ?_
      constructor
      · rintro ⟨hmanaged, hnot⟩
        by_cases hq : q ∈ b
        · exact .inr hq
        · refine .inl ⟨hmanaged, ?_⟩
          rintro ⟨b', hb'', hq'⟩
          refine hnot ⟨b', (List.mem_erase_of_ne ?_).mpr hb'', hq'⟩
          rintro rfl
          exact hq hq'
      · rintro (⟨hmanaged, hnot⟩ | hq)
        · refine ⟨hmanaged, ?_⟩
          rintro ⟨b', hb'', hq'⟩
          exact hnot ⟨b', List.mem_of_mem_erase hb'', hq'⟩
        · refine ⟨hpages.wf.managed hb hq, ?_⟩
          rintro ⟨b', hb'', hq'⟩
          obtain ⟨hbb, hin'⟩ := hpages.wf.nodup.mem_erase_iff.mp hb''
          exact hbb (hpages.wf.eq_of_mem hin' hb hq' hq)

end Run.Inv

/-- In every state of a run that is in order, whatever the clients have written, `slab_free` gives back exactly
what was taken if and only if a page block does not begin with the magic number of slabs, and an object is
above the first free one of its slab or the slab is full. -/
theorem slab_free_exact {r₀ r : Run} (hstart : r₀.Start) (hrun : Reaches (Run.Move Run.InOrder) r₀ r) :
    (∀ addr ∈ r.live, ReleasesObject r addr ↔
      (r.s.header (pgRoundDown addr)).free = 0 ∨ (r.s.header (pgRoundDown addr)).object < addr) ∧
      ∀ addr len, (addr, len) ∈ r.blocks → (ReleasesBlock r addr len ↔ r.s.magic addr ≠ SLAB_MAGIC) := by
  have hinv := hstart.reaches hrun
  exact ⟨fun addr haddr => hinv.releasesObject_iff haddr, fun addr len hblock => hinv.releasesBlock_iff hblock⟩

theorem slab_free_exact_three : ∃ r₀ r addr, r₀.Start ∧ Reaches (Run.Move Run.InOrder) r₀ r ∧ addr ∈ r.live ∧
    ReleasesObject r addr := by
  obtain ⟨r₀, hstart, hpages⟩ := exists_start
  obtain ⟨slab, a, b, d, r, hrun, _, hlive, _, _, _, _, _, _, hheader, hround⟩ :=
    hstart.fill (hpages.mono (by omega)) fun _ _ _ _ _ hpages => (Run.smallInOrder_alloc 7 hpages).1
  have ha : a ∈ r.live := by simp [hlive]
  refine ⟨r₀, r, a, hstart, hrun, ha, ((slab_free_exact hstart hrun).1 a ha).mpr (.inl ?_)⟩
  rw [hround a (by simp), hheader]

/-- The client of a page block of one page writes the magic number of slabs to its start, and after it what
reads as a full slab of 16-byte objects. `slab_free` returns and has not given the page back. -/
theorem slab_free_keeps_page : ∃ r₀ r addr s', r₀.Start ∧ Reaches (Run.Move Run.InOrder) r₀ r ∧
    (addr, PGSIZE) ∈ r.blocks ∧ r.s.slabFree addr = .ok s' ∧ ¬ ReleasesBlock r addr PGSIZE := by
  obtain ⟨r₀, hstart, hpages⟩ := exists_start
  obtain ⟨q, hq⟩ := hpages.exists_page
  have hinv : r₀.Inv True := hstart.inv.1
  obtain ⟨held, hp⟩ := hinv.pages
  obtain ⟨hmanaged, hnot⟩ := hp.wf.freePage_iff.mp hq
  obtain ⟨hsafe, _⟩ := hp.wf.pmemAllocPages_one hmanaged hnot
  obtain ⟨p, pmem', hcall, hne, _, _⟩ := Slabs.allocPages_one hp.wf hq
  have hlarge : slabSize 2048 = 0 := by decide
  have hpages' : largePages 2048 = 1 := by decide
  have hret : r₀.s.slabAlloc 2048 = .ok (r₀.s.pmem.pageAddr p,
      { r₀.s.clear (r₀.s.pmem.pageAddr p) PGSIZE with pmem := pmem' }) := by
    rw [Slabs.slabAlloc]
    simp only [hlarge, if_true]
    rw [← largePages, hpages']
    exact hcall
  generalize { r₀.s.clear (r₀.s.pmem.pageAddr p) PGSIZE with pmem := pmem' } = s₁ at hret
  generalize r₀.s.pmem.pageAddr p = addr at *
  have hmeets : r₀.InOrder (.alloc 2048) := by
    refine ⟨?_, trivial⟩
    rw [Run.Paged, if_pos hlarge, hpages']
    exact hsafe
  have hstep₁ := Run.Step.block 2048 addr s₁ hlarge hret hne PGSIZE (by decide)
  have hinv₁ := hinv.step hmeets.1 (fun _ => hmeets.2) hstep₁
  have hblock : (addr, PGSIZE) ∈ ((addr, PGSIZE) :: r₀.blocks) := List.mem_cons_self
  have hin : ∀ a, ¬ (addr ≤ a ∧ a < addr + PGSIZE) → a ≠ addr := by
    rintro a hout rfl
    exact hout ⟨le_refl _, by simp [PGSIZE]⟩
  have hstep₂ := Run.Step.writeBlock (r := { r₀ with s := s₁, blocks := (addr, PGSIZE) :: r₀.blocks }) addr PGSIZE hblock
    (Function.update s₁.magic addr SLAB_MAGIC) (Function.update s₁.header addr ⟨0, 0, 16, 0⟩) s₁.link
    (fun a hout => Function.update_of_ne (hin a hout) _ _) (fun a hout => Function.update_of_ne (hin a hout) _ _)
    fun _ _ => rfl
  have hinv₂ := hinv₁.step (by trivial) (by exact fun _ => trivial) hstep₂
  obtain ⟨held₁, hp₁⟩ := hinv₁.pages
  have haligned := (hp₁.block addr PGSIZE hblock).aligned hp₁.wf
  have hle := (hp₁.block addr PGSIZE hblock).le hp₁.wf
  have hround : pgRoundDown addr = addr := by
    simp only [pgRoundDown, PGSIZE] at *
    omega
  have hsub : sub64 addr headerSize % 16 = 0 := by
    have hpos : addr ≠ 0 := hne
    simp only [sub64, headerSize, PGSIZE] at *
    omega
  have hrun₁ : Reaches (Run.Move Run.InOrder) r₀ _ := .single ⟨_, hmeets, hstep₁⟩
  have hrun₂ := hrun₁.tail ⟨.writeBlock addr PGSIZE, ⟨trivial, trivial⟩, hstep₂⟩
  obtain ⟨s', hret₂⟩ : ∃ s', Slabs.slabFree { s₁ with
      magic := Function.update s₁.magic addr SLAB_MAGIC
      header := Function.update s₁.header addr ⟨0, 0, 16, 0⟩ } addr = .ok s' := by
    rw [Slabs.slabFree]
    simp only [hround, Function.update_self, if_true, hsub, ne_eq, not_true_eq_false, if_false]
    exact ⟨_, rfl⟩
  refine ⟨r₀, _, addr, s', hstart, hrun₂, hblock, hret₂, fun hreleases => ?_⟩
  exact (hinv₂.releasesBlock_iff hblock).mp hreleases (Function.update_self _ _ _)

end SC7.Slab
