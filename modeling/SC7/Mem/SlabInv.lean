-- SUMMARY: Runs of `slab_alloc` and `slab_free`: the objects of every slab stay in order as long as no object is released below the first free one.
import SC7.Mem.SlabObjects

/-!
# Runs of the slab allocator

The invariant of a run has the objects of every slab, the pages that the page allocator has given out
for slabs and page blocks, and that the lists of a class only lead to slabs of the class. Nothing is said
here about the lists themselves, so the results hold also in runs in which slabs are lost from them.
-/

namespace SC7.Slab

open Function (update update_of_ne update_self)
open SC7

/-! ## The invariant -/

/-- The number of pages that `slab_alloc` asks for, for a large request. -/
def largePages (size : Nat) : Int := toInt32 (add64 size (PGSIZE - 1) / PGSIZE)

namespace Run

/-- Pages are there when they are needed, what is released is not null, and a page block that is released
does not begin with the magic number of slabs. -/
def Paged (r : Run) : Op → Prop
  | .alloc size =>
    if slabSize size = 0 then r.s.pmem.AllocSafe (largePages size) else ∃ q, r.s.pmem.FreePage q
  | .free addr => addr ≠ NULL ∧ ((∃ len, (addr, len) ∈ r.blocks) → r.s.magic addr ≠ SLAB_MAGIC)
  | .write _ _ | .writeBlock _ _ => True

/-- A released object is above the first free object of its slab, or the slab was full. -/
def Above (r : Run) : Op → Prop
  | .free addr =>
    addr ∈ r.live → (r.s.header (pgRoundDown addr)).free = 0 ∨ (r.s.header (pgRoundDown addr)).object < addr
  | .alloc _ | .write _ _ | .writeBlock _ _ => True

/-- The operations that keep the objects in order. -/
def InOrder (r : Run) (op : Op) : Prop := r.Paged op ∧ r.Above op

/-- The page allocator knows the slabs and the page blocks, and they are different pages. -/
structure Pages (r : Run) (held : List Block) : Prop where
  wf : r.s.pmem.Wf held
  slab : ∀ c, ∀ slab ∈ r.slabs c, Held r.s.pmem held slab PGSIZE
  block : ∀ addr len, (addr, len) ∈ r.blocks → Held r.s.pmem held addr len
  apart : ∀ c, ∀ slab ∈ r.slabs c, ∀ addr len, (addr, len) ∈ r.blocks → slab ≠ addr
  nodup : r.blocks.Nodup

/-- The slabs hold their objects, in order if `ordered`; every live object is in a slab, and the lists lead
to slabs of their class. -/
structure Inv (ordered : Prop) (r : Run) : Prop where
  pages : ∃ held, r.Pages held
  size : ∀ c, (r.s.cache c).size = slabSizeTable c
  freeSlab : ∀ c, (r.s.cache c).freeSlab = NULL ∨ (r.s.cache c).freeSlab ∈ r.slabs c
  fullSlab : ∀ c, (r.s.cache c).fullSlab = NULL ∨ (r.s.cache c).fullSlab ∈ r.slabs c
  next : ∀ c, ∀ slab ∈ r.slabs c, (r.s.header slab).next = NULL ∨ (r.s.header slab).next ∈ r.slabs c
  objects : ∀ c, ∀ slab ∈ r.slabs c, Objects ordered r.s r.live slab (slabSizeTable c)
  live : ∀ a ∈ r.live, a ≠ NULL → ∃ c, ∃ slab ∈ r.slabs c, a ∈ slots slab (slabSizeTable c)
  once : ∀ a, a ≠ NULL → a ∉ r.live.erase a
  null : ordered → NULL ∉ r.live

namespace Inv

variable {ordered : Prop} {r : Run} {c c' : Class} {slab addr q size len : Nat} {s' : Slabs} {held : List Block}
  {blocks : List (Nat × Nat)}

section Reading

variable (h : r.Inv ordered)

include h

theorem aligned (hslab : slab ∈ r.slabs c) : slab % PGSIZE = 0 := by
  obtain ⟨held, hpages⟩ := h.pages
  exact (hpages.slab c slab hslab).aligned hpages.wf

theorem slab_ne_null (hslab : slab ∈ r.slabs c) : slab ≠ NULL := by
  obtain ⟨held, hpages⟩ := h.pages
  exact (hpages.slab c slab hslab).ne_null hpages.wf

/-- A slab has one class. -/
theorem class_eq (hslab : slab ∈ r.slabs c) (hslab' : slab ∈ r.slabs c') : c = c' :=
  table_injective c c' ((h.objects c slab hslab).size_eq.symm.trans (h.objects c' slab hslab').size_eq)

/-- A live object is in the slab of its page. -/
theorem live_slot (haddr : addr ∈ r.live) (hne : addr ≠ NULL) :
    ∃ c, pgRoundDown addr ∈ r.slabs c ∧ addr ∈ slots (pgRoundDown addr) (slabSizeTable c) := by
  obtain ⟨c, slab, hslab, hslot⟩ := h.live addr haddr hne
  have hpage := pgRoundDown_slot (h.aligned hslab) hslot
  rw [← hpage] at hslab hslot
  exact ⟨c, hslab, hslot⟩

/-- The objects stay as they are if they do in the slab that an operation works on. -/
theorem objects_of_touches {live' : List Nat} (hslab : slab ∈ r.slabs c)
    (ht : Touches r.s s' r.live live' slab c) (hthis : Objects ordered s' live' slab (slabSizeTable c)) :
    ∀ c', ∀ b ∈ r.slabs c', Objects ordered s' live' b (slabSizeTable c') := by
  intro c' b hb
  by_cases heq : b = slab
  · subst heq
    rw [h.class_eq hb hslab]
    exact hthis
  · exact (h.objects c' b hb).other ht (h.aligned hslab) (h.aligned hb) heq

/-- An object has left its slab, or there was none and the client got `NULL`. -/
theorem objects_of_given (hslab : slab ∈ r.slabs c) (hmagic : s'.magic = r.s.magic)
    (hlink : s'.link = r.s.link) (hothers : ∀ b, b ≠ slab → SameObjects (r.s.header b) (s'.header b))
    (hslot : addr ≠ NULL → addr ∈ slots slab (slabSizeTable c))
    (hthis : Objects ordered s' (addr :: r.live) slab (slabSizeTable c)) :
    ∀ c', ∀ b ∈ r.slabs c', Objects ordered s' (addr :: r.live) b (slabSizeTable c') := by
  intro c' b hb
  by_cases hnull : addr = NULL
  · by_cases heq : b = slab
    · subst heq
      rw [h.class_eq hb hslab]
      exact hthis
    · refine (h.objects c' b hb).congr (by rw [hmagic]) (hothers b heq) (fun a _ _ => by rw [hlink]) fun a ha => ?_
      have hpos : a ≠ addr := by
        have hlo := (slot_bounds ha).1
        rw [hnull]
        simp only [headerSize] at hlo
        show a ≠ 0
        omega
      exact ⟨fun hin => (List.mem_cons.mp hin).resolve_left hpos, List.mem_cons_of_mem _⟩
  · refine h.objects_of_touches hslab ⟨fun b _ => by rw [hmagic], hothers, fun a _ => by rw [hlink], fun a ha => ?_⟩ hthis c' b hb
    refine ⟨fun hin => (List.mem_cons.mp hin).resolve_left ?_, List.mem_cons_of_mem _⟩
    rintro rfl
    exact ha (hslot hnull)

/-- What is live after a client got `addr`. -/
theorem live_given (hslab : slab ∈ r.slabs c) (hslot : addr ≠ NULL → addr ∈ slots slab (slabSizeTable c)) :
    ∀ a ∈ addr :: r.live, a ≠ NULL → ∃ c, ∃ b ∈ r.slabs c, a ∈ slots b (slabSizeTable c) := by
  intro a ha hne
  rcases List.mem_cons.mp ha with rfl | ha
  · exact ⟨c, slab, hslab, hslot hne⟩
  · exact h.live a ha hne

theorem once_given (hnot : addr ≠ NULL → addr ∉ r.live) : ∀ a, a ≠ NULL → a ∉ (addr :: r.live).erase a := by
  intro a hne hin
  by_cases heq : addr = a
  · subst heq
    rw [List.erase_cons_head] at hin
    exact hnot hne hin
  · rw [List.erase_cons_tail (by simpa using heq)] at hin
    exact h.once a hne ((List.mem_cons.mp hin).resolve_left (Ne.symm heq))

theorem once_erase : ∀ a, a ≠ NULL → a ∉ (r.live.erase addr).erase a := by
  intro a hne hin
  rw [List.erase_comm] at hin
  exact h.once a hne (List.mem_of_mem_erase hin)

end Reading

/-- The slabs of the classes with a new one. -/
theorem mem_update_slabs {slabs : Class → List Nat} {b : Nat} :
    b ∈ update slabs c (slab :: slabs c) c' ↔ (c' = c ∧ b = slab) ∨ b ∈ slabs c' := by
  by_cases hc : c' = c
  · subst hc
    simp
  · rw [update_of_ne hc]
    simp [hc]

/-- What `__create_slab_with_size` leaves: a slab of class `c` that was not there, and the others as they were. -/
structure Created (ordered : Prop) (r : Run) (c : Class) (slab : Nat) (s₁ : Slabs) : Prop where
  cache : s₁.cache = r.s.cache
  header : s₁.header slab = ⟨NULL, slab + headerSize, slabSizeTable c, objectNum (slabSizeTable c)⟩
  others : ∀ c', ∀ b ∈ r.slabs c', s₁.header b = r.s.header b
  new : ∀ c', slab ∉ r.slabs c'
  inv : Inv ordered { r with
    s := s₁.setCache c { s₁.cache c with freeSlab := slab }
    slabs := update r.slabs c (slab :: r.slabs c) }

variable (h : r.Inv ordered)

include h

/-- A new slab comes from a free page and belongs to its class alone. -/
theorem create (hq : r.s.pmem.FreePage q) {s₁ : Slabs}
    (hret : r.s.createSlab (slabSizeTable c) = .ok (slab, s₁)) : Created ordered r c slab s₁ := by
  obtain ⟨held, hpages⟩ := h.pages
  obtain ⟨p, pmem', hcall, hne, hwf', hsame⟩ := Slabs.createSlab_eq hpages.wf hq (slabSizeTable c)
  rw [hcall] at hret
  obtain ⟨rfl, rfl⟩ : r.s.pmem.pageAddr p = slab ∧ _ = s₁ := by simpa using hret
  generalize hslab : r.s.pmem.pageAddr p = slab at *
  set t : Slabs := { r.s.clear slab PGSIZE with pmem := pmem' } with ht
  have hout : Outside r.s (t.format slab (slabSizeTable c)) slab PGSIZE := (Outside.clear slab PGSIZE pmem').format c
  -- the new page among the blocks of the page allocator
  have hnew : Held pmem' (⟨p, 0⟩ :: held) slab PGSIZE :=
    ⟨⟨p, 0⟩, List.mem_cons_self, (hsame.pageAddr p).trans hslab, by simp [PGSIZE]⟩
  have hkeep : ∀ {addr len : Nat}, Held r.s.pmem held addr len → Held pmem' (⟨p, 0⟩ :: held) addr len :=
    fun hheld => hheld.mono hsame fun b hb => List.mem_cons_of_mem _ hb
  have hold : ∀ {addr len : Nat}, Held r.s.pmem held addr len → addr ≠ slab := by
    intro addr len hheld
    have hheld' : Held pmem' held addr len := hheld.mono hsame fun b hb => hb
    have hne' := hheld'.ne_new hwf'
    rwa [hsame.pageAddr, hslab] at hne'
  have hlive : ∀ a ∈ slots slab (slabSizeTable c), a ∉ r.live := by
    intro a ha hin
    have hpos : a ≠ NULL := by
      have hlo := (slot_bounds ha).1
      simp only [headerSize] at hlo
      show a ≠ 0
      omega
    obtain ⟨c', b, hb, hslot⟩ := h.live a hin hpos
    exact slots_disjoint (h.aligned hb) (hnew.aligned hwf') (hold (hpages.slab c' b hb)).symm ha hslot
  have hsize : ∀ c', (update r.s.cache c { r.s.cache c with freeSlab := slab } c').size =
      slabSizeTable c' := by
    intro c'
    by_cases hc : c' = c
    · subst hc
      rw [update_self]
      exact h.size c'
    · rw [update_of_ne hc]
      exact h.size c'
  have hheader : ∀ c', ∀ b ∈ r.slabs c', (t.format slab (slabSizeTable c)).header b = r.s.header b := fun c' b hb =>
    hout.header_slab hwf' (hkeep (hpages.slab c' b hb)) hnew (hold (hpages.slab c' b hb))
  refine ⟨rfl, by simp [Slabs.format], hheader, fun c' hb => hold (hpages.slab c' slab hb) rfl,
    ⟨⟨⟨p, 0⟩ :: held, ?_⟩, hsize, ?_, ?_, ?_, ?_, ?_, h.once, h.null⟩⟩
  · refine ⟨hwf', fun c' b hb => ?_, fun addr len hb => hkeep (hpages.block addr len hb), fun c' b hb addr len hin => ?_,
      hpages.nodup⟩
    · rcases mem_update_slabs.mp hb with ⟨_, rfl⟩ | hb
      · exact hnew
      · exact hkeep (hpages.slab c' b hb)
    · rcases mem_update_slabs.mp hb with ⟨_, rfl⟩ | hb
      · exact (hold (hpages.block addr len hin)).symm
      · exact hpages.apart c' b hb addr len hin
  · intro c'
    by_cases hc : c' = c
    · subst hc
      simp [Slabs.setCache]
    · simp only [Slabs.setCache, update_of_ne hc]
      exact h.freeSlab c'
  · intro c'
    by_cases hc : c' = c
    · subst hc
      simp only [Slabs.setCache, update_self]
      exact (h.fullSlab c').imp_right (List.mem_cons_of_mem _)
    · simp only [Slabs.setCache, update_of_ne hc]
      exact h.fullSlab c'
  · intro c' b hb
    rcases mem_update_slabs.mp hb with ⟨_, rfl⟩ | hb
    · exact .inl (by simp [Slabs.setCache, Slabs.format])
    · simp only [Slabs.setCache, hheader c' b hb]
      exact (h.next c' b hb).imp_right fun hmem => mem_update_slabs.mpr (.inr hmem)
  · intro c' b hb
    rcases mem_update_slabs.mp hb with ⟨rfl, rfl⟩ | hb
    · have hzero : ∀ a, b ≤ a → a < b + PGSIZE → t.link a = NULL := fun a hlo hhi => if_pos ⟨hlo, hhi⟩
      exact (format_objects hzero hlive).setCache
    · have hkept : Objects ordered (t.format slab (slabSizeTable c)) r.live b (slabSizeTable c') :=
        hout.objects hwf' (hkeep (hpages.slab c' b hb)) hnew (hold (hpages.slab c' b hb)) (h.objects c' b hb)
      exact hkept.setCache
  · intro a ha hne
    obtain ⟨c', b, hb, hslot⟩ := h.live a ha hne
    exact ⟨c', b, mem_update_slabs.mpr (.inr hb), hslot⟩

/-- The run after an object has been taken from one of its slabs. -/
theorem taken (hslab : slab ∈ r.slabs c) (hret : r.s.takeObject slab = .ok (addr, s')) :
    addr ≠ NULL ∧ addr ∉ r.live ∧ Inv ordered { r with s := s', live := addr :: r.live } := by
  obtain ⟨hne, rfl, hs'⟩ := Slabs.takeObject_ok hret
  obtain ⟨hslot, hnot⟩ := (h.objects c slab hslab).object_mem hne
  have hthis := (h.objects c slab hslab).take hne
  rw [← hs'] at hthis
  have hmagic : s'.magic = r.s.magic := by
    rw [hs']
    rfl
  have hlink : s'.link = r.s.link := by
    rw [hs']
    rfl
  have hothers : ∀ b, b ≠ slab → SameObjects (r.s.header b) (s'.header b) := by
    intro b hb
    rw [hs']
    simp only [Slabs.setHeader, update_of_ne hb]
    exact .refl _
  have hobjects := h.objects_of_given hslab hmagic hlink hothers (fun _ => hslot) hthis
  subst hs'
  refine ⟨hne, hnot, ⟨h.pages.imp fun held hp => ⟨hp.wf, hp.slab, hp.block, hp.apart, hp.nodup⟩, h.size, h.freeSlab,
    h.fullSlab, fun c' b hb => ?_, hobjects, h.live_given hslab fun _ => hslot, h.once_given fun _ => hnot, fun hord hin => ?_⟩⟩
  · by_cases hbs : b = slab
    · subst hbs
      simp only [Slabs.setHeader, update_self]
      exact h.next c' b hb
    · simp only [Slabs.setHeader, update_of_ne hbs]
      exact h.next c' b hb
  · exact h.null hord ((List.mem_cons.mp hin).resolve_left hne.symm)

/-- The run after the last object of a slab has been taken and the slab has moved to the full list. -/
theorem filled (hslab : slab ∈ r.slabs c) (hfree : (r.s.header slab).free = 1)
    (hret : (r.s.setHeader slab { r.s.header slab with object := NULL, free := 0 }).moveToFull c slab = .ok s') :
    (ordered → (r.s.header slab).object ≠ NULL) ∧
      ((r.s.header slab).object ≠ NULL → (r.s.header slab).object ∉ r.live) ∧
      Inv ordered { r with s := s', live := (r.s.header slab).object :: r.live } := by
  have hrel := Slabs.moveToFull_relinked hret
  have hnext : ∀ b, ((r.s.setHeader slab { r.s.header slab with object := NULL, free := 0 }).header b).next =
      (r.s.header b).next := by
    intro b
    by_cases hb : b = slab
    · subst hb
      simp [Slabs.setHeader]
    · simp [Slabs.setHeader, update_of_ne hb]
  have hothers : ∀ b, b ≠ slab → SameObjects (r.s.header b) (s'.header b) := by
    intro b hb
    have hsame := hrel.objects b
    simpa [Slabs.setHeader, update_of_ne hb] using hsame
  have hthis : Objects ordered s' ((r.s.header slab).object :: r.live) slab (slabSizeTable c) :=
    ((h.objects c slab hslab).takeLast hfree).congr (by rw [hrel.magic]) (hrel.objects slab)
      (fun a _ _ => by rw [hrel.link]) fun a _ => Iff.rfl
  have hne : ordered → (r.s.header slab).object ≠ NULL := fun hord =>
    (h.objects c slab hslab).object_ne_null hord (by omega)
  have hslot := fun hne => (h.objects c slab hslab).object_mem hne
  have hobjects := h.objects_of_given hslab hrel.magic hrel.link hothers (fun hne => (hslot hne).1) hthis
  refine ⟨hne, fun hne => (hslot hne).2, ⟨?_, fun c' => (hrel.size c').trans (h.size c'), fun c' => ?_, fun c' => ?_,
    fun c' b hb => ?_, hobjects, h.live_given hslab fun hne => (hslot hne).1, h.once_given fun hne => (hslot hne).2,
    fun hord hin => ?_⟩⟩
  · obtain ⟨held, hp⟩ := h.pages
    refine ⟨held, ⟨?_, fun c' b hb => ?_, fun a len ha => ?_, hp.apart, hp.nodup⟩⟩
    · rw [hrel.pmem]
      exact hp.wf
    · rw [hrel.pmem]
      exact hp.slab c' b hb
    · rw [hrel.pmem]
      exact hp.block a len ha
  · by_cases hc : c' = c
    · subst hc
      rw [hrel.freeSlab, hnext]
      exact h.next c' slab hslab
    · rw [hrel.other c' hc]
      exact h.freeSlab c'
  · by_cases hc : c' = c
    · subst hc
      rcases hrel.fullSlab with heq | heq
      · rw [heq]
        exact .inr hslab
      · rw [heq]
        exact h.fullSlab c'
    · rw [hrel.other c' hc]
      exact h.fullSlab c'
  · -- the last slab of the full list is one of the class
    have hlast := hrel.next (· ∈ r.slabs c) (fun hne => (h.fullSlab c).resolve_left hne) (fun b hb hne => by
      rw [hnext] at hne ⊢
      exact (h.next c b hb).resolve_left hne) b
    rcases hlast with heq | heq | ⟨heq, hin⟩
    · rw [heq, hnext]
      exact h.next c' b hb
    · exact .inl heq
    · rw [heq, h.class_eq hb hin]
      exact .inr hslab
  · exact h.null hord ((List.mem_cons.mp hin).resolve_left (hne hord).symm)

/-- A request for an object gets one that is not live. -/
theorem allocObject (hq : r.s.pmem.FreePage q) (hc : slabSize size = slabSizeTable c)
    (hret : r.s.slabAlloc size = .ok (addr, s')) :
    (ordered → addr ≠ NULL) ∧ (addr ≠ NULL → addr ∉ r.live) ∧
      Inv ordered { r with s := s', slabs := r.created c s', live := addr :: r.live } := by
  rw [Slabs.slabAlloc_eq h.size hc] at hret
  rcases Slabs.allocFromKmemCache_cases hret with ⟨hne, _, htake⟩ | ⟨hne, hfree, rfl, hmove⟩ | ⟨hnull, b, s₁, hcreate, htake⟩
  · have hslab := (h.freeSlab c).resolve_left hne
    rw [created, if_neg hne]
    obtain ⟨haddr, hnot, hinv⟩ := h.taken hslab htake
    exact ⟨fun _ => haddr, fun _ => hnot, hinv⟩
  · have hslab := (h.freeSlab c).resolve_left hne
    rw [created, if_neg hne]
    exact h.filled hslab hfree hmove
  · rw [h.size c] at hcreate
    have hcreated := h.create hq hcreate
    have hb : b ∈ update r.slabs c (b :: r.slabs c) c := by simp
    obtain ⟨haddr, hnot, hinv⟩ := hcreated.inv.taken hb htake
    have hfirst : (s'.cache c).freeSlab = b := by
      obtain ⟨_, _, rfl⟩ := Slabs.takeObject_ok htake
      simp [Slabs.setHeader, Slabs.setCache]
    rw [created, if_pos hnull, hfirst]
    exact ⟨fun _ => haddr, fun _ => hnot, hinv⟩

/-- An object does not begin a page, as a page block does. -/
theorem not_block (haddr : addr ∈ r.live) (hne : addr ≠ NULL) (len : Nat) : (addr, len) ∉ r.blocks := by
  intro hblock
  obtain ⟨held, hpages⟩ := h.pages
  obtain ⟨c, _, hslot⟩ := h.live_slot haddr hne
  have haligned := (hpages.block addr len hblock).aligned hpages.wf
  have hlo := (slot_bounds hslot).1
  simp only [pgRoundDown, PGSIZE, headerSize] at *
  omega

/-- `slab_free` goes to the slab of a live object. -/
theorem slabFree_eq (haddr : addr ∈ r.live) (hne : addr ≠ NULL) : r.s.slabFree addr =
      if (r.s.header (pgRoundDown addr)).free = 0 then .ok (r.s.freeToFull (pgRoundDown addr) addr)
      else r.s.freeToList (pgRoundDown addr) addr := by
  obtain ⟨c, hslab, hslot⟩ := h.live_slot haddr hne
  have hobjects := h.objects c _ hslab
  obtain ⟨held, hpages⟩ := h.pages
  have hle := (hpages.slab c _ hslab).le hpages.wf
  have haligned := sub64_slot (h.aligned hslab) hle hslot
  rw [Slabs.slabFree]
  simp only [if_pos hobjects.magic, hobjects.size_eq, haligned, ne_eq, not_true_eq_false, if_false]

/-- What the first object that comes back to a full slab changes. -/
theorem freeToFull_eq (hslab : slab ∈ r.slabs c) (addr : Nat) : r.s.freeToFull slab addr =
      ((r.s.setLink addr NULL).setHeader slab
        { r.s.header slab with next := (r.s.cache c).freeSlab, object := addr, free := 1 }).setCache c
        { r.s.cache c with fullSlab := (r.s.header slab).next, freeSlab := slab } := by
  have hfind : ((r.s.setLink addr NULL).setHeader slab { r.s.header slab with object := addr, free := 1 }).findKmemCache
      (r.s.header slab).size = some c := by
    rw [(h.objects c slab hslab).size_eq]
    exact Slabs.findKmemCache_eq h.size c
  rw [Slabs.freeToFull]
  simp only [hfind]
  simp [Slabs.setHeader, Slabs.setLink]

theorem freedToFull (haddr : addr ∈ r.live) (hne : addr ≠ NULL) (hzero : (r.s.header (pgRoundDown addr)).free = 0) :
    Inv ordered { r with s := r.s.freeToFull (pgRoundDown addr) addr, live := r.live.erase addr } := by
  obtain ⟨c, hslab, hslot⟩ := h.live_slot haddr hne
  have hobjects := h.objects c _ hslab
  have hthis := hobjects.freeToFull hzero hslot hne (h.once addr hne)
  generalize pgRoundDown addr = slab at *
  rw [h.freeToFull_eq hslab] at hthis ⊢
  refine ⟨h.pages.imp fun held hp => ⟨hp.wf, hp.slab, hp.block, hp.apart, hp.nodup⟩, fun c' => ?_, fun c' => ?_, fun c' => ?_,
    fun c' b hb => ?_, h.objects_of_touches hslab ⟨fun b _ => rfl, fun b hb => ?_, fun a ha => ?_, fun a ha => ?_⟩ hthis,
    fun a ha => h.live a (List.mem_of_mem_erase ha), h.once_erase, fun hord hin => h.null hord (List.mem_of_mem_erase hin)⟩
  · by_cases hc : c' = c
    · subst hc
      simpa [Slabs.setCache] using h.size c'
    · simpa [Slabs.setCache, Slabs.setHeader, Slabs.setLink, update_of_ne hc] using h.size c'
  · by_cases hc : c' = c
    · subst hc
      exact .inr (by simpa [Slabs.setCache] using hslab)
    · simpa [Slabs.setCache, Slabs.setHeader, Slabs.setLink, update_of_ne hc] using h.freeSlab c'
  · by_cases hc : c' = c
    · subst hc
      simpa [Slabs.setCache] using h.next c' slab hslab
    · simpa [Slabs.setCache, Slabs.setHeader, Slabs.setLink, update_of_ne hc] using h.fullSlab c'
  · by_cases hbs : b = slab
    · subst hbs
      rw [h.class_eq hb hslab]
      simpa [Slabs.setCache, Slabs.setHeader] using h.freeSlab c
    · simp only [Slabs.setCache, Slabs.setHeader, Slabs.setLink, update_of_ne hbs]
      exact h.next c' b hb
  · simp only [Slabs.setCache, Slabs.setHeader, Slabs.setLink, update_of_ne hb]
    exact .refl _
  · have hane : a ≠ addr := fun heq => ha (heq ▸ hslot)
    exact update_of_ne hane _ _
  · exact List.mem_erase_of_ne fun heq => ha (heq ▸ hslot)

/-- An object that comes back to a slab with a first free object. -/
theorem freedToList (haddr : addr ∈ r.live) (hne : addr ≠ NULL)
    (hobject : (r.s.header (pgRoundDown addr)).object ≠ NULL)
    (horder : ordered → (r.s.header (pgRoundDown addr)).object < addr) :
    ∃ c s', pgRoundDown addr ∈ r.slabs c ∧ r.s.freeToList (pgRoundDown addr) addr = .ok s' ∧
      FreedIn r.s s' r.live (pgRoundDown addr) addr c ∧ Inv ordered { r with s := s', live := r.live.erase addr } := by
  obtain ⟨c, hslab, hslot⟩ := h.live_slot haddr hne
  obtain ⟨s', hret, hfreed, hthis⟩ :=
    (h.objects c _ hslab).freeToList hobject hslot hne haddr (h.once addr hne) horder
  generalize pgRoundDown addr = slab at *
  obtain ⟨object, hheader⟩ := hfreed.header
  refine ⟨c, s', hslab, hret, hfreed, ⟨h.pages.imp fun held hp => ⟨?_, ?_, ?_, hp.apart, hp.nodup⟩, ?_, ?_, ?_,
    fun c' b hb => ?_, h.objects_of_touches hslab ⟨fun b _ => by rw [hfreed.magic], fun b hb => ?_, hfreed.link, fun a ha => ?_⟩
    hthis, fun a ha => h.live a (List.mem_of_mem_erase ha), h.once_erase,
    fun hord hin => h.null hord (List.mem_of_mem_erase hin)⟩⟩
  · rw [hfreed.pmem]
    exact hp.wf
  · rw [hfreed.pmem]
    exact hp.slab
  · rw [hfreed.pmem]
    exact hp.block
  · rw [hfreed.cache]
    exact h.size
  · rw [hfreed.cache]
    exact h.freeSlab
  · rw [hfreed.cache]
    exact h.fullSlab
  · by_cases hbs : b = slab
    · subst hbs
      simpa [hheader] using h.next c' b hb
    · simpa [hheader, update_of_ne hbs] using h.next c' b hb
  · rw [hheader, update_of_ne hb]
    exact .refl _
  · exact List.mem_erase_of_ne fun heq => ha (heq ▸ hslot)

/-- Writes to a page block, new or old, keep the invariant of the slabs. -/
theorem ofOutside (hpages : Pages { r with s := s', blocks } held) (hblock : Held s'.pmem held addr len)
    (hne : ∀ c, ∀ slab ∈ r.slabs c, slab ≠ addr) (hout : Outside r.s s' addr len)
    (hcache : s'.cache = r.s.cache) : Inv ordered { r with s := s', blocks } := by
  have hheader : ∀ c, ∀ slab ∈ r.slabs c, s'.header slab = r.s.header slab := fun c slab hslab =>
    hout.header_slab hpages.wf (hpages.slab c slab hslab) hblock (hne c slab hslab)
  refine ⟨⟨held, hpages⟩, ?_, ?_, ?_, ?_, ?_, h.live, h.once, h.null⟩
  · simpa only [hcache] using h.size
  · simpa only [hcache] using h.freeSlab
  · simpa only [hcache] using h.fullSlab
  · intro c slab hslab
    simpa only [hheader c slab hslab] using h.next c slab hslab
  · intro c slab hslab
    exact hout.objects hpages.wf (hpages.slab c slab hslab) hblock (hne c slab hslab) (h.objects c slab hslab)

/-- The page allocator may change as long as it knows the slabs and the page blocks. -/
theorem ofPages {pmem : Pmem} (hpages : Pages { r with s := { r.s with pmem }, blocks } held) :
    Inv ordered { r with s := { r.s with pmem }, blocks } :=
  ⟨⟨held, hpages⟩, h.size, h.freeSlab, h.fullSlab, h.next,
    fun c slab hslab => (h.objects c slab hslab).congr rfl (.refl _) (fun _ _ _ => rfl) fun _ _ => Iff.rfl, h.live,
    h.once, h.null⟩

/-- A large request gets a new block of the page allocator, or nothing. -/
theorem allocBlock (hlarge : slabSize size = 0) (hsafe : r.s.pmem.AllocSafe (largePages size))
    (hret : r.s.slabAlloc size = .ok (addr, s')) :
    s'.cache = r.s.cache ∧ (∀ c, ∀ slab ∈ r.slabs c, s'.header slab = r.s.header slab) ∧
      (addr = NULL → Inv ordered { r with s := s' }) ∧
      (addr ≠ NULL → Inv ordered { r with
        s := s'
        blocks := (addr, 2 ^ (getOrder (largePages size).toNat).toNat * PGSIZE) :: r.blocks }) := by
  obtain ⟨held, hpages⟩ := h.pages
  rw [Slabs.slabAlloc] at hret
  simp only [hlarge, if_true] at hret
  rw [← largePages, Slabs.allocPages] at hret
  rcases hpages.wf.pmemAllocPages (largePages size) hsafe with
    ⟨pmem, hcall, hwf, hsame, _⟩ | ⟨b, pmem, hcall, hne, hhanded, horder⟩
  · rw [hcall] at hret
    obtain ⟨rfl, rfl⟩ : NULL = addr ∧ { r.s with pmem } = s' := by simpa using hret
    refine ⟨rfl, fun _ _ _ => rfl,
      fun _ => h.ofPages ⟨hwf, fun c slab hslab => ?_, fun a len ha => ?_, hpages.apart, hpages.nodup⟩,
      fun hno => absurd rfl hno⟩
    · exact (hpages.slab c slab hslab).mono hsame fun b hb => hb
    · exact (hpages.block a len ha).mono hsame fun b hb => hb
  · rw [hcall] at hret
    simp only [if_neg hne, horder, Int.toNat_natCast] at hret ⊢
    obtain ⟨rfl, rfl⟩ : r.s.pmem.pageAddr b.page = addr ∧ _ = s' := by simpa using hret
    have hnew : Held pmem (b :: held) (r.s.pmem.pageAddr b.page) (2 ^ b.order * PGSIZE) :=
      ⟨b, List.mem_cons_self, hhanded.same.pageAddr _, rfl⟩
    have hold : ∀ {a len : Nat}, Held r.s.pmem held a len → a ≠ r.s.pmem.pageAddr b.page := by
      intro a len hheld
      have hheld' : Held pmem held a len := hheld.mono hhanded.same fun b hb => hb
      have hne' := hheld'.ne_new hhanded.wf
      rwa [hhanded.same.pageAddr] at hne'
    have hkept : ∀ c, ∀ slab ∈ r.slabs c, Held pmem (b :: held) slab PGSIZE := fun c slab hslab =>
      (hpages.slab c slab hslab).mono hhanded.same fun b hb => List.mem_cons_of_mem _ hb
    have hout := Outside.clear (s := r.s) (r.s.pmem.pageAddr b.page) (2 ^ b.order * PGSIZE) pmem
    refine ⟨rfl, fun c slab hslab => hout.header_slab hhanded.wf (hkept c slab hslab) hnew (hold (hpages.slab c slab hslab)),
      fun hno => absurd hno hne, fun _ => ?_⟩
    refine h.ofOutside ⟨hhanded.wf, hkept, fun a len ha => ?_, fun c slab hslab a len ha => ?_, ?_⟩ hnew
      (fun c slab hslab => hold (hpages.slab c slab hslab)) hout rfl
    · rcases List.mem_cons.mp ha with heq | ha
      · obtain ⟨rfl, rfl⟩ := Prod.mk.inj heq
        exact hnew
      · exact (hpages.block a len ha).mono hhanded.same fun b hb => List.mem_cons_of_mem _ hb
    · rcases List.mem_cons.mp ha with heq | ha
      · obtain ⟨rfl, rfl⟩ := Prod.mk.inj heq
        exact hold (hpages.slab c slab hslab)
      · exact hpages.apart c slab hslab a len ha
    · exact List.nodup_cons.mpr ⟨fun hin => hold (hpages.block _ _ hin) rfl, hpages.nodup⟩

/-- A page block that does not look like a slab goes back to the page allocator. -/
theorem freedBlock (hblock : (addr, len) ∈ r.blocks) (hmagic : r.s.magic addr ≠ SLAB_MAGIC) :
    ∃ pmem, r.s.slabFree addr = .ok { r.s with pmem } ∧ Pmem.SameRegion r.s.pmem pmem ∧
      (∀ held, r.Pages held → ∃ b ∈ held, r.s.pmem.pageAddr b.page = addr ∧ len = 2 ^ b.order * PGSIZE ∧
        pmem.Wf (held.erase b)) ∧
      Inv ordered { r with s := { r.s with pmem }, blocks := r.blocks.erase (addr, len) } := by
  obtain ⟨held₀, hpages₀⟩ := h.pages
  have haligned := (hpages₀.block addr len hblock).aligned hpages₀.wf
  have hround : pgRoundDown addr = addr := by
    simp only [pgRoundDown, PGSIZE] at *
    omega
  have hrelease : ∀ held, r.Pages held → ∃ b ∈ held, ∃ pmem, r.s.pmem.pageAddr b.page = addr ∧
      len = 2 ^ b.order * PGSIZE ∧ r.s.pmem.pmemFreePages addr 1 = some pmem ∧ pmem.Wf (held.erase b) ∧
      Pmem.SameRegion r.s.pmem pmem := by
    intro held hpages
    obtain ⟨b, hb, rfl, hlen⟩ := hpages.block addr len hblock
    have hone : (1 : Int) ≤ 2 ^ b.order := by exact_mod_cast Nat.one_le_two_pow
    obtain ⟨pmem, hcall, hwf, hsame, _⟩ := hpages.wf.pmemFreePages hb b.page_mem Int.one_pos hone
    exact ⟨b, hb, pmem, rfl, hlen, hcall, hwf, hsame⟩
  obtain ⟨b, hb, pmem, haddr, hlen, hcall, hwf, hsame⟩ := hrelease held₀ hpages₀
  refine ⟨pmem, ?_, hsame, fun held hpages => ?_, ?_⟩
  · rw [Slabs.slabFree]
    simp only [hround, if_neg hmagic, haligned, if_true, hcall]
  · obtain ⟨b', hb', pmem', haddr', hlen', hcall', hwf', _⟩ := hrelease held hpages
    obtain rfl : pmem = pmem' := Option.some.inj (hcall.symm.trans hcall')
    exact ⟨b', hb', haddr', hlen', hwf'⟩
  · -- the other slabs and blocks are other blocks of the page allocator
    have hother : ∀ {a l : Nat}, Held r.s.pmem held₀ a l → a ≠ addr → Held pmem (held₀.erase b) a l := by
      rintro a l ⟨b', hb', ha, hl⟩ hne
      refine ⟨b', ?_, (hsame.pageAddr _).trans ha, hl⟩
      rw [List.mem_erase_of_ne]
      · exact hb'
      · rintro rfl
        exact hne (ha.symm.trans haddr)
    refine h.ofPages ⟨hwf, fun c slab hslab => ?_, fun a l ha => ?_, fun c slab hslab a l ha => ?_, hpages₀.nodup.erase _⟩
    · exact hother (hpages₀.slab c slab hslab) (hpages₀.apart c slab hslab addr len hblock)
    · obtain ⟨hne, hin⟩ := hpages₀.nodup.mem_erase_iff.mp ha
      refine hother (hpages₀.block a l hin) ?_
      rintro rfl
      obtain ⟨b', hb', ha', hl'⟩ := hpages₀.block a l hin
      have hpage := Pmem.pageAddr_inj (ha'.trans haddr.symm)
      have heq := hpages₀.wf.eq_of_mem hb' hb b'.page_mem (hpage ▸ b.page_mem)
      exact hne (Prod.ext rfl (hl'.trans (heq ▸ hlen.symm)))
    · exact hpages₀.apart c slab hslab a l (List.mem_of_mem_erase ha)

/-- What a client writes to its objects is not looked at. -/
theorem written (haddr : addr ∈ r.live) (value : Nat) : Inv ordered { r with s := r.s.setLink addr value } := by
  refine ⟨h.pages.imp fun held hp => ⟨hp.wf, hp.slab, hp.block, hp.apart, hp.nodup⟩, h.size, h.freeSlab, h.fullSlab,
    h.next, fun c slab hslab => (h.objects c slab hslab).congr rfl (.refl _) (fun a _ hnot => ?_) fun _ _ => Iff.rfl,
    h.live, h.once, h.null⟩
  have hne : a ≠ addr := fun heq => hnot (heq ▸ haddr)
  exact update_of_ne hne _ _

/-- Every operation keeps the invariant, if the pages are there; the objects stay in order if those that are
released are. -/
theorem step {op : Op} {r' : Run} (hmeets : r.Paged op) (habove : ordered → r.Above op)
    (hstep : r.Step op r') : r'.Inv ordered := by
  cases hstep with
  | object size addr c s' hc hret =>
    have hpos : slabSize size ≠ 0 := by
      have := (table_facts c).1
      omega
    rw [Paged, if_neg hpos] at hmeets
    obtain ⟨q, hq⟩ := hmeets
    exact (h.allocObject hq hc hret).2.2
  | block size addr s' hlarge hret hne len hlen =>
    rw [Paged, if_pos hlarge] at hmeets
    rw [hlen]
    exact (h.allocBlock hlarge hmeets hret).2.2.2 hne
  | noBlock size s' hlarge hret =>
    rw [Paged, if_pos hlarge] at hmeets
    exact (h.allocBlock hlarge hmeets hret).2.2.1 rfl
  | freeObject addr s' hlive hret =>
    rw [h.slabFree_eq hlive hmeets.1] at hret
    by_cases hzero : (r.s.header (pgRoundDown addr)).free = 0
    · rw [if_pos hzero] at hret
      cases hret
      exact h.freedToFull hlive hmeets.1 hzero
    · rw [if_neg hzero] at hret
      obtain ⟨_, s₁, _, hret', _, hinv⟩ := h.freedToList hlive hmeets.1 (Slabs.freeToList_object hret)
        fun hord => (habove hord hlive).resolve_left hzero
      rw [hret'] at hret
      cases hret
      exact hinv
  | freeBlock addr len s' hlive hret =>
    obtain ⟨pmem, hret', _, _, hinv⟩ := h.freedBlock hlive (hmeets.2 ⟨len, hlive⟩)
    rw [hret'] at hret
    cases hret
    exact hinv
  | write addr value hlive => exact h.written hlive value
  | writeBlock addr len hlive magic header link hmagic hheader hlink =>
    obtain ⟨held, hpages⟩ := h.pages
    exact h.ofOutside ⟨hpages.wf, hpages.slab, hpages.block, hpages.apart, hpages.nodup⟩ (hpages.block addr len hlive)
      (fun c slab hslab => hpages.apart c slab hslab addr len hlive) ⟨hmagic, hheader, hlink⟩ rfl

end Inv

end Run

/-! ## The start -/

/-- At least `n` pages are free. -/
def FreePages (pmem : Pmem) (n : Nat) : Prop :=
  ∃ pages : List Nat, pages.Nodup ∧ n ≤ pages.length ∧ ∀ q ∈ pages, pmem.FreePage q

section

variable {pmem pmem' : Pmem} {held : List Block} {n p : Nat}

theorem FreePages.exists_page (h : FreePages pmem (n + 1)) : ∃ q, pmem.FreePage q := by
  obtain ⟨pages, _, hlen, hfree⟩ := h
  cases pages with
  | nil => simp at hlen
  | cons q pages => exact ⟨q, hfree q List.mem_cons_self⟩

theorem FreePages.mono {m : Nat} (h : FreePages pmem m) (hle : n ≤ m) : FreePages pmem n := by
  obtain ⟨pages, hnodup, hlen, hfree⟩ := h
  exact ⟨pages, hnodup, hle.trans hlen, hfree⟩

/-- Handing out one page leaves the others. -/
theorem FreePages.handed (h : FreePages pmem (n + 1)) (hwf : pmem.Wf held) (hwf' : pmem'.Wf (⟨p, 0⟩ :: held))
    (hsame : Pmem.SameRegion pmem pmem') : FreePages pmem' n := by
  obtain ⟨pages, hnodup, hlen, hfree⟩ := h
  refine ⟨pages.erase p, hnodup.erase p, ?_, fun q hq => ?_⟩
  · have hle : pages.length - 1 ≤ (pages.erase p).length := List.le_length_erase
    omega
  · obtain ⟨hne, hin⟩ := hnodup.mem_erase_iff.mp hq
    obtain ⟨hmanaged, hnot⟩ := hwf.freePage_iff.mp (hfree q hin)
    refine hwf'.freePage_iff.mpr ⟨?_, ?_⟩
    · rw [Pmem.managed_congr hsame]
      exact hmanaged
    · rintro ⟨b, hb, hqb⟩
      rcases List.mem_cons.mp hb with rfl | hb
      · rw [Block.mem_def] at hqb
        simp only [pow_zero] at hqb
        omega
      · exact hnot ⟨b, hb, hqb⟩

end

/-- A class with one slab, all of whose objects are free. -/
structure Fresh (s : Slabs) (c : Class) : Prop where
  ne_null : (s.cache c).freeSlab ≠ NULL
  full : (s.cache c).fullSlab = NULL
  next : (s.header (s.cache c).freeSlab).next = NULL
  free : (s.header (s.cache c).freeSlab).free = objectNum (slabSizeTable c)

namespace Run.Inv

variable {ordered : Prop} {r : Run} {c : Class}

/-- The rounds of `slab_init`. -/
theorem init (cs : List Class) {n : Nat} (h : r.Inv ordered) (hpages : FreePages r.s.pmem (n + cs.length)) (hnodup : cs.Nodup)
    (hnew : ∀ c ∈ cs, r.s.cache c = ⟨NULL, NULL, slabSizeTable c⟩ ∧ r.slabs c = [])
    (hdone : ∀ c, c ∉ cs → r.slabs c = [(r.s.cache c).freeSlab] ∧ Fresh r.s c) :
    ∃ s', cs.foldlM Slabs.initCache r.s = .ok s' ∧
      Inv ordered { r with s := s', slabs := fun c => [(s'.cache c).freeSlab] } ∧ (∀ c, Fresh s' c) ∧ FreePages s'.pmem n := by
  induction cs generalizing r with
  | nil =>
    have hslabs : r.slabs = fun c => [(r.s.cache c).freeSlab] := funext fun c => (hdone c List.not_mem_nil).1
    exact ⟨r.s, rfl, hslabs ▸ h, fun c => (hdone c List.not_mem_nil).2, hpages⟩
  | cons c cs ih =>
    obtain ⟨hnot, hnodup'⟩ := List.nodup_cons.mp hnodup
    obtain ⟨hcache, hempty⟩ := hnew c List.mem_cons_self
    obtain ⟨q, hq⟩ := hpages.exists_page
    obtain ⟨held, hp⟩ := h.pages
    obtain ⟨p, pmem', hcall, _, hwf', hsame⟩ := Slabs.createSlab_eq hp.wf hq (slabSizeTable c)
    have hcreated := h.create hq hcall
    have hfree : FreePages pmem' (n + cs.length) := hpages.handed hp.wf hwf' hsame
    generalize hs₁ : Slabs.format _ _ (slabSizeTable c) = s₁ at hcall hcreated
    generalize r.s.pmem.pageAddr p = slab at hcall hcreated
    have hkmem : s₁.cache c = ⟨NULL, NULL, slabSizeTable c⟩ := by rw [hcreated.cache, hcache]
    have hround : r.s.initCache c = .ok (s₁.setCache c { s₁.cache c with freeSlab := slab }) := by
      rw [Slabs.initCache, hcall, hkmem]
      rfl
    have hpmem : s₁.pmem = pmem' := by
      rw [← hs₁]
      rfl
    have hother : ∀ c', c' ≠ c → (s₁.setCache c { s₁.cache c with freeSlab := slab }).cache c' = r.s.cache c' := by
      intro c' hc
      simp only [Slabs.setCache, update_of_ne hc, hcreated.cache]
    have hnew' : ∀ c' ∈ cs, (s₁.setCache c { s₁.cache c with freeSlab := slab }).cache c' =
        ⟨NULL, NULL, slabSizeTable c'⟩ ∧ update r.slabs c (slab :: r.slabs c) c' = [] := by
      intro c' hc'
      have hne : c' ≠ c := fun heq => hnot (heq ▸ hc')
      obtain ⟨hk, hs⟩ := hnew c' (List.mem_cons_of_mem _ hc')
      exact ⟨(hother c' hne).trans hk, (update_of_ne hne _ _).trans hs⟩
    have hdone' : ∀ c', c' ∉ cs → update r.slabs c (slab :: r.slabs c) c' =
        [((s₁.setCache c { s₁.cache c with freeSlab := slab }).cache c').freeSlab] ∧
        Fresh (s₁.setCache c { s₁.cache c with freeSlab := slab }) c' := by
      intro c' hc'
      by_cases hne : c' = c
      · subst hne
        have hfirst : ((s₁.setCache c' { s₁.cache c' with freeSlab := slab }).cache c') = ⟨slab, NULL, slabSizeTable c'⟩ := by
          simp [Slabs.setCache, hkmem]
        refine ⟨?_, ⟨?_, ?_, ?_, ?_⟩⟩
        · simp only [hfirst, update_self, hempty]
        · rw [hfirst]
          exact hcreated.inv.slab_ne_null (mem_update_slabs.mpr (.inl ⟨rfl, rfl⟩))
        · rw [hfirst]
        · rw [hfirst]
          simp [Slabs.setCache, hcreated.header]
        · rw [hfirst]
          simp [Slabs.setCache, hcreated.header]
      · obtain ⟨hs, hf⟩ := hdone c' (by simp [hne, hc'])
        have hin : (r.s.cache c').freeSlab ∈ r.slabs c' := by
          rw [hs]
          exact List.mem_singleton_self _
        refine ⟨?_, ⟨?_, ?_, ?_, ?_⟩⟩
        · simpa [update_of_ne hne, hother c' hne] using hs
        · rw [hother c' hne]
          exact hf.ne_null
        · rw [hother c' hne]
          exact hf.full
        · rw [hother c' hne]
          simp only [Slabs.setCache, hcreated.others c' _ hin]
          exact hf.next
        · rw [hother c' hne]
          simp only [Slabs.setCache, hcreated.others c' _ hin]
          exact hf.free
    have hfree' : FreePages (s₁.setCache c { s₁.cache c with freeSlab := slab }).pmem (n + cs.length) := by
      rw [← hpmem] at hfree
      exact hfree
    obtain ⟨s', hrounds, hinv, hfresh⟩ := ih hcreated.inv hfree' hnodup' hnew' hdone'
    refine ⟨s', ?_, hinv, hfresh⟩
    rw [List.foldlM_cons, hround]
    exact hrounds

end Run.Inv

/-- `slab_init` returns if there are nine pages, and leaves one slab to each class. -/
theorem slabInit_ok {ordered : Prop} {pmem : Pmem} {held : List Block} {magic link : Nat → Nat} {header : Nat → Header} {n : Nat}
    (hwf : pmem.Wf held) (hpages : FreePages pmem (n + 9)) :
    ∃ s, (boot pmem magic header link).slabInit = .ok s ∧
      Run.Inv ordered ⟨s, fun c => [(s.cache c).freeSlab], [], []⟩ ∧ (∀ c, Fresh s c) ∧ FreePages s.pmem n := by
  obtain ⟨q, hq⟩ := hpages.exists_page
  obtain ⟨p, pmem', hcall, hne, hwf', hsame⟩ :=
    @Slabs.allocPages_one (boot pmem magic header link) held q hwf hq
  have hinv : Run.Inv ordered ⟨{ (boot pmem magic header link).clear (pmem.pageAddr p) PGSIZE with pmem := pmem' },
      fun _ => [], [], []⟩ :=
    ⟨⟨⟨p, 0⟩ :: held, ⟨hwf', by simp, by simp, by simp, List.nodup_nil⟩⟩, fun _ => rfl, fun _ => .inl rfl, fun _ => .inl rfl,
      by simp, by simp, by simp, by simp, by simp⟩
  obtain ⟨s, hrounds, hinv', hfresh⟩ := hinv.init (List.finRange 8)
    (n := n) (by simpa using hpages.handed hwf hwf' hsame) (List.nodup_finRange 8) (fun c _ => ⟨rfl, rfl⟩)
    (fun c hc => absurd (List.mem_finRange c) hc)
  refine ⟨s, ?_, hinv', hfresh⟩
  rw [Slabs.slabInit, hcall]
  exact (if_neg hne).trans hrounds

/-- The invariant holds after `slab_init`. -/
theorem Run.Start.inv {ordered : Prop} {r : Run} (h : r.Start) : r.Inv ordered ∧ ∀ c, Fresh r.s c := by
  obtain ⟨pmem, held, magic, header, link, hwf, ⟨pages, hnodup, hlen, hfree⟩, hinit, hslabs, hlive, hblocks⟩ := h
  obtain ⟨s, hinit', hinv, hfresh, _⟩ := @slabInit_ok ordered pmem held magic link header 0 hwf
    ⟨pages, hnodup, Nat.le_of_eq hlen.symm, hfree⟩
  rw [hinit] at hinit'
  cases hinit'
  refine ⟨?_, hfresh⟩
  rw [← hslabs, ← hlive, ← hblocks] at hinv
  exact hinv

end SC7.Slab
