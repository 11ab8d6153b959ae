-- SUMMARY: The object lists of slabs: free and live objects share out the slots of every slab, in which runs.
import SC7.Mem.Slab

/-!
# Objects

The slots of a slab are the places of its objects. The free list of a slab is in address order, holds
as many objects as the header says, and holds exactly the slots that are not live. `slab_free` keeps this
unless the object is below the first free one: then the rest of the list is lost.
-/

namespace SC7.Slab

open Function (update update_of_ne update_self)
open SC7

/-! ## Slots -/

/-- The addresses of the objects of a slab. -/
def slots (slab size : Nat) : List Nat := (List.range (objectNum size)).map fun k => slab + headerSize + k * size

section

variable {slab size a : Nat} {c : Class}

theorem mem_slots : a ∈ slots slab size ↔ ∃ k < objectNum size, a = slab + headerSize + k * size := by
  simp only [slots, List.mem_map, List.mem_range, eq_comm]

/-- The numbers of a size class. -/
theorem table_facts : ∀ c : Class, 8 ≤ slabSizeTable c ∧ slabSizeTable c ∣ PGSIZE ∧ 3 ≤ objectNum (slabSizeTable c) ∧
    objectNum (slabSizeTable c) * slabSizeTable c + headerSize ≤ PGSIZE ∧
    objectNum (slabSizeTable c) < PGSIZE / 8 := by
  decide

theorem table_injective : ∀ c c' : Class, slabSizeTable c = slabSizeTable c' → c = c' := by
  decide

theorem slot_bounds (h : a ∈ slots slab (slabSizeTable c)) :
    slab + headerSize ≤ a ∧ a + slabSizeTable c ≤ slab + PGSIZE := by
  obtain ⟨k, hk, rfl⟩ := mem_slots.mp h
  obtain ⟨_, _, _, hroom, _⟩ := table_facts c
  have hle : (k + 1) * slabSizeTable c ≤ objectNum (slabSizeTable c) * slabSizeTable c :=
    Nat.mul_le_mul_right _ hk
  rw [Nat.add_mul, Nat.one_mul] at hle
  omega

theorem slot_lt (h : a ∈ slots slab (slabSizeTable c)) : a < slab + PGSIZE := by
  have hbounds := slot_bounds h
  have hpos := (table_facts c).1
  omega

/-- A slot tells the page it is in. -/
theorem pgRoundDown_slot (haligned : slab % PGSIZE = 0) (h : a ∈ slots slab (slabSizeTable c)) :
    pgRoundDown a = slab := by
  have hlo := (slot_bounds h).1
  have hhi := slot_lt h
  simp only [pgRoundDown, PGSIZE, headerSize] at *
  omega

/-- `slab_free` takes the address of a slot for aligned. -/
theorem sub64_slot (haligned : slab % PGSIZE = 0) (hlt : slab + PGSIZE ≤ 2 ^ 64)
    (h : a ∈ slots slab (slabSizeTable c)) : sub64 a headerSize % slabSizeTable c = 0 := by
  have hhi := slot_lt h
  obtain ⟨k, _, rfl⟩ := mem_slots.mp h
  have hsub : sub64 (slab + headerSize + k * slabSizeTable c) headerSize = slab + k * slabSizeTable c := by
    generalize k * slabSizeTable c = m at *
    simp only [sub64, headerSize] at *
    omega
  obtain ⟨_, hdvd, _⟩ := table_facts c
  have hslab : slabSizeTable c ∣ slab := hdvd.trans (Nat.dvd_of_mod_eq_zero haligned)
  rw [hsub]
  exact Nat.mod_eq_zero_of_dvd (Nat.dvd_add hslab (Nat.dvd_mul_left _ k))

end

/-! ## A new slab -/

section

variable {size : Nat}

/-- The loop writes the links of the objects it goes over. -/
theorem linkObjects_other {a : Nat} (j object : Nat) (link : Nat → Nat)
    (h : ∀ k < j, a ≠ object + k * size) : linkObjects size j object link a = link a := by
  induction j generalizing object link with
  | zero => rfl
  | succ j ih =>
    rw [linkObjects, ih]
    · exact update_of_ne (by simpa using h 0 (Nat.succ_pos j)) _ _
    · intro k hk heq
      refine h (k + 1) (Nat.succ_lt_succ hk) ?_
      rw [heq, Nat.add_mul, Nat.one_mul]
      omega

/-- The objects are linked in address order, and the last one keeps its null link. -/
theorem linkObjects_chain (hsize : 0 < size) (j object : Nat) (link : Nat → Nat) (hne : object ≠ NULL)
    (hlast : link (object + j * size) = NULL) :
    Chain NULL (linkObjects size j object link) object ((List.range (j + 1)).map fun k => object + k * size) := by
  induction j generalizing object link with
  | zero => simpa [Chain, linkObjects, hne] using hlast
  | succ j ih =>
    have hlink : linkObjects size (j + 1) object link object = object + size := by
      rw [linkObjects, linkObjects_other, update_self]
      intro k _
      omega
    have hnext : object + size ≠ 0 := by omega
    have htail := ih (object + size) (update link object (object + size)) hnext (by
      rw [update_of_ne (by omega)]
      rw [Nat.add_mul, Nat.one_mul, Nat.add_comm (j * size), ← Nat.add_assoc] at hlast
      exact hlast)
    rw [List.range_succ_eq_map, List.map_cons, List.map_map]
    have hzero : object + 0 * size = object := by omega
    rw [hzero]
    refine ⟨rfl, hne, ?_⟩
    rw [hlink]
    have hmap : ((fun k => object + k * size) ∘ Nat.succ) = fun k => object + size + k * size := by
      funext k
      simp only [Function.comp_apply, Nat.succ_eq_add_one, Nat.add_mul, Nat.one_mul]
      omega
    rw [hmap]
    exact htail

end

/-! ## The objects of one slab -/

/-- The free list of the slab holds slots that are not live. If it is in order it is in address order, has
the length that the header says, and holds all such slots. -/
structure Objects (ordered : Prop) (s : Slabs) (live : List Nat) (slab size : Nat) : Prop where
  magic : s.magic slab = SLAB_MAGIC
  size_eq : (s.header slab).size = size
  list : ∃ l, Chain NULL s.link (s.header slab).object l ∧ (∀ a ∈ l, a ∈ slots slab size ∧ a ∉ live) ∧
    (ordered → l.length = (s.header slab).free ∧ l.Pairwise (· < ·) ∧ ∀ a ∈ slots slab size, a ∉ live → a ∈ l)

/-- The header says the same of the objects. -/
structure SameObjects (h h' : Header) : Prop where
  size : h'.size = h.size
  object : h'.object = h.object
  free : h'.free = h.free

theorem SameObjects.refl (h : Header) : SameObjects h h := ⟨rfl, rfl, rfl⟩

namespace Objects

variable {ordered : Prop} {s s' : Slabs} {live live' : List Nat} {slab size a x : Nat}

variable (h : Objects ordered s live slab size)

include h

/-- What other slabs and other objects do does not matter. -/
theorem congr (hmagic : s'.magic slab = s.magic slab) (hheader : SameObjects (s.header slab) (s'.header slab))
    (hlink : ∀ a ∈ slots slab size, a ∉ live → s'.link a = s.link a)
    (hlive : ∀ a ∈ slots slab size, a ∈ live' ↔ a ∈ live) : Objects ordered s' live' slab size := by
  obtain ⟨l, hchain, hmem, hordered⟩ := h.list
  refine ⟨hmagic.trans h.magic, hheader.size.trans h.size_eq, l, ?_, fun a ha => ?_, fun hord => ?_⟩
  · rw [hheader.object]
    exact hchain.congr fun a ha => hlink a (hmem a ha).1 (hmem a ha).2
  · obtain ⟨hslot, hnot⟩ := hmem a ha
    exact ⟨hslot, fun hin => hnot ((hlive a hslot).mp hin)⟩
  · obtain ⟨hlen, hsorted, hall⟩ := hordered hord
    rw [hheader.free]
    exact ⟨hlen, hsorted, fun a ha hnot => hall a ha fun hin => hnot ((hlive a ha).mpr hin)⟩

/-- The lists of slabs do not matter. -/
theorem setCache {c : Class} {k : KmemCache} : Objects ordered (s.setCache c k) live slab size :=
  h.congr rfl (.refl _) (fun _ _ _ => rfl) fun _ _ => Iff.rfl

/-- A slab in order that has free objects has a first one. -/
theorem object_ne_null (hord : ordered) (hfree : (s.header slab).free ≠ 0) : (s.header slab).object ≠ NULL := by
  obtain ⟨l, hchain, _, hordered⟩ := h.list
  intro hnull
  rw [hchain.nil_iff.mp hnull] at hordered
  exact hfree (hordered hord).1.symm

/-- The first free object is a slot that is not live. -/
theorem object_mem (hne : (s.header slab).object ≠ NULL) :
    (s.header slab).object ∈ slots slab size ∧ (s.header slab).object ∉ live := by
  obtain ⟨l, hchain, hmem, _⟩ := h.list
  cases l with
  | nil => exact absurd hchain hne
  | cons x l => exact hmem _ (hchain.1 ▸ List.mem_cons_self)

/-- Taking the first free object. -/
theorem take (hne : (s.header slab).object ≠ NULL) :
    Objects ordered (s.setHeader slab { s.header slab with
        object := s.link (s.header slab).object, free := (s.header slab).free - 1 })
      ((s.header slab).object :: live) slab size := by
  obtain ⟨l, hchain, hmem, hordered⟩ := h.list
  have hnodup := hchain.nodup
  cases l with
  | nil => exact absurd hchain hne
  | cons x l =>
    obtain ⟨rfl, _, htail⟩ := hchain
    obtain ⟨hnot, _⟩ := List.nodup_cons.mp hnodup
    refine ⟨h.magic, ?_, l, ?_, fun a ha => ?_, fun hord => ?_⟩
    · simpa [Slabs.setHeader] using h.size_eq
    · simpa [Slabs.setHeader] using htail
    · obtain ⟨hslot, hnl⟩ := hmem a (List.mem_cons_of_mem _ ha)
      refine ⟨hslot, fun hin => ?_⟩
      rcases List.mem_cons.mp hin with rfl | hin
      · exact hnot ha
      · exact hnl hin
    · obtain ⟨hlen, hsorted, hall⟩ := hordered hord
      refine ⟨?_, (List.pairwise_cons.mp hsorted).2, fun a ha hnl => ?_⟩
      · simp only [List.length_cons] at hlen
        simp only [Slabs.setHeader, update_self]
        omega
      · refine (List.mem_cons.mp (hall a ha fun hin => hnl (List.mem_cons_of_mem _ hin))).resolve_left ?_
        rintro rfl
        exact hnl List.mem_cons_self

/-- Taking what the count says is the last free object. -/
theorem takeLast (hone : (s.header slab).free = 1) :
    Objects ordered (s.setHeader slab { s.header slab with object := NULL, free := 0 })
      ((s.header slab).object :: live) slab size := by
  obtain ⟨l, hchain, hmem, hordered⟩ := h.list
  refine ⟨h.magic, ?_, [], ?_, by simp, fun hord => ⟨?_, .nil, fun a ha hnl => ?_⟩⟩
  · simpa [Slabs.setHeader] using h.size_eq
  · simp [Slabs.setHeader, Chain]
  · simp [Slabs.setHeader]
  · obtain ⟨hlen, _, hall⟩ := hordered hord
    rw [hone] at hlen
    obtain ⟨x, rfl⟩ := List.length_eq_one_iff.mp hlen
    have hin := List.mem_singleton.mp (hall a ha fun hin => hnl (List.mem_cons_of_mem _ hin))
    exact absurd (List.mem_cons.mpr (.inl (hin.trans hchain.1.symm))) hnl

end Objects

/-- Where the search ends: before the first object that is beyond the address, or at the end of the list. What
holds of the first object and goes on from one that the search passes holds up to there. -/
theorem search_stops {P : Nat → Prop} {link : Nat → Nat} {object : Nat} (l : List Nat) (a fuel : Nat)
    (hchain : Chain NULL link a l) (hne : l ≠ []) (hfuel : l.length ≤ fuel) (ha : P a)
    (hnext : ∀ y, P y → link y ∈ l → ¬(y < object ∧ object < link y) → P (link y)) :
    ∃ l₁ x l₂, l = l₁ ++ x :: l₂ ∧ search link object fuel a = .ok x ∧
      (link x = NULL ∨ x < object ∧ object < link x) ∧ ∀ y ∈ l₁ ++ [x], P y := by
  induction l generalizing a fuel with
  | nil => exact absurd rfl hne
  | cons x l ih =>
    obtain ⟨rfl, hane, htail⟩ := hchain
    cases fuel with
    | zero => simp at hfuel
    | succ fuel =>
      rw [search, if_neg hane]
      by_cases hbefore : a < object ∧ object < link a ∧ link a ≠ NULL
      · exact ⟨[], a, l, rfl, if_pos hbefore, .inr ⟨hbefore.1, hbefore.2.1⟩, by simpa using ha⟩
      · rw [if_neg hbefore]
        by_cases hend : link a = NULL
        · exact ⟨[], a, l, rfl, if_neg (by simpa using hend), .inl hend, by simpa using ha⟩
        · rw [if_pos hend]
          have hl : l ≠ [] := fun hnil => hend (htail.nil_iff.mpr hnil)
          have hmem : link a ∈ l := by
            cases l with
            | nil => exact absurd rfl hl
            | cons z l => exact List.mem_cons.mpr (.inl htail.1)
          have hpass := hnext a ha (List.mem_cons_of_mem _ hmem) fun hc => hbefore ⟨hc.1, hc.2, hend⟩
          obtain ⟨l₁, x, l₂, rfl, hsearch, hstop, hall⟩ := ih (link a) fuel htail hl (by simpa using hfuel) hpass
            fun y hy hin => hnext y hy (List.mem_cons_of_mem _ hin)
          refine ⟨a :: l₁, x, l₂, rfl, hsearch, hstop, fun y hy => ?_⟩
          rcases List.mem_cons.mp hy with rfl | hy
          · exact ha
          · exact hall y hy

/-- The search stops at the last object before the address. -/
theorem search_spec {link : Nat → Nat} {object : Nat} (l : List Nat) (a fuel : Nat) (hchain : Chain NULL link a l)
    (hsorted : l.Pairwise (· < ·)) (hnot : object ∉ l) (hfirst : a < object) (hne : l ≠ [])
    (hfuel : l.length ≤ fuel) :
    ∃ l₁ x l₂, l = l₁ ++ x :: l₂ ∧ search link object fuel a = .ok x ∧ (∀ y ∈ l₁ ++ [x], y < object) ∧
      ∀ y ∈ l₂, object < y := by
  have hnext : ∀ y, y < object → link y ∈ l → ¬(y < object ∧ object < link y) → link y < object := by
    intro y hy hin hpass
    have hle : ¬ object < link y := fun hlt => hpass ⟨hy, hlt⟩
    have hneq : link y ≠ object := ne_of_mem_of_not_mem hin hnot
    omega
  obtain ⟨l₁, x, l₂, rfl, hsearch, hstop, hlow⟩ := search_stops l a fuel hchain hne hfuel hfirst hnext
  refine ⟨l₁, x, l₂, rfl, hsearch, hlow, fun y hy => ?_⟩
  have htail := hchain.drop
  cases l₂ with
  | nil => cases hy
  | cons z l₂ =>
    -- the next object is beyond the address, and so are all after it
    obtain ⟨rfl, hz, _⟩ := htail
    have hbeyond := (hstop.resolve_left hz).2
    rcases List.mem_cons.mp hy with rfl | hy
    · exact hbeyond
    · have hsorted' := (List.pairwise_cons.mp (List.pairwise_append.mp hsorted).2.1).2
      exact hbeyond.trans ((List.pairwise_cons.mp hsorted').1 y hy)

/-- An operation works on one slab: elsewhere the objects and what is live stay. -/
structure Touches (s s' : Slabs) (live live' : List Nat) (slab : Nat) (c : Class) : Prop where
  magic : ∀ b, b ≠ slab → s'.magic b = s.magic b
  header : ∀ b, b ≠ slab → SameObjects (s.header b) (s'.header b)
  link : ∀ a, a ∉ slots slab (slabSizeTable c) → s'.link a = s.link a
  live : ∀ a, a ∉ slots slab (slabSizeTable c) → (a ∈ live' ↔ a ∈ live)

/-- Slots of different slabs are different. -/
theorem slots_disjoint {slab slab' a : Nat} {c c' : Class} (haligned : slab % PGSIZE = 0)
    (haligned' : slab' % PGSIZE = 0) (hne : slab' ≠ slab) (ha : a ∈ slots slab' (slabSizeTable c')) :
    a ∉ slots slab (slabSizeTable c) := by
  intro ha'
  exact hne ((pgRoundDown_slot haligned' ha).symm.trans (pgRoundDown_slot haligned ha'))

/-- What `slab_free` does to the objects of other slabs and to the lists: nothing. -/
structure FreedIn (s s' : Slabs) (live : List Nat) (slab addr : Nat) (c : Class) : Prop where
  pmem : s'.pmem = s.pmem
  magic : s'.magic = s.magic
  cache : s'.cache = s.cache
  header : ∃ object, s'.header = update s.header slab
    { s.header slab with object, free := (s.header slab).free + 1 }
  link : ∀ a, a ∉ slots slab (slabSizeTable c) → s'.link a = s.link a
  kept : ∀ a ∈ live, a ≠ addr → s'.link a = s.link a

namespace Objects

variable {ordered : Prop} {s s' : Slabs} {live live' l : List Nat} {slab slab' addr object : Nat} {c c' : Class}
  {link : Nat → Nat}

theorem other (h : Objects ordered s live slab' (slabSizeTable c')) (ht : Touches s s' live live' slab c)
    (haligned : slab % PGSIZE = 0) (haligned' : slab' % PGSIZE = 0) (hne : slab' ≠ slab) :
    Objects ordered s' live' slab' (slabSizeTable c') := by
  have hdisj : ∀ a ∈ slots slab' (slabSizeTable c'), a ∉ slots slab (slabSizeTable c) :=
    fun a ha => slots_disjoint haligned haligned' hne ha
  exact h.congr (ht.magic _ hne) (ht.header _ hne) (fun a ha _ => ht.link a (hdisj a ha))
    fun a ha => ht.live a (hdisj a ha)

/-- A list of slots is short enough for the search. -/
theorem length_le (hchain : Chain NULL link object l)
    (hmem : ∀ a ∈ l, a ∈ slots slab (slabSizeTable c) ∧ a ∉ live) : l.length ≤ PGSIZE / 8 := by
  have hsub : l ⊆ slots slab (slabSizeTable c) := fun a ha => (hmem a ha).1
  have hle := (hchain.nodup.subperm hsub).length_le
  rw [slots, List.length_map, List.length_range] at hle
  exact hle.trans (Nat.le_of_lt (table_facts c).2.2.2.2)

/-- A full slab gets its first free object. -/
theorem freeToFull (h : Objects ordered s live slab (slabSizeTable c)) (hzero : (s.header slab).free = 0)
    (haddr : addr ∈ slots slab (slabSizeTable c)) (hne : addr ≠ NULL) (honce : addr ∉ live.erase addr) :
    Objects ordered (s.freeToFull slab addr) (live.erase addr) slab (slabSizeTable c) := by
  obtain ⟨l, _, _, hordered⟩ := h.list
  have hobjects : Objects ordered ((s.setLink addr NULL).setHeader slab
      { s.header slab with object := addr, free := 1 }) (live.erase addr) slab (slabSizeTable c) := by
    refine ⟨h.magic, ?_, [addr], ?_, fun a ha => ?_, fun hord => ⟨?_, List.pairwise_singleton _ _, fun a ha hnl => ?_⟩⟩
    · simpa [Slabs.setHeader] using h.size_eq
    · simp only [Slabs.setHeader, Slabs.setLink, update_self]
      exact ⟨rfl, hne, update_self _ _ _⟩
    · rw [List.mem_singleton.mp ha]
      exact ⟨haddr, honce⟩
    · simp [Slabs.setHeader]
    · -- a slot that is not live would have been on the empty list
      obtain ⟨hlen, _, hall⟩ := hordered hord
      rw [hzero] at hlen
      obtain rfl := List.eq_nil_of_length_eq_zero hlen
      by_contra hane
      rw [List.mem_singleton] at hane
      have hno : a ∉ live := fun hin => hnl ((List.mem_erase_of_ne hane).mpr hin)
      cases hall a ha hno
  -- the move to the other list changes `next` fields only
  refine hobjects.congr ?_ ?_ (fun a _ _ => ?_) fun a _ => Iff.rfl
  all_goals
    rw [Slabs.freeToFull]
    simp only
    split
  · rfl
  · rfl
  · exact .refl _
  · simp only [Slabs.setCache, Slabs.setHeader, update_self]
    exact ⟨rfl, rfl, rfl⟩
  · rfl
  · rfl

/-- Where the search ends: if the list is in order, at the place of the object. -/
theorem search_ends (hchain : Chain NULL link object l)
    (hmem : ∀ a ∈ l, a ∈ slots slab (slabSizeTable c) ∧ a ∉ live) (hl : l ≠ []) (hnot : addr ∉ l)
    (hsorted : ordered → l.Pairwise (· < ·) ∧ object < addr) :
    ∃ l₁ x l₂, l = l₁ ++ x :: l₂ ∧ search link addr (PGSIZE / 8) object = .ok x ∧
      (ordered → (∀ y ∈ l₁ ++ [x], y < addr) ∧ ∀ y ∈ l₂, addr < y) := by
  have hfuel := length_le hchain hmem
  by_cases hord : ordered
  · obtain ⟨l₁, x, l₂, hl, hsearch, hlow, hhigh⟩ := search_spec l object (PGSIZE / 8) hchain (hsorted hord).1 hnot
      (hsorted hord).2 hl hfuel
    exact ⟨l₁, x, l₂, hl, hsearch, fun _ => ⟨hlow, hhigh⟩⟩
  · obtain ⟨l₁, x, l₂, hl, hsearch, -⟩ := search_stops (P := fun _ => True) l object (PGSIZE / 8) hchain hl hfuel
      trivial fun _ _ _ _ => trivial
    exact ⟨l₁, x, l₂, hl, hsearch, fun hyes => absurd hyes hord⟩

/-- An object below the first free one becomes the first one. -/
theorem freeAtHead_below (hbelow : addr < (s.header slab).object) : s.freeAtHead slab addr =
    (s.setLink addr (s.header slab).object).setHeader slab { s.header slab with object := addr } := by
  rw [Slabs.freeAtHead]
  exact if_pos hbelow

/-- The result of `freeToList`, when the search ends at `x`. -/
theorem freeToList_eq (s : Slabs) (slab addr x : Nat)
    (hsearch : search (s.freeAtHead slab addr).link addr (PGSIZE / 8) (s.header slab).object = .ok x) :
    s.freeToList slab addr = .ok
      ((((s.freeAtHead slab addr).setLink addr ((s.freeAtHead slab addr).link x)).setLink x addr).setHeader slab
        { (s.freeAtHead slab addr).header slab with free := ((s.freeAtHead slab addr).header slab).free + 1 }) := by
  simp only [Slabs.freeToList, hsearch]
  rfl

/-- An object goes back to a slab that has a first free object: an object above it goes to its place, an
object below it becomes the first one and takes over what comes after the end of the search. -/
theorem freeToList (h : Objects ordered s live slab (slabSizeTable c)) (hobject : (s.header slab).object ≠ NULL)
    (haddr : addr ∈ slots slab (slabSizeTable c)) (hne : addr ≠ NULL) (hlive : addr ∈ live)
    (honce : addr ∉ live.erase addr) (horder : ordered → (s.header slab).object < addr) :
    ∃ s', s.freeToList slab addr = .ok s' ∧ FreedIn s s' live slab addr c ∧
      Objects ordered s' (live.erase addr) slab (slabSizeTable c) := by
  obtain ⟨l, hchain, hmem, hordered⟩ := h.list
  have hnot : addr ∉ l := fun hin => (hmem addr hin).2 hlive
  have hl : l ≠ [] := fun hnil => hobject (hchain.nil_iff.mpr hnil)
  have hnodup := hchain.nodup
  have hkept : ∀ a ∈ l, a ∈ slots slab (slabSizeTable c) ∧ a ∉ live.erase addr := fun a ha =>
    ⟨(hmem a ha).1, fun hin => (hmem a ha).2 (List.mem_of_mem_erase hin)⟩
  by_cases hbelow : addr < (s.header slab).object
  · have hno : ¬ ordered := fun hord => absurd (horder hord) (Nat.not_lt.mpr (Nat.le_of_lt hbelow))
    have hhead := freeAtHead_below hbelow
    have hchain' := hchain.update_of_notMem hnot (s.header slab).object
    obtain ⟨l₁, x, l₂, hsplit, hsearch, _⟩ := search_ends hchain' hmem hl hnot
      fun hord : ordered => absurd hord hno
    have hx : x ∈ l := by simp [hsplit]
    have hxne : x ≠ addr := fun heq => hnot (heq ▸ hx)
    have hret := freeToList_eq s slab addr x (by rw [hhead]; exact hsearch)
    rw [hhead] at hret
    refine ⟨_, hret, ⟨rfl, rfl, rfl, ⟨addr, ?_⟩, fun a ha => ?_, fun a ha hane => ?_⟩, h.magic, ?_, addr :: l₂, ?_,
      fun a ha => ?_, fun hord => absurd hord hno⟩
    · simp [Slabs.setHeader, Slabs.setLink]
    · have hane : a ≠ addr := fun heq => ha (heq ▸ haddr)
      have hanx : a ≠ x := fun heq => ha (heq ▸ (hmem x hx).1)
      simp [Slabs.setHeader, Slabs.setLink, hane, hanx]
    · have hanx : a ≠ x := fun heq => (hmem x hx).2 (heq ▸ ha)
      simp [Slabs.setHeader, Slabs.setLink, hane, hanx]
    · simpa [Slabs.setHeader, Slabs.setLink] using h.size_eq
    · have htail := (hsplit ▸ hchain).drop
      rw [hsplit] at hnodup hnot
      have hnotx : x ∉ l₂ := (List.nodup_cons.mp (List.nodup_append.mp hnodup).2.1).1
      have hnota : addr ∉ l₂ := fun hin => hnot (by simp [hin])
      simp only [Slabs.setHeader, Slabs.setLink, update_self]
      refine ⟨rfl, hne, ?_⟩
      rw [update_of_ne hxne.symm, update_self, update_of_ne hxne]
      exact ((htail.update_of_notMem hnota _).update_of_notMem hnota _).update_of_notMem hnotx _
    · rcases List.mem_cons.mp ha with rfl | ha
      · exact ⟨haddr, honce⟩
      · exact hkept a (by simp [hsplit, ha])
  · have hhead : s.freeAtHead slab addr = s := by
      rw [Slabs.freeAtHead]
      exact if_neg hbelow
    obtain ⟨l₁, x, l₂, hsplit, hsearch, hplace⟩ := search_ends hchain hmem hl hnot
      fun hord => ⟨(hordered hord).2.1, horder hord⟩
    have hx : x ∈ l := by simp [hsplit]
    have hret := freeToList_eq s slab addr x (by rw [hhead]; exact hsearch)
    rw [hhead] at hret
    refine ⟨_, hret, ⟨rfl, rfl, rfl, ⟨(s.header slab).object, rfl⟩, fun a ha => ?_, fun a ha hane => ?_⟩, h.magic, ?_,
      l₁ ++ x :: addr :: l₂, ?_, fun a ha => ?_, fun hord => ?_⟩
    · have hane : a ≠ addr := fun heq => ha (heq ▸ haddr)
      have hanx : a ≠ x := fun heq => ha (heq ▸ (hmem x hx).1)
      simp [Slabs.setHeader, Slabs.setLink, hane, hanx]
    · have hanx : a ≠ x := fun heq => (hmem x hx).2 (heq ▸ ha)
      simp [Slabs.setHeader, Slabs.setLink, hane, hanx]
    · simpa [Slabs.setHeader] using h.size_eq
    · simp only [Slabs.setHeader, Slabs.setLink, update_self]
      rw [hsplit] at hchain hnot
      exact hchain.insert hnot hne
    · have hcases : a = addr ∨ a ∈ l := by
        rw [hsplit]
        simp only [List.mem_append, List.mem_cons] at ha ⊢
        rcases ha with ha | ha | ha | ha
        · exact .inr (.inl ha)
        · exact .inr (.inr (.inl ha))
        · exact .inl ha
        · exact .inr (.inr (.inr ha))
      rcases hcases with rfl | ha
      · exact ⟨haddr, honce⟩
      · exact hkept a ha
    · obtain ⟨hlen, hsorted, hall⟩ := hordered hord
      obtain ⟨hlow, hhigh⟩ := hplace hord
      refine ⟨?_, ?_, fun a ha hnl => ?_⟩
      · rw [hsplit] at hlen
        simp only [Slabs.setHeader, update_self, List.length_append, List.length_cons] at hlen ⊢
        omega
      · rw [hsplit, List.pairwise_append, List.pairwise_cons] at hsorted
        obtain ⟨hs₁, ⟨hx₂, hs₂⟩, hcross⟩ := hsorted
        have hxa : x < addr := hlow x (by simp)
        refine List.pairwise_append.mpr ⟨hs₁, List.pairwise_cons.mpr ⟨?_, List.pairwise_cons.mpr ⟨hhigh, hs₂⟩⟩, ?_⟩
        · intro y hy
          rcases List.mem_cons.mp hy with rfl | hy
          · exact hxa
          · exact hx₂ y hy
        · intro y hy z hz
          rcases List.mem_cons.mp hz with rfl | hz
          · exact hcross y hy z List.mem_cons_self
          rcases List.mem_cons.mp hz with rfl | hz
          · exact hlow y (List.mem_append_left _ hy)
          · exact hcross y hy z (List.mem_cons_of_mem _ hz)
      · by_cases heq : a = addr
        · simp [heq]
        · have hin := hall a ha fun hin => hnl ((List.mem_erase_of_ne heq).mpr hin)
          rw [hsplit] at hin
          simp only [List.mem_append, List.mem_cons] at hin ⊢
          exact hin.imp_right fun h => h.imp_right .inr

/-- An object below the first free one: the search runs to the end of the list, so the object gets a null
link, and the list that begins with it is that object alone. -/
theorem freeToList_below (h : Objects True s live slab (slabSizeTable c)) (hfree : (s.header slab).free ≠ 0)
    (hlive : addr ∈ live) (hbelow : addr < (s.header slab).object) :
    ∃ s', s.freeToList slab addr = .ok s' ∧ s'.pmem = s.pmem ∧ s'.cache = s.cache ∧ s'.link addr = NULL ∧
      s'.header = update s.header slab
        { s.header slab with object := addr, free := (s.header slab).free + 1 } := by
  have hobject := h.object_ne_null trivial hfree
  obtain ⟨l, hchain, hmem, hordered⟩ := h.list
  obtain ⟨hlen, hsorted, _⟩ := hordered trivial
  have hnot : addr ∉ l := fun hin => (hmem addr hin).2 hlive
  have hl : l ≠ [] := fun hnil => hobject (hchain.nil_iff.mpr hnil)
  have habove : ∀ y ∈ l, addr < y := by
    cases l with
    | nil => exact absurd rfl hl
    | cons z l =>
      intro y hy
      have hz : addr < z := hchain.1 ▸ hbelow
      rcases List.mem_cons.mp hy with rfl | hy
      · exact hz
      · exact hz.trans ((List.pairwise_cons.mp hsorted).1 y hy)
  have hhead := freeAtHead_below hbelow
  -- with every object beyond the address, the search only stops at the end of the list
  obtain ⟨l₁, x, l₂, hsplit, hsearch, hstop, -⟩ := search_stops (P := fun _ => True) l (s.header slab).object
    (PGSIZE / 8) (hchain.update_of_notMem hnot (s.header slab).object) hl (length_le hchain hmem) trivial
    fun _ _ _ _ => trivial
  have hx : x ∈ l := by simp [hsplit]
  have hend := hstop.resolve_right fun hc => absurd hc.1 (Nat.not_lt.mpr (Nat.le_of_lt (habove x hx)))
  have hne : addr ≠ x := fun heq => hnot (heq ▸ hx)
  have hret := freeToList_eq s slab addr x (by rw [hhead]; exact hsearch)
  rw [hhead] at hret
  refine ⟨_, hret, rfl, rfl, ?_, ?_⟩
  · simp only [Slabs.setHeader, Slabs.setLink, update_of_ne hne, update_self]
    exact hend
  · simp [Slabs.setHeader, Slabs.setLink]

end Objects

/-! ## Pages -/

/-- The `len` bytes at `addr` are a live block of the page allocator. -/
def Held (pmem : Pmem) (held : List Block) (addr len : Nat) : Prop :=
  ∃ b ∈ held, pmem.pageAddr b.page = addr ∧ len = 2 ^ b.order * PGSIZE

namespace Held

variable {pmem pmem' : Pmem} {held held' : List Block} {addr addr' len len' a : Nat} {b : Block}

variable (h : Held pmem held addr len)

include h

theorem mono (hsame : Pmem.SameRegion pmem pmem') (hsub : ∀ b ∈ held, b ∈ held') : Held pmem' held' addr len := by
  obtain ⟨b, hb, haddr, hlen⟩ := h
  exact ⟨b, hsub b hb, (hsame.pageAddr _).trans haddr, hlen⟩

theorem aligned (hwf : pmem.Wf held) : addr % PGSIZE = 0 := by
  obtain ⟨b, hb, rfl, _⟩ := h
  have hstart := hwf.region.start_aligned
  simp only [Pmem.pageAddr, PGSIZE] at *
  omega

theorem ne_null (hwf : pmem.Wf held) : addr ≠ NULL := by
  obtain ⟨b, hb, rfl, _⟩ := h
  have hplaced := hwf.placed hb
  exact Pmem.pageAddr_ne_zero hplaced.page_lt hplaced.meta_le

theorem le (hwf : pmem.Wf held) : addr + len ≤ 2 ^ 64 := by
  obtain ⟨b, hb, rfl, rfl⟩ := h
  have hend := hwf.region.end_eq
  have hlt := hwf.region.end_lt
  have hfits := (hwf.placed hb).fits
  generalize 2 ^ b.order = m at *
  simp only [Pmem.pageAddr, PGSIZE] at *
  omega

/-- Blocks at different addresses do not overlap. -/
theorem disjoint (h' : Held pmem held addr' len') (hwf : pmem.Wf held)
    (hne : addr ≠ addr') (ha : addr ≤ a ∧ a < addr + len) : ¬ (addr' ≤ a ∧ a < addr' + len') := by
  obtain ⟨b, hb, rfl, rfl⟩ := h
  obtain ⟨b', hb', rfl, rfl⟩ := h'
  intro ha'
  -- the page of the address would be in both blocks
  have hmem : ∀ b : Block, pmem.pageAddr b.page ≤ a ∧ a < pmem.pageAddr b.page + 2 ^ b.order * PGSIZE →
      (a - pmem.memStart) / PGSIZE ∈ b := by
    intro b hb
    rw [Block.mem_def]
    generalize 2 ^ b.order = m at *
    simp only [Pmem.pageAddr, PGSIZE] at *
    omega
  rw [hwf.eq_of_mem hb hb' (hmem b ha) (hmem b' ha')] at hne
  exact hne rfl

end Held

/-- A block that is new is at an address where there was none. -/
theorem Held.ne_new {pmem : Pmem} {held : List Block} {addr len : Nat} {b : Block} (hwf : pmem.Wf (b :: held))
    (h : Held pmem held addr len) : addr ≠ pmem.pageAddr b.page := by
  obtain ⟨b', hb', rfl, _⟩ := h
  intro heq
  have hpage : b'.page = b.page := by
    simp only [Pmem.pageAddr, PGSIZE] at heq
    omega
  have hsame := hwf.eq_of_mem (List.mem_cons_of_mem _ hb') List.mem_cons_self b'.page_mem (hpage ▸ b.page_mem)
  exact (List.nodup_cons.mp hwf.nodup).1 (hsame ▸ hb')

/-- A free page is enough for `allocPages 1`. -/
theorem Slabs.allocPages_one {s : Slabs} {held : List Block} {q : Nat} (hwf : s.pmem.Wf held)
    (hq : s.pmem.FreePage q) :
    ∃ p pmem', s.allocPages 1 = .ok (s.pmem.pageAddr p, { s.clear (s.pmem.pageAddr p) PGSIZE with pmem := pmem' }) ∧
      s.pmem.pageAddr p ≠ NULL ∧ pmem'.Wf (⟨p, 0⟩ :: held) ∧ Pmem.SameRegion s.pmem pmem' := by
  obtain ⟨hmanaged, hnot⟩ := hwf.freePage_iff.mp hq
  obtain ⟨_, p, pmem', hcall, hne, hwf', hsame⟩ := hwf.pmemAllocPages_one hmanaged hnot
  refine ⟨p, pmem', ?_, hne, hwf', hsame⟩
  have hone : 2 ^ (getOrder (1 : Int).toNat).toNat * PGSIZE = PGSIZE := by decide
  rw [Slabs.allocPages, hcall]
  simp only [if_neg hne, hone]

/-! ## What the operations return -/

namespace Slabs

variable {s s' : Slabs} {c : Class} {slab addr size : Nat}

/-- Only list pointers change: the `next` fields of slabs and the lists of class `c`. -/
structure Relinked (s s' : Slabs) (c : Class) (slab : Nat) : Prop where
  pmem : s'.pmem = s.pmem
  magic : s'.magic = s.magic
  link : s'.link = s.link
  objects : ∀ b, SameObjects (s.header b) (s'.header b)
  /-- A slab whose new `next` is `slab` is in every set that the full list does not leave. -/
  next : ∀ P : Nat → Prop, ((s.cache c).fullSlab ≠ NULL → P (s.cache c).fullSlab) →
    (∀ b, P b → (s.header b).next ≠ NULL → P (s.header b).next) →
    ∀ b, (s'.header b).next = (s.header b).next ∨ (s'.header b).next = NULL ∨ (s'.header b).next = slab ∧ P b
  size : ∀ c, (s'.cache c).size = (s.cache c).size
  other : ∀ c', c' ≠ c → s'.cache c' = s.cache c'
  freeSlab : (s'.cache c).freeSlab = (s.header slab).next
  fullSlab : (s'.cache c).fullSlab = slab ∨ (s'.cache c).fullSlab = (s.cache c).fullSlab

theorem moveToFull_relinked (h : s.moveToFull c slab = .ok s') : Relinked s s' c slab := by
  have hsize : ∀ (k : KmemCache), k.size = (s.cache c).size → ∀ c',
      (update s.cache c k c').size = (s.cache c').size := by
    intro k hk c'
    by_cases hc : c' = c
    · subst hc
      rw [update_self, hk]
    · rw [update_of_ne hc]
  simp only [moveToFull, setCache, update_self, Function.update_idem] at h
  split at h
  · cases h
    exact ⟨rfl, rfl, rfl, fun _ => .refl _, fun _ _ _ _ => .inl rfl, hsize _ rfl,
      fun c' hc => update_of_ne hc _ _, by simp, by simp⟩
  · rename_i hfull
    split at h
    · cases h
    · rename_i last hlast
      cases h
      refine ⟨rfl, rfl, rfl, fun b => ?_, fun P hstart hnext b => ?_, hsize _ rfl,
        fun c' hc => update_of_ne hc _ _, by simp [setHeader], by simp [setHeader]⟩
      · simp only [setHeader]
        by_cases hb : b = slab
        · subst hb
          rw [update_self]
          by_cases hl : b = last
          · subst hl
            rw [update_self]
            exact ⟨rfl, rfl, rfl⟩
          · rw [update_of_ne hl]
            exact ⟨rfl, rfl, rfl⟩
        · rw [update_of_ne hb]
          by_cases hl : b = last
          · subst hl
            rw [update_self]
            exact ⟨rfl, rfl, rfl⟩
          · rw [update_of_ne hl]
            exact .refl _
      · simp only [setHeader]
        by_cases hb : b = slab
        · subst hb
          rw [update_self]
          exact .inr (.inl rfl)
        · rw [update_of_ne hb]
          by_cases hl : b = last
          · subst hl
            rw [update_self]
            exact .inr (.inr ⟨rfl, Chain.last_induction hnext (hstart hfull) hlast⟩)
          · rw [update_of_ne hl]
            exact .inl rfl

/-- The slab goes to the end of the full list of its class, if the list has an end. -/
theorem moveToFull_last (hfull : (s.cache c).fullSlab ≠ NULL) {x : Nat}
    (hlast : Chain.last NULL (fun a => (s.header a).next) s.pmem.totalPages (s.cache c).fullSlab = some x) :
    ∃ s', s.moveToFull c slab = .ok s' ∧
      s'.cache = update s.cache c { s.cache c with freeSlab := (s.header slab).next } ∧
      ∀ b, (s'.header b).next = update (update (fun b => (s.header b).next) x slab) slab NULL b := by
  rw [moveToFull]
  simp only [if_neg hfull, setCache, setHeader, hlast]
  refine ⟨_, rfl, rfl, fun b => ?_⟩
  by_cases hb : b = slab
  · subst hb
    simp
  · simp only [update_of_ne hb]
    by_cases hx : b = x
    · subst hx
      simp
    · simp only [update_of_ne hx]

/-- The ways in which `__alloc_from_kmem_cache` returns. -/
theorem allocFromKmemCache_cases (h : s.allocFromKmemCache c = .ok (addr, s')) :
    ((s.cache c).freeSlab ≠ NULL ∧ 1 < (s.header (s.cache c).freeSlab).free ∧
        s.takeObject (s.cache c).freeSlab = .ok (addr, s')) ∨
      ((s.cache c).freeSlab ≠ NULL ∧ (s.header (s.cache c).freeSlab).free = 1 ∧
        addr = (s.header (s.cache c).freeSlab).object ∧
        (s.setHeader (s.cache c).freeSlab
          { s.header (s.cache c).freeSlab with object := NULL, free := 0 }).moveToFull c (s.cache c).freeSlab =
          .ok s') ∨
      ((s.cache c).freeSlab = NULL ∧ ∃ slab s₁, s.createSlab (s.cache c).size = .ok (slab, s₁) ∧
        (s₁.setCache c { s₁.cache c with freeSlab := slab }).takeObject slab = .ok (addr, s')) := by
  rw [allocFromKmemCache] at h
  simp only at h
  split at h
  · rename_i hne
    split at h
    · exact .inl ⟨hne, ‹_›, h⟩
    split at h
    · rename_i hone
      refine .inr (.inl ⟨hne, hone, ?_⟩)
      cases hmove : (s.setHeader (s.cache c).freeSlab
          { s.header (s.cache c).freeSlab with object := NULL, free := 0 }).moveToFull c (s.cache c).freeSlab with
      | error e =>
        rw [hmove] at h
        cases h
      | ok s₁ =>
        rw [hmove] at h
        cases h
        exact ⟨rfl, rfl⟩
    · cases h
  · rename_i hnull
    refine .inr (.inr ⟨Decidable.not_not.mp hnull, ?_⟩)
    cases hcreate : s.createSlab (s.cache c).size with
    | error e =>
      rw [hcreate] at h
      cases h
    | ok r =>
      obtain ⟨slab, s₁⟩ := r
      rw [hcreate] at h
      exact ⟨slab, s₁, rfl, h⟩

theorem takeObject_ok (h : s.takeObject slab = .ok (addr, s')) :
    (s.header slab).object ≠ NULL ∧ addr = (s.header slab).object ∧
      s' = s.setHeader slab { s.header slab with
        object := s.link (s.header slab).object, free := (s.header slab).free - 1 } := by
  rw [takeObject] at h
  split at h
  · cases h
  · rename_i hne
    cases h
    exact ⟨hne, rfl, rfl⟩

/-- Without a first free object the search would read through a null pointer. -/
theorem freeToList_object (h : s.freeToList slab addr = .ok s') : (s.header slab).object ≠ NULL := by
  intro hnull
  have hfault : search (s.freeAtHead slab addr).link addr (PGSIZE / 8) (s.header slab).object = .error .fault := by
    rw [hnull]
    rfl
  simp only [freeToList, hfault] at h
  cases h

/-- With the sizes in place the class of a size is found. -/
theorem findKmemCache_eq (hsize : ∀ c, (s.cache c).size = slabSizeTable c) (c : Class) :
    s.findKmemCache (slabSizeTable c) = some c := by
  have hfind : ∀ c : Class, ((List.finRange 8).find? fun c' => slabSizeTable c' = slabSizeTable c) = some c := by
    decide
  simp only [findKmemCache, hsize]
  exact hfind c

/-- A request that fits a class is served from the class. -/
theorem slabAlloc_eq (hsize : ∀ c, (s.cache c).size = slabSizeTable c) (hc : slabSize size = slabSizeTable c) :
    s.slabAlloc size = s.allocFromKmemCache c := by
  have hpos : slabSizeTable c ≠ 0 := by
    have := (table_facts c).1
    omega
  rw [slabAlloc, hc]
  simp only [if_neg hpos, findKmemCache_eq hsize c]

/-- The first object of a slab with more than one. -/
theorem allocFromKmemCache_take (hslab : (s.cache c).freeSlab = slab) (hne : slab ≠ NULL)
    (hfree : 1 < (s.header slab).free) (hobject : (s.header slab).object ≠ NULL) :
    s.allocFromKmemCache c = .ok ((s.header slab).object,
      s.setHeader slab { s.header slab with
        object := s.link (s.header slab).object, free := (s.header slab).free - 1 }) := by
  rw [allocFromKmemCache]
  simp only [hslab, if_pos hne, if_pos hfree, takeObject, if_neg hobject]

/-- The last object of a slab. -/
theorem allocFromKmemCache_last (hslab : (s.cache c).freeSlab = slab) (hne : slab ≠ NULL)
    (hfree : (s.header slab).free = 1) :
    s.allocFromKmemCache c =
      ((s.setHeader slab { s.header slab with object := NULL, free := 0 }).moveToFull c slab).map
        fun s' => ((s.header slab).object, s') := by
  rw [allocFromKmemCache]
  simp only [hslab, if_pos hne, hfree, Nat.lt_irrefl, gt_iff_lt, if_false, if_true]
  rfl

/-- The slab is the first full slab of its class. -/
theorem moveToFull_first (hfull : (s.cache c).fullSlab = NULL) :
    s.moveToFull c slab =
      .ok (s.setCache c { s.cache c with freeSlab := (s.header slab).next, fullSlab := slab }) := by
  rw [moveToFull]
  simp [hfull, setCache]

end Slabs

/-! ## A new slab and the memory around it -/

section

variable {s : Slabs} {slab a : Nat} {c : Class}

theorem slots_eq_range (slab : Nat) (c : Class) :
    (List.range (objectNum (slabSizeTable c) - 1 + 1)).map (fun k => slab + headerSize + k * slabSizeTable c) =
      slots slab (slabSizeTable c) := by
  have hnum := (table_facts c).2.2.1
  rw [slots, Nat.sub_add_cancel (by omega)]

/-- All objects of a new slab are free. -/
theorem format_objects {ordered : Prop} {live : List Nat} (hzero : ∀ a, slab ≤ a → a < slab + PGSIZE → s.link a = NULL)
    (hlive : ∀ a ∈ slots slab (slabSizeTable c), a ∉ live) :
    Objects ordered (s.format slab (slabSizeTable c)) live slab (slabSizeTable c) := by
  obtain ⟨hsize, _, hnum, hroom, _⟩ := table_facts c
  refine ⟨by simp [Slabs.format], by simp [Slabs.format], slots slab (slabSizeTable c), ?_, fun a ha => ⟨ha, hlive a ha⟩,
    fun _ => ⟨?_, ?_, fun a ha _ => ha⟩⟩
  · simp only [Slabs.format, update_self]
    rw [← slots_eq_range]
    refine linkObjects_chain (by omega) _ _ _ ?_ ?_
    · have hpos : slab + headerSize ≠ 0 := by
        simp only [headerSize]
        omega
      exact hpos
    · have hlast : slab + headerSize + (objectNum (slabSizeTable c) - 1) * slabSizeTable c ∈
          slots slab (slabSizeTable c) := mem_slots.mpr ⟨_, by omega, rfl⟩
      have hlo := (slot_bounds hlast).1
      exact hzero _ (by omega) (slot_lt hlast)
  · simp [Slabs.format, slots]
  · rw [slots, List.pairwise_map]
    refine List.pairwise_lt_range.imp fun hlt => ?_
    have := Nat.mul_lt_mul_of_pos_right hlt (show 0 < slabSizeTable c by omega)
    omega

/-- The new slab is written to in its page only. -/
theorem format_other (ha : ¬ (slab ≤ a ∧ a < slab + PGSIZE)) :
    (s.format slab (slabSizeTable c)).link a = s.link a ∧ (s.format slab (slabSizeTable c)).magic a = s.magic a ∧
      (s.format slab (slabSizeTable c)).header a = s.header a := by
  have hne : a ≠ slab := by
    rintro rfl
    exact ha ⟨le_refl a, by simp [PGSIZE]⟩
  refine ⟨?_, update_of_ne hne _ _, update_of_ne hne _ _⟩
  refine linkObjects_other _ _ _ fun k hk heq => ?_
  have hslot : a ∈ slots slab (slabSizeTable c) := mem_slots.mpr ⟨k, by omega, heq⟩
  have hlo := (slot_bounds hslot).1
  exact ha ⟨by omega, slot_lt hslot⟩

/-- `__create_slab_with_size`, if there is a page. -/
theorem Slabs.createSlab_eq {held : List Block} {q : Nat} (hwf : s.pmem.Wf held) (hq : s.pmem.FreePage q)
    (size : Nat) :
    ∃ p pmem', s.createSlab size =
        .ok (s.pmem.pageAddr p,
          Slabs.format { s.clear (s.pmem.pageAddr p) PGSIZE with pmem := pmem' } (s.pmem.pageAddr p) size) ∧
      s.pmem.pageAddr p ≠ NULL ∧ pmem'.Wf (⟨p, 0⟩ :: held) ∧ Pmem.SameRegion s.pmem pmem' := by
  obtain ⟨p, pmem', hcall, hne, hwf', hsame⟩ := Slabs.allocPages_one hwf hq
  refine ⟨p, pmem', ?_, hne, hwf', hsame⟩
  rw [Slabs.createSlab, hcall]
  exact if_neg hne

end

/-- Memory is the same outside of a block. -/
structure Outside (s s' : Slabs) (addr len : Nat) : Prop where
  magic : ∀ a, ¬ (addr ≤ a ∧ a < addr + len) → s'.magic a = s.magic a
  header : ∀ a, ¬ (addr ≤ a ∧ a < addr + len) → s'.header a = s.header a
  link : ∀ a, ¬ (addr ≤ a ∧ a < addr + len) → s'.link a = s.link a

namespace Outside

variable {s s' : Slabs} {pmem pmem' : Pmem} {held : List Block} {slab addr len : Nat} {c : Class}

theorem clear (addr len : Nat) (pmem : Pmem) : Outside s { s.clear addr len with pmem } addr len where
  magic _ ha := if_neg ha
  header _ ha := if_neg ha
  link _ ha := if_neg ha

theorem format (h : Outside s s' slab PGSIZE) (c : Class) :
    Outside s (s'.format slab (slabSizeTable c)) slab PGSIZE where
  magic a ha := (format_other ha).2.1.trans (h.magic a ha)
  header a ha := (format_other ha).2.2.trans (h.header a ha)
  link a ha := (format_other ha).1.trans (h.link a ha)

/-- A slab at another address is not touched. -/
theorem header_slab (h : Outside s s' addr len) (hwf : pmem.Wf held) (hslab : Held pmem held slab PGSIZE)
    (hblock : Held pmem held addr len) (hne : slab ≠ addr) : s'.header slab = s.header slab :=
  h.header slab (hslab.disjoint hblock hwf hne ⟨le_refl _, by simp [PGSIZE]⟩)

theorem objects (h : Outside s s' addr len) (hwf : pmem.Wf held) (hslab : Held pmem held slab PGSIZE)
    (hblock : Held pmem held addr len) (hne : slab ≠ addr) {ordered : Prop} {live : List Nat}
    (hobjects : Objects ordered s live slab (slabSizeTable c)) : Objects ordered s' live slab (slabSizeTable c) := by
  have hpage : slab ≤ slab ∧ slab < slab + PGSIZE := ⟨le_refl _, by simp [PGSIZE]⟩
  refine hobjects.congr (h.magic slab (hslab.disjoint hblock hwf hne hpage)) ?_ (fun a ha _ => ?_) fun a _ => Iff.rfl
  · rw [h.header_slab hwf hslab hblock hne]
    exact .refl _
  · have hlo := (slot_bounds ha).1
    exact h.link a (hslab.disjoint hblock hwf hne ⟨by omega, slot_lt ha⟩)

end Outside

end SC7.Slab
