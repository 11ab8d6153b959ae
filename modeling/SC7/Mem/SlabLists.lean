-- SUMMARY: The lists of slabs of a size class: in which runs every slab is on one of them, and the run in which the two lists share a slab.
import SC7.Mem.SlabRun

/-!
# The lists of slabs

A slab moves from the list of slabs with free objects to the list of full slabs when its last object is taken,
and back when an object of it is released. The first move keeps the `next` field if the full list is empty; the
second takes the slab for the first one of the full list. The lists are in order as long as both are right.
-/

namespace SC7.Slab

open Function (update update_of_ne update_self)
open SC7

/-- The two lists share out the slabs of a class, by whether they have free objects. -/
def Listed (k : KmemCache) (header : Nat → Header) (slabs : List Nat) : Prop :=
  ∃ l l', Chain NULL (fun b => (header b).next) k.freeSlab l ∧ Chain NULL (fun b => (header b).next) k.fullSlab l' ∧
    (l ++ l').Nodup ∧ (∀ b, b ∈ l ++ l' ↔ b ∈ slabs) ∧ (∀ b ∈ l, (header b).free ≠ 0) ∧ ∀ b ∈ l', (header b).free = 0

namespace Listed

variable {k : KmemCache} {header header' : Nat → Header} {slabs : List Nat} {slab : Nat}

variable (h : Listed k header slabs)

include h

/-- Only the `next` fields matter, and which slabs are full. -/
theorem congr (hnext : ∀ b ∈ slabs, (header' b).next = (header b).next)
    (hfree : ∀ b ∈ slabs, (header' b).free = 0 ↔ (header b).free = 0) : Listed k header' slabs := by
  obtain ⟨l, l', hchain, hchain', hnodup, hmem, hpos, hzero⟩ := h
  have hin : ∀ b ∈ l, b ∈ slabs := fun b hb => (hmem b).mp (List.mem_append_left _ hb)
  have hin' : ∀ b ∈ l', b ∈ slabs := fun b hb => (hmem b).mp (List.mem_append_right _ hb)
  refine ⟨l, l', hchain.congr fun b hb => hnext b (hin b hb), hchain'.congr fun b hb => hnext b (hin' b hb), hnodup, hmem,
    fun b hb heq => hpos b hb ((hfree b (hin b hb)).mp heq), fun b hb => (hfree b (hin' b hb)).mpr (hzero b hb)⟩

/-- The first slab of the free list has free objects. -/
theorem free_ne_zero (hne : k.freeSlab ≠ NULL) : (header k.freeSlab).free ≠ 0 := by
  obtain ⟨l, l', hchain, _, _, _, hpos, _⟩ := h
  cases l with
  | nil => exact absurd hchain hne
  | cons b l => exact hpos _ (hchain.1 ▸ List.mem_cons_self)

/-- A new slab is the only one with free objects. -/
theorem create (hnull : k.freeSlab = NULL) (hnew : slab ∉ slabs) (hne : slab ≠ NULL)
    (hthis : (header' slab).next = NULL ∧ (header' slab).free ≠ 0) (hother : ∀ b ∈ slabs, header' b = header b) :
    Listed { k with freeSlab := slab } header' (slab :: slabs) := by
  obtain ⟨l, l', hchain, hchain', hnodup, hmem, hpos, hzero⟩ := h
  obtain rfl := hchain.nil_iff.mp hnull
  have hin' : ∀ b ∈ l', b ∈ slabs := fun b hb => (hmem b).mp (by simpa using hb)
  refine ⟨[slab], l', ⟨rfl, hne, hthis.1⟩, hchain'.congr fun b hb => by rw [hother b (hin' b hb)], ?_, fun b => ?_,
    fun b hb => ?_, fun b hb => ?_⟩
  · exact List.nodup_cons.mpr ⟨fun hin => hnew (hin' slab hin), hnodup⟩
  · have := hmem b
    simp only [List.nil_append, List.singleton_append, List.mem_cons] at this ⊢
    rw [this]
  · rw [List.mem_singleton.mp hb]
    exact hthis.2
  · rw [hother b (hin' b hb)]
    exact hzero b hb

/-- The first slab of the free list becomes the only full slab, if it has no successor. -/
theorem fillFirst (hne : k.freeSlab ≠ NULL) (hfull : k.fullSlab = NULL)
    (hlast : (header k.freeSlab).next = NULL) (hnext : ∀ b ∈ slabs, (header' b).next = (header b).next)
    (hthis : (header' k.freeSlab).free = 0) :
    Listed ⟨(header k.freeSlab).next, k.freeSlab, k.size⟩ header' slabs := by
  obtain ⟨l, l', hchain, hchain', hnodup, hmem, hpos, hzero⟩ := h
  obtain rfl := hchain'.nil_iff.mp hfull
  cases l with
  | nil => exact absurd hchain hne
  | cons b l =>
    obtain ⟨rfl, _, htail⟩ := hchain
    obtain rfl := htail.nil_iff.mp hlast
    have hin : k.freeSlab ∈ slabs := (hmem _).mp (by simp)
    exact ⟨[], [k.freeSlab], hlast, ⟨rfl, hne, (hnext _ hin).trans hlast⟩, by simp, hmem, by simp, by simpa using hthis⟩

/-- The first slab of the free list goes to the end of the full list. -/
theorem fillLast (hne : k.freeSlab ≠ NULL) {l₁ : List Nat} {x : Nat}
    (hfull : Chain NULL (fun b => (header b).next) k.fullSlab (l₁ ++ [x]))
    (hnext : ∀ b ∈ slabs, (header' b).next =
      update (update (fun b => (header b).next) x k.freeSlab) k.freeSlab NULL b)
    (hthis : (header' k.freeSlab).free = 0) (hother : ∀ b, b ≠ k.freeSlab → (header' b).free = (header b).free) :
    Listed { k with freeSlab := (header k.freeSlab).next } header' slabs := by
  obtain ⟨l, l', hchain, hchain', hnodup, hmem, hpos, hzero⟩ := h
  obtain rfl := hchain'.unique hfull
  cases l with
  | nil => exact absurd hchain hne
  | cons b l =>
    obtain ⟨rfl, _, htail⟩ := hchain
    rw [List.cons_append, List.nodup_cons] at hnodup
    obtain ⟨hnot, hnodup⟩ := hnodup
    have hnotl : k.freeSlab ∉ l := fun hin => hnot (List.mem_append_left _ hin)
    have hnotl' : k.freeSlab ∉ l₁ ++ [x] := fun hin => hnot (List.mem_append_right _ hin)
    have hx : x ∉ l := fun hin => (List.nodup_append.mp hnodup).2.2 x hin x (by simp) rfl
    have hin : ∀ b ∈ l, b ∈ slabs := fun b hb => (hmem b).mp (by simp [hb])
    have hin' : ∀ b ∈ l₁ ++ [x], b ∈ slabs := fun b hb => (hmem b).mp (by
      rw [List.cons_append]
      exact List.mem_cons_of_mem _ (List.mem_append_right _ hb))
    have hthis' : k.freeSlab ∈ slabs := (hmem _).mp (by simp)
    refine ⟨l, l₁ ++ [x, k.freeSlab], ?_, ?_, ?_, fun b => ?_, fun b hb => ?_, fun b hb => ?_⟩
    · exact ((htail.update_of_notMem hx k.freeSlab).update_of_notMem hnotl NULL).congr fun b hb => hnext b (hin b hb)
    · refine (hfull.append hnotl' hne).congr fun b hb => ?_
      have hsplit : b ∈ l₁ ++ [x] ∨ b = k.freeSlab := by
        simp only [List.mem_append, List.mem_cons, List.not_mem_nil, or_false] at hb ⊢
        tauto
      rcases hsplit with hb | rfl
      · exact hnext b (hin' b hb)
      · exact hnext _ hthis'
    · have hperm : (l ++ (l₁ ++ [x, k.freeSlab])).Perm (k.freeSlab :: (l ++ (l₁ ++ [x]))) := by
        have heq : l ++ (l₁ ++ [x, k.freeSlab]) = (l ++ (l₁ ++ [x])) ++ [k.freeSlab] := by simp
        rw [heq]
        exact List.perm_append_singleton _ _
      exact hperm.nodup_iff.mpr (List.nodup_cons.mpr ⟨hnot, hnodup⟩)
    · rw [← hmem]
      simp only [List.mem_append, List.mem_cons, List.not_mem_nil, or_false]
      tauto
    · rw [hother b fun heq => hnotl (heq ▸ hb)]
      exact hpos b (List.mem_cons_of_mem _ hb)
    · by_cases heq : b = k.freeSlab
      · rw [heq, hthis]
      · rw [hother b heq]
        refine hzero b ?_
        simp only [List.mem_append, List.mem_cons, List.not_mem_nil, or_false] at hb ⊢
        tauto

/-- The first full slab goes back to the front of the free list. -/
theorem reopen (hne : k.fullSlab ≠ NULL)
    (hnext : ∀ b ∈ slabs, (header' b).next = update (fun b => (header b).next) k.fullSlab k.freeSlab b)
    (hthis : (header' k.fullSlab).free ≠ 0) (hother : ∀ b, b ≠ k.fullSlab → (header' b).free = (header b).free) :
    Listed { k with fullSlab := (header k.fullSlab).next, freeSlab := k.fullSlab } header' slabs := by
  obtain ⟨l, l', hchain, hchain', hnodup, hmem, hpos, hzero⟩ := h
  cases l' with
  | nil => exact absurd hchain' hne
  | cons b l' =>
    obtain ⟨rfl, _, htail⟩ := hchain'
    have hperm : (k.fullSlab :: (l ++ l')).Perm (l ++ k.fullSlab :: l') := List.perm_middle.symm
    have hnodup' := hperm.nodup_iff.mpr hnodup
    obtain ⟨hnot, hnodup''⟩ := List.nodup_cons.mp hnodup'
    have hnotl : k.fullSlab ∉ l := fun hin => hnot (List.mem_append_left _ hin)
    have hnotl' : k.fullSlab ∉ l' := fun hin => hnot (List.mem_append_right _ hin)
    have hin : ∀ b ∈ k.fullSlab :: l, b ∈ slabs := fun b hb => (hmem b).mp (by
      simp only [List.mem_append, List.mem_cons] at hb ⊢
      tauto)
    have hin' : ∀ b ∈ l', b ∈ slabs := fun b hb => (hmem b).mp (by simp [hb])
    refine ⟨k.fullSlab :: l, l', ?_, ?_, hnodup', fun b => ?_, fun b hb => ?_, fun b hb => ?_⟩
    · exact (hchain.push hnotl hne).congr fun b hb => hnext b (hin b hb)
    · exact (htail.update_of_notMem hnotl' k.freeSlab).congr fun b hb => hnext b (hin' b hb)
    · rw [← hmem]
      exact hperm.mem_iff
    · rcases List.mem_cons.mp hb with rfl | hb
      · exact hthis
      · rw [hother b fun heq => hnotl (heq ▸ hb)]
        exact hpos b hb
    · rw [hother b fun heq => hnotl' (heq ▸ hb)]
      exact hzero b (List.mem_cons_of_mem _ hb)

end Listed

/-! ## Steps -/

namespace Run

/-- A slab that becomes the first full slab of its class has no successor, and a slab that gets its first free
object is the first full slab of its class. -/
def Linked (r : Run) : Op → Prop
  | .alloc size => ∀ c, slabSize size = slabSizeTable c → (r.s.cache c).freeSlab ≠ NULL →
      (r.s.header (r.s.cache c).freeSlab).free = 1 → (r.s.cache c).fullSlab = NULL →
      (r.s.header (r.s.cache c).freeSlab).next = NULL
  | .free addr => addr ∈ r.live → (r.s.header (pgRoundDown addr)).free = 0 →
      ∀ c, pgRoundDown addr ∈ r.slabs c → (r.s.cache c).fullSlab = pgRoundDown addr
  | .write _ _ | .writeBlock _ _ => True

/-- The lists of all classes. -/
def AllListed (r : Run) : Prop := ∀ c, Listed (r.s.cache c) r.s.header (r.slabs c)

namespace Inv

variable {ordered : Prop} {r : Run} {c : Class} {slab addr : Nat} {s' : Slabs}

/-- There are not more slabs than pages. -/
theorem length_le (h : r.Inv ordered) {l : List Nat} (hnodup : l.Nodup) (hsub : ∀ b ∈ l, b ∈ r.slabs c) :
    l.length ≤ r.s.pmem.totalPages := by
  obtain ⟨held, hpages⟩ := h.pages
  have hpage : l ⊆ (List.range r.s.pmem.totalPages).map r.s.pmem.pageAddr := by
    intro b hb
    obtain ⟨block, hblock, haddr, _⟩ := hpages.slab c b (hsub b hb)
    exact List.mem_map.mpr ⟨block.page, List.mem_range.mpr (hpages.wf.placed hblock).page_lt, haddr⟩
  have hle := (hnodup.subperm hpage).length_le
  rwa [List.length_map, List.length_range] at hle

/-- The end of the full list is found. -/
theorem exists_last (h : r.Inv ordered) (hl : r.AllListed) (hne : (r.s.cache c).fullSlab ≠ NULL) :
    ∃ l₁ x, Chain NULL (fun b => (r.s.header b).next) (r.s.cache c).fullSlab (l₁ ++ [x]) ∧ x ∈ r.slabs c ∧
      Chain.last NULL (fun b => (r.s.header b).next) r.s.pmem.totalPages (r.s.cache c).fullSlab = some x := by
  obtain ⟨l, l', _, hchain', hnodup, hmem, _⟩ := hl c
  obtain ⟨l₁, x, rfl⟩ : ∃ l₁ x, l' = l₁ ++ [x] := by
    have hl' : l' ≠ [] := fun hnil => hne (hchain'.nil_iff.mpr hnil)
    exact ⟨l'.dropLast, l'.getLast hl', (List.dropLast_append_getLast hl').symm⟩
  have hsub : ∀ b ∈ l₁ ++ [x], b ∈ r.slabs c := fun b hb => (hmem b).mp (List.mem_append_right _ hb)
  have hle := h.length_le (List.nodup_append.mp hnodup).2.1 hsub
  rw [List.length_append] at hle
  exact ⟨l₁, x, hchain', hsub x (by simp), hchain'.last_eq (by simpa using Nat.lt_of_succ_le hle)⟩

/-- The classes that an operation does not work on. -/
theorem listed_other (h : r.Inv ordered) (hl : r.AllListed) {c' : Class} (hc : c' ≠ c)
    (hcache : s'.cache c' = r.s.cache c')
    (hheader : ∀ b, b ∉ r.slabs c → b ∈ r.slabs c' →
      (s'.header b).next = (r.s.header b).next ∧ (s'.header b).free = (r.s.header b).free) :
    Listed (s'.cache c') s'.header (r.slabs c') := by
  have hsame := fun b hb => hheader b (fun hin => hc (h.class_eq hb hin)) hb
  rw [hcache]
  exact (hl c').congr (fun b hb => (hsame b hb).1) fun b hb => by rw [(hsame b hb).2]

/-- The count of a slab and its objects are not its place in a list. -/
theorem next_setHeader {object free : Nat} :
    (fun b => ((r.s.setHeader slab { r.s.header slab with object, free }).header b).next) =
      fun b => (r.s.header b).next := by
  funext b
  by_cases hb : b = slab
  · subst hb
    simp [Slabs.setHeader]
  · simp [Slabs.setHeader, hb]

/-- The last object of the first slab is taken. -/
theorem listed_filled (h : r.Inv ordered) (hl : r.AllListed) (hne : (r.s.cache c).freeSlab ≠ NULL)
    (hsingle : (r.s.cache c).fullSlab = NULL → (r.s.header (r.s.cache c).freeSlab).next = NULL)
    (hret : (r.s.setHeader (r.s.cache c).freeSlab
      { r.s.header (r.s.cache c).freeSlab with object := NULL, free := 0 }).moveToFull c (r.s.cache c).freeSlab = .ok s') :
    ∀ c', Listed (s'.cache c') s'.header (r.slabs c') := by
  have hslab := (h.freeSlab c).resolve_left hne
  have hrel := Slabs.moveToFull_relinked hret
  generalize hk : (r.s.cache c).freeSlab = slab at *
  set t := r.s.setHeader slab { r.s.header slab with object := NULL, free := 0 } with ht
  have hthis : (s'.header slab).free = 0 := by
    rw [(hrel.objects slab).free]
    simp [ht, Slabs.setHeader]
  have hfree : ∀ b, b ≠ slab → (s'.header b).free = (r.s.header b).free := by
    intro b hb
    rw [(hrel.objects b).free]
    simp [ht, Slabs.setHeader, hb]
  have hsame : (fun b => (t.header b).next) = fun b => (r.s.header b).next := next_setHeader
  have hnext := congrFun hsame
  by_cases hfull : (r.s.cache c).fullSlab = NULL
  · have hfull' : (t.cache c).fullSlab = NULL := hfull
    rw [Slabs.moveToFull_first hfull'] at hret
    cases hret
    intro c'
    by_cases hc : c' = c
    · subst hc
      have hlisted : Listed _ t.header _ := (hl c').fillFirst (by rw [hk]; exact hne) hfull
        (by rw [hk]; exact hsingle hfull) (fun b _ => hnext b) (by rw [hk]; exact hthis)
      rw [hk, ← hnext slab] at hlisted
      simp only [Slabs.setCache, update_self]
      exact hlisted
    · refine h.listed_other hl hc (update_of_ne hc _ _) fun b hb _ => ⟨hnext b, hfree b ?_⟩
      exact fun heq => hb (heq ▸ hslab)
  · obtain ⟨l₁, x, hchain, hx, hlast⟩ := h.exists_last hl hfull
    obtain ⟨s₁, hret', hcache, hnext'⟩ := @Slabs.moveToFull_last t c slab hfull x (by rw [hsame]; exact hlast)
    rw [hret'] at hret
    cases hret
    rw [hsame] at hnext'
    intro c'
    by_cases hc : c' = c
    · subst hc
      have hlisted : Listed _ s'.header _ := (hl c').fillLast (by rw [hk]; exact hne) hchain
        (fun b _ => by rw [hk]; exact hnext' b) (by rw [hk]; exact hthis) (fun b hb => hfree b (hk ▸ hb))
      rw [hk, ← hnext slab] at hlisted
      rw [hcache, update_self]
      exact hlisted
    · refine h.listed_other hl hc ?_ fun b hb _ => ?_
      · rw [hcache, update_of_ne hc]
        rfl
      · have hbs : b ≠ slab := fun heq => hb (heq ▸ hslab)
        have hbx : b ≠ x := fun heq => hb (heq ▸ hx)
        rw [hnext', update_of_ne hbs, update_of_ne hbx]
        exact ⟨rfl, hfree b hbs⟩

/-- A request for an object keeps the lists. -/
theorem listed_alloc (h : r.Inv ordered) (hl : r.AllListed) {size q : Nat} (hq : r.s.pmem.FreePage q)
    (hlinked : r.Linked (.alloc size)) (hc : slabSize size = slabSizeTable c)
    (hret : r.s.slabAlloc size = .ok (addr, s')) :
    ∀ c', Listed (s'.cache c') s'.header (r.created c s' c') := by
  rw [Slabs.slabAlloc_eq h.size hc] at hret
  rcases Slabs.allocFromKmemCache_cases hret with ⟨hne, hfree, htake⟩ | ⟨hne, hfree, rfl, hmove⟩ | ⟨hnull, b, s₁, hcreate, htake⟩
  · obtain ⟨_, _, rfl⟩ := Slabs.takeObject_ok htake
    rw [created, if_neg hne]
    refine fun c' => (hl c').congr (fun b _ => ?_) fun b _ => ?_
    · by_cases hb : b = (r.s.cache c).freeSlab
      · subst hb
        simp [Slabs.setHeader]
      · simp [Slabs.setHeader, hb]
    · by_cases hb : b = (r.s.cache c).freeSlab
      · subst hb
        simp only [Slabs.setHeader, update_self]
        omega
      · simp [Slabs.setHeader, hb]
  · rw [created, if_neg hne]
    exact h.listed_filled hl hne (hlinked c hc hne hfree) hmove
  · rw [h.size c] at hcreate
    have hcreated := h.create hq hcreate
    have hbne : b ≠ NULL := hcreated.inv.slab_ne_null (mem_update_slabs.mpr (.inl ⟨rfl, rfl⟩))
    obtain ⟨_, _, rfl⟩ := Slabs.takeObject_ok htake
    have hother : ∀ c' b', b' ∈ r.slabs c' → update s₁.header b
        { s₁.header b with object := s₁.link (s₁.header b).object, free := (s₁.header b).free - 1 } b' =
        r.s.header b' := by
      intro c' b' hb'
      have hbb : b' ≠ b := fun heq => hcreated.new c' (heq ▸ hb')
      rw [update_of_ne hbb, hcreated.others c' b' hb']
    rw [created, if_pos hnull]
    intro c'
    by_cases hcc : c' = c
    · subst hcc
      have hthis : (update s₁.header b { s₁.header b with
          object := s₁.link (s₁.header b).object, free := (s₁.header b).free - 1 } b).next = NULL ∧
          (update s₁.header b { s₁.header b with
            object := s₁.link (s₁.header b).object, free := (s₁.header b).free - 1 } b).free ≠ 0 := by
        have := (table_facts c').2.2.1
        simp only [update_self, hcreated.header]
        exact ⟨trivial, by omega⟩
      have hlisted := (hl c').create hnull (hcreated.new c') hbne hthis (hother c')
      simp only [Slabs.setHeader, Slabs.setCache, update_self, hcreated.cache]
      exact hlisted
    · simp only [Slabs.setHeader, Slabs.setCache, update_of_ne hcc, hcreated.cache]
      exact (hl c').congr (fun b' hb' => by rw [hother c' b' hb']) fun b' hb' => by rw [hother c' b' hb']

/-- A released object keeps the lists. -/
theorem listed_free (h : r.Inv False) (hl : r.AllListed) (hlinked : r.Linked (.free addr)) (haddr : addr ∈ r.live)
    (hne : addr ≠ NULL) (hret : r.s.slabFree addr = .ok s') :
    ∀ c', Listed (s'.cache c') s'.header (r.slabs c') := by
  obtain ⟨c, hslab, hslot⟩ := h.live_slot haddr hne
  rw [h.slabFree_eq haddr hne] at hret
  by_cases hzero : (r.s.header (pgRoundDown addr)).free = 0
  · have hfirst := hlinked haddr hzero c hslab
    rw [if_pos hzero, h.freeToFull_eq hslab] at hret
    have hslabne := h.slab_ne_null hslab
    generalize pgRoundDown addr = slab at *
    cases hret
    intro c'
    by_cases hcc : c' = c
    · subst hcc
      have hnext : ∀ b ∈ r.slabs c', (update r.s.header slab { r.s.header slab with
          next := (r.s.cache c').freeSlab, object := addr, free := 1 } b).next =
          update (fun b => (r.s.header b).next) (r.s.cache c').fullSlab (r.s.cache c').freeSlab b := by
        intro b _
        rw [hfirst]
        by_cases hb : b = slab
        · subst hb
          simp
        · simp [hb]
      have hlisted := (hl c').reopen (by rw [hfirst]; exact hslabne) hnext (by simp [hfirst]) (fun b hb => by
        rw [hfirst] at hb
        rw [update_of_ne hb])
      simp only [Slabs.setCache, Slabs.setHeader, Slabs.setLink, update_self]
      rw [hfirst] at hlisted
      exact hlisted
    · refine h.listed_other hl hcc (update_of_ne hcc _ _) fun b hb _ => ?_
      have hbs : b ≠ slab := fun heq => hb (heq ▸ hslab)
      simp [Slabs.setCache, Slabs.setHeader, Slabs.setLink, hbs]
  · rw [if_neg hzero] at hret
    obtain ⟨_, s₁, _, hret', hfreed, _⟩ := h.freedToList haddr hne (Slabs.freeToList_object hret) False.elim
    rw [hret'] at hret
    cases hret
    obtain ⟨object, hheader⟩ := hfreed.header
    intro c'
    rw [hfreed.cache, hheader]
    refine (hl c').congr (fun b _ => ?_) fun b _ => ?_
    · by_cases hb : b = pgRoundDown addr
      · subst hb
        simp
      · simp [hb]
    · by_cases hb : b = pgRoundDown addr
      · subst hb
        simp [hzero]
      · simp [hb]

/-- Every operation whose slabs are where it expects them keeps the lists. -/
theorem listed_step (h : r.Inv False) (hl : r.AllListed) {op : Op} {r' : Run} (hmeets : r.Paged op)
    (hlinked : r.Linked op) (hstep : r.Step op r') : r'.AllListed := by
  -- operations that change neither the headers of slabs nor the lists
  have hkeep : ∀ {s' : Slabs}, s'.cache = r.s.cache → (∀ c, ∀ b ∈ r.slabs c, s'.header b = r.s.header b) →
      ∀ c, Listed (s'.cache c) s'.header (r.slabs c) := by
    intro s' hcache hheader c
    rw [hcache]
    exact (hl c).congr (fun b hb => by rw [hheader c b hb]) fun b hb => by rw [hheader c b hb]
  cases hstep with
  | object size addr c s' hc hret =>
    have hpos : slabSize size ≠ 0 := by
      have := (table_facts c).1
      omega
    rw [Paged, if_neg hpos] at hmeets
    obtain ⟨q, hq⟩ := hmeets
    exact h.listed_alloc hl hq hlinked hc hret
  | block size addr s' hlarge hret hne len hlen =>
    rw [Paged, if_pos hlarge] at hmeets
    obtain ⟨hcache, hheader, _⟩ := h.allocBlock hlarge hmeets hret
    exact hkeep hcache hheader
  | noBlock size s' hlarge hret =>
    rw [Paged, if_pos hlarge] at hmeets
    obtain ⟨hcache, hheader, _⟩ := h.allocBlock hlarge hmeets hret
    exact hkeep hcache hheader
  | freeObject addr s' hlive hret => exact h.listed_free hl hlinked hlive hmeets.1 hret
  | freeBlock addr len s' hlive hret =>
    obtain ⟨pmem, hret', _⟩ := h.freedBlock hlive (hmeets.2 ⟨len, hlive⟩)
    rw [hret'] at hret
    cases hret
    exact hkeep rfl fun _ _ _ => rfl
  | write addr value hlive => exact hkeep rfl fun _ _ _ => rfl
  | writeBlock addr len hlive magic header link hmagic hheader hlink =>
    obtain ⟨held, hpages⟩ := h.pages
    have hout : Outside r.s { r.s with magic, header, link } addr len := ⟨hmagic, hheader, hlink⟩
    exact hkeep rfl fun c b hb => hout.header_slab hpages.wf (hpages.slab c b hb) (hpages.block addr len hlive)
      (hpages.apart c b hb addr len hlive)

/-- With the lists in order a request for an object does not panic and does not run in circles. -/
theorem alloc_outcome (h : r.Inv ordered) (hl : r.AllListed) {size q : Nat} (hq : r.s.pmem.FreePage q)
    (hsize : size ≤ 1024) : r.s.slabAlloc size ≠ .error .panic ∧ r.s.slabAlloc size ≠ .error .hang := by
  obtain ⟨c, hc⟩ := slabSize_class hsize
  have htake : ∀ (s : Slabs) slab, s.takeObject slab ≠ .error .panic ∧ s.takeObject slab ≠ .error .hang := by
    intro s slab
    rw [Slabs.takeObject]
    split <;> simp
  rw [Slabs.slabAlloc_eq h.size hc]
  by_cases hne : (r.s.cache c).freeSlab = NULL
  · obtain ⟨held, hpages⟩ := h.pages
    obtain ⟨p, pmem', hcreate, _⟩ := Slabs.createSlab_eq hpages.wf hq (slabSizeTable c)
    rw [Slabs.allocFromKmemCache]
    simp only [hne, ne_eq, not_true_eq_false, if_false, h.size, hcreate]
    exact htake _ _
  · have hfree := (hl c).free_ne_zero hne
    by_cases hone : (r.s.header (r.s.cache c).freeSlab).free = 1
    · rw [Slabs.allocFromKmemCache_last rfl hne hone]
      generalize hslab : (r.s.cache c).freeSlab = slab
      set t := r.s.setHeader slab { r.s.header slab with object := NULL, free := 0 } with ht
      obtain ⟨s', hmove⟩ : ∃ s', t.moveToFull c slab = .ok s' := by
        by_cases hfull : (r.s.cache c).fullSlab = NULL
        · have hfull' : (t.cache c).fullSlab = NULL := hfull
          exact ⟨_, Slabs.moveToFull_first hfull'⟩
        · obtain ⟨_, x, _, _, hlast⟩ := h.exists_last hl hfull
          rw [← next_setHeader] at hlast
          obtain ⟨s', hmove, _⟩ := @Slabs.moveToFull_last t c slab hfull x hlast
          exact ⟨s', hmove⟩
      rw [hmove]
      simp [Except.map]
    · rw [Slabs.allocFromKmemCache]
      simp only [ne_eq, hne, not_false_eq_true, if_true]
      rw [if_pos (by omega)]
      exact htake _ _

end Inv

/-- The pages are there and the slabs are where the operation expects them. -/
def PagedLinked (r : Run) (op : Op) : Prop := r.Paged op ∧ r.Linked op

end Run

/-- After `slab_init` every class has one slab, on its free list. -/
theorem Run.Start.allListed {r : Run} (h : r.Start) : r.AllListed := by
  obtain ⟨_, hfresh⟩ : r.Inv False ∧ ∀ c, Fresh r.s c := h.inv
  intro c
  have hslabs : r.slabs c = [(r.s.cache c).freeSlab] := by
    obtain ⟨_, _, _, _, _, _, _, _, hslabs, _⟩ := h
    rw [hslabs]
  refine ⟨[(r.s.cache c).freeSlab], [], ⟨rfl, (hfresh c).ne_null, (hfresh c).next⟩, (hfresh c).full, by simp, ?_, ?_, by simp⟩
  · intro b
    rw [hslabs, List.append_nil]
  · intro b hb
    have hnum := (table_facts c).2.2.1
    rw [List.mem_singleton.mp hb, (hfresh c).free]
    omega

/-- In every run in which a slab that becomes the first full slab has no successor, and a slab that gets its
first free object is the first full slab, the lists of every class are as they should be. -/
theorem slab_lists {r₀ r : Run} (hstart : r₀.Start) (hrun : Reaches (Run.Move Run.PagedLinked) r₀ r) :
    r.AllListed ∧ ∀ size ≤ 1024, (∃ q, r.s.pmem.FreePage q) →
      r.s.slabAlloc size ≠ .error .panic ∧ r.s.slabAlloc size ≠ .error .hang := by
  have hinv : r.Inv False ∧ r.AllListed := by
    refine Reaches.invariant (I := fun r => r.Inv False ∧ r.AllListed) hrun ⟨hstart.inv.1, hstart.allListed⟩ ?_
    rintro t t' ⟨ht, hl⟩ ⟨op, ⟨hmeets, hlinked⟩, hstep⟩
    exact ⟨ht.step hmeets False.elim hstep, ht.listed_step hl hmeets hlinked hstep⟩
  exact ⟨hinv.2, fun size hsize ⟨q, hq⟩ => hinv.1.alloc_outcome hinv.2 hq hsize⟩

/-- The first slab of the class has no successor. -/
theorem Front.linked {r : Run} {c : Class} {slab full : Nat} {l : List Nat} (h : Front r c slab NULL full l) :
    r.Linked (.alloc (slabSizeTable c)) := by
  intro c' hc' _ _ _
  obtain ⟨hc, _, _⟩ := slabSize_table c
  obtain rfl := table_injective c c' (hc.symm.trans hc')
  obtain ⟨object, hheader, _⟩ := h.header
  rw [h.freeSlab.1, hheader]

theorem slab_lists_three : ∃ r₀ r : Run, r₀.Start ∧ Reaches (Run.Move Run.PagedLinked) r₀ r ∧ r.live.length = 3 ∧
    r.AllListed := by
  obtain ⟨r₀, hstart, hpages⟩ := exists_start
  have hmeets : ∀ r slab full l, Front r 7 slab NULL full l → FreePages r.s.pmem 1 →
      r.PagedLinked (.alloc (slabSizeTable 7)) := fun _ _ _ _ hfront hpages =>
    ⟨(Run.smallInOrder_alloc 7 hpages).1.1, hfront.linked⟩
  obtain ⟨slab, a, b, d, r, hrun, _, hlive, _⟩ := hstart.fill (hpages.mono (by omega)) hmeets
  refine ⟨r₀, r, hstart, hrun, ?_, (slab_lists hstart hrun).1⟩
  rw [hlive]
  rfl

/-- A class without a free slab gets a new one. -/
theorem Run.Inv.second {r : Run} {c : Class} {full : Nat} (h : r.Inv True) (hcache : r.s.cache c = ⟨NULL, full, slabSizeTable c⟩)
    (hpages : FreePages r.s.pmem 2) :
    ∃ slab addr r', r.Step (.alloc (slabSizeTable c)) r' ∧ r'.Inv True ∧ r'.live = addr :: r.live ∧
      FreePages r'.s.pmem 1 ∧ r'.slabs c = slab :: r.slabs c ∧ slab ≠ NULL ∧ slab ∉ r.slabs c ∧
      r'.s.cache c = ⟨slab, full, slabSizeTable c⟩ ∧ (r'.s.header slab).free ≠ 0 ∧
      ∀ b ∈ r.slabs c, r'.s.header b = r.s.header b := by
  obtain ⟨q, hq⟩ := hpages.exists_page
  obtain ⟨held, hp⟩ := h.pages
  obtain ⟨p, pmem', hcreate, hne, hwf', hsame⟩ := Slabs.createSlab_eq hp.wf hq (slabSizeTable c)
  have hfree : FreePages pmem' 1 := hpages.handed hp.wf hwf' hsame
  have hcreated := h.create hq hcreate
  have hpmem : ∀ s₁ : Slabs, r.s.createSlab (slabSizeTable c) = .ok (r.s.pmem.pageAddr p, s₁) → s₁.pmem = pmem' := by
    intro s₁ heq
    rw [hcreate] at heq
    cases heq
    rfl
  have hpmem' := hpmem _ hcreate
  generalize Slabs.format _ _ _ = s₁ at *
  generalize r.s.pmem.pageAddr p = slab at *
  have hnull : (r.s.cache c).freeSlab = NULL := by rw [hcache]
  have hobject : (s₁.header slab).object ≠ NULL := by
    rw [hcreated.header]
    show slab + headerSize ≠ 0
    simp only [headerSize]
    omega
  have hret : r.s.allocFromKmemCache c = .ok ((s₁.header slab).object,
      (s₁.setCache c { s₁.cache c with freeSlab := slab }).setHeader slab { s₁.header slab with
        object := s₁.link (s₁.header slab).object, free := (s₁.header slab).free - 1 }) := by
    rw [Slabs.allocFromKmemCache]
    simp only [hnull, ne_eq, not_true_eq_false, if_false, h.size, hcreate]
    exact if_neg hobject
  obtain ⟨hc, _, _⟩ := slabSize_table c
  rw [← Slabs.slabAlloc_eq h.size hc] at hret
  have hstep := Run.Step.object _ _ c _ hc hret
  have hmeets := (Run.smallInOrder_alloc c (hpages.mono (by omega))).1.1
  refine ⟨slab, _, _, hstep, h.step hmeets (fun _ => trivial) hstep, rfl, ?_, ?_, hne, hcreated.new c, ?_, ?_, fun b hb => ?_⟩
  · rw [← hpmem'] at hfree
    exact hfree
  · simp [Run.created, hnull, Slabs.setHeader, Slabs.setCache]
  · simp [Slabs.setHeader, Slabs.setCache, hcreated.cache, hcache]
  · have hnum := (table_facts c).2.2.1
    simp only [Slabs.setHeader, update_self, hcreated.header]
    omega
  · have hbs : b ≠ slab := fun heq => hcreated.new c (heq ▸ hb)
    simp only [Slabs.setHeader, Slabs.setCache, update_of_ne hbs]
    exact hcreated.others c b hb

/-- A full slab and a new one with free objects: an object of the full slab is released, so that it comes
before the new one, and taken again. The full list then leads on to the new slab. -/
theorem not_allListed : ∃ r₀ r : Run, r₀.Start ∧ Reaches (Run.Move Run.SmallInOrder) r₀ r ∧ ¬ r.AllListed := by
  obtain ⟨r₀, hstart, hpages⟩ := exists_start
  obtain ⟨slab, a, b, d, r, hrun, hinv, hlive, hab, _, hslabs, hslab, hpmem, hcache, hheader, hround⟩ :=
    hstart.fill (hpages.mono (by omega)) fun _ _ _ _ _ hpages => Run.smallInOrder_alloc 7 hpages
  have hmem : slab ∈ r.slabs 7 := by
    rw [hslabs, hslab]
    exact List.mem_singleton_self _
  have hfree : FreePages r.s.pmem 2 := hpmem ▸ hpages.mono (by omega)
  -- the second slab
  obtain ⟨slab₂, e, r₁, hstep₁, hinv₁, hlive₁, hfree₁, hslabs₁, hne₂, hnew₂, hcache₁, hcount₂, hkept⟩ :=
    hinv.second hcache hfree
  have hmem₁ : slab ∈ r₁.slabs 7 := by
    rw [hslabs₁]
    exact List.mem_cons_of_mem _ hmem
  have hheader₁ : r₁.s.header slab = ⟨NULL, NULL, slabSizeTable 7, 0⟩ := (hkept slab hmem).trans hheader
  -- an object of the first slab comes back
  have ha : a ∈ r₁.live := by simp [hlive₁, hlive]
  have hane : a ≠ NULL := fun heq => hinv₁.null trivial (heq ▸ ha)
  have hzero : (r₁.s.header (pgRoundDown a)).free = 0 := by rw [hround a (by simp), hheader₁]
  have hret₂ : r₁.s.slabFree a = .ok (r₁.s.freeToFull slab a) := by
    rw [hinv₁.slabFree_eq ha hane, if_pos hzero, hround a (by simp)]
  have hinv₂ := hinv₁.freedToFull ha hane hzero
  have hstep₂ := Run.Step.freeObject a _ ha hret₂
  have hmeets₂ : r₁.SmallInOrder (.free a) := by
    refine ⟨⟨⟨hane, ?_⟩, fun _ => .inl hzero⟩, trivial⟩
    rintro ⟨len, hblock⟩
    exact absurd hblock (hinv₁.not_block ha hane len)
  rw [hround a (by simp), hinv₁.freeToFull_eq hmem₁, hheader₁, hcache₁] at hinv₂
  rw [hinv₁.freeToFull_eq hmem₁, hheader₁, hcache₁] at hstep₂
  have hfront : Front { r₁ with
      s := ((r₁.s.setLink a NULL).setHeader slab ⟨slab₂, a, slabSizeTable 7, 1⟩).setCache 7 ⟨slab, NULL, slabSizeTable 7⟩
      live := r₁.live.erase a } 7 slab slab₂ NULL [a] := by
    refine ⟨hinv₂, hmem₁, by simp [Slabs.setCache], a, by simp [Slabs.setCache, Slabs.setHeader], rfl, hane, ?_⟩
    simp [Slabs.setCache, Slabs.setHeader, Slabs.setLink, Chain]
  -- and is taken again
  obtain ⟨r₃, hstep₃, _, _, _, _, hcache₃, hheader₃, hother₃⟩ := hfront.last hfree₁
  have hne : slab₂ ≠ slab := fun heq => hnew₂ (heq ▸ hmem)
  have hcount₃ : (r₃.s.header slab₂).free ≠ 0 := by
    rw [hother₃ slab₂ hne]
    simpa [Slabs.setCache, Slabs.setHeader, Slabs.setLink, hne] using hcount₂
  have hrun₁ := hrun.tail ⟨_, Run.smallInOrder_alloc 7 (hfree.mono (by omega)), hstep₁⟩
  have hrun₂ := hrun₁.tail ⟨_, hmeets₂, hstep₂⟩
  have hrun₃ := hrun₂.tail ⟨_, Run.smallInOrder_alloc 7 hfree₁, hstep₃⟩
  refine ⟨r₀, r₃, hstart, hrun₃, fun hl => ?_⟩
  obtain ⟨l, l', _, hchain', _, _, _, hzero'⟩ := hl 7
  rw [hcache₃] at hchain'
  cases l' with
  | nil => exact hinv.slab_ne_null hmem hchain'
  | cons b l' =>
    obtain ⟨rfl, _, htail⟩ := hchain'
    simp only [hheader₃] at htail
    cases l' with
    | nil => exact hne₂ htail
    | cons b l' =>
      obtain ⟨rfl, _, _⟩ := htail
      exact hcount₃ (hzero' _ (by simp))

end SC7.Slab
