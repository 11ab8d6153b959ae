-- SUMMARY: The buddy system as its clients see it: runs of `buddy_alloc` and `buddy_free`, and the invariant of every reachable state.
import SC7.Base.Run
import SC7.Mem.PmemScan

/-!
# Runs of the buddy system

A client state is the allocator together with the blocks that are live, each with the address
`buddy_alloc` returned and the order that was asked for. `BuddyWf` is the invariant in terms
of addresses, lists and the bitmap only.
-/

namespace SC7

/-- The `PGSIZE << order` bytes from `addr` on. -/
structure Extent where
  addr : Nat
  order : Nat
  deriving DecidableEq, Repr

namespace Extent

/-- The first address behind the extent. -/
def limit (e : Extent) : Nat := e.addr + blockSize e.order

def Contains (e : Extent) (a : Nat) : Prop := e.addr ≤ a ∧ a < e.limit

def Disjoint (e e' : Extent) : Prop := e.limit ≤ e'.addr ∨ e'.limit ≤ e.addr

instance (e e' : Extent) : Decidable (e.Disjoint e') :=
  inferInstanceAs (Decidable (e.limit ≤ e'.addr ∨ e'.limit ≤ e.addr))

end Extent

/-- All blocks on the free lists, list by list; `none` if one of the lists has no end. -/
def Pmem.freeBlocks (s : Pmem) : Option (List Extent) :=
  ((List.range (BUDDY_MAX_ORDER + 1)).mapM fun k =>
    (s.freeList k).map fun l => l.map fun addr => Extent.mk addr k).map List.flatten

/-- The allocator and the live blocks. -/
structure Heap where
  pmem : Pmem
  live : List Extent

/-- One call of the buddy system. The order that `buddy_free` is given is only checked for its
range; out of range the call does nothing. -/
inductive Heap.Step : Heap → Heap → Prop where
  | alloc {h : Heap} {order : Int} {addr : Nat} {s : Pmem} :
      h.pmem.buddyAlloc order = some (addr, s) → addr ≠ NULL →
      Heap.Step h ⟨s, ⟨addr, order.toNat⟩ :: h.live⟩
  | allocNull {h : Heap} {order : Int} {s : Pmem} :
      h.pmem.buddyAlloc order = some (NULL, s) → Heap.Step h ⟨s, h.live⟩
  | free {h : Heap} {e : Extent} {order : Int} {s : Pmem} :
      e ∈ h.live → h.pmem.buddyFree e.addr order = some s →
      Heap.Step h ⟨s, if 0 ≤ order ∧ order ≤ BUDDY_MAX_ORDER then h.live.erase e else h.live⟩

/-- A client state that calls can lead to after `buddy_init(start, end_)`. -/
def Heap.Reachable (start end_ : Nat) (mem : Nat → UInt8) (h : Heap) : Prop :=
  ∃ s, buddyInit start end_ mem = some s ∧ Reaches Heap.Step ⟨s, []⟩ h

/-- The invariant of the buddy system: `free` are the blocks on the free lists. -/
structure BuddyWf (s : Pmem) (live free : List Extent) : Prop where
  free_eq : s.freeBlocks = some free
  live_disjoint : live.Pairwise Extent.Disjoint
  free_disjoint : free.Pairwise Extent.Disjoint
  live_free_disjoint : ∀ e ∈ live, ∀ e' ∈ free, e.Disjoint e'
  /-- live and free blocks lie between the metadata and the end of the region -/
  range : ∀ e, e ∈ live ∨ e ∈ free → s.metaEnd ≤ e.addr ∧ e.limit ≤ s.memEnd
  /-- a block on `free_lists[k]` has order `k` and is aligned for it -/
  lists : ∀ k ≤ BUDDY_MAX_ORDER, ∃ l, s.freeList k = some l ∧ ∀ addr ∈ l,
    ⟨addr, k⟩ ∈ free ∧ addr % blockSize k = 0
  /-- a bit is set exactly for the metadata pages and the pages of live blocks -/
  bits : ∀ q < s.totalPages, s.bitmap.test q = true ↔
    s.pageAddr q < s.metaEnd ∨ ∃ e ∈ live, e.Contains (s.pageAddr q)
  /-- `nodes` records the live and the free blocks at all their pages -/
  nodes : ∀ e, e ∈ live ∨ e ∈ free → ∀ q < s.totalPages, e.Contains (s.pageAddr q) →
    s.nodes q = ⟨e.addr, e.order⟩

/-! ## From blocks to extents -/

/-- The extent of a block. -/
def Pmem.extent (s : Pmem) (b : Block) : Extent := ⟨s.pageAddr b.page, b.order⟩

namespace Pmem

variable {s : Pmem} {b b' : Block}

theorem extent_inj (h : s.extent b = s.extent b') : b = b' := by
  cases b with
  | mk page order =>
    cases b' with
    | mk page' order' =>
      simp only [extent, Extent.mk.injEq] at h
      simp only [Block.mk.injEq]
      exact ⟨pageAddr_inj h.1, h.2⟩

theorem extent_congr {s' : Pmem} (h : SameRegion s s') : s'.extent = s.extent := by
  funext b
  simp only [extent, h.pageAddr]

theorem limit_extent (s : Pmem) (b : Block) : (s.extent b).limit = s.pageAddr (b.page + 2 ^ b.order) := by
  simp only [Extent.limit, extent, blockSize_natCast, pageAddr]
  ring

theorem contains_extent {q : Nat} : (s.extent b).Contains (s.pageAddr q) ↔ q ∈ b := by
  rw [Extent.Contains, limit_extent]
  simp only [extent, pageAddr, PGSIZE, Block.mem_def]
  omega

/-- Blocks without a common page have disjoint extents. -/
theorem disjoint_extent (h : ∀ q ∈ b, q ∉ b') : (s.extent b).Disjoint (s.extent b') := by
  have h1 := h b.page b.page_mem
  have h2 : b'.page ∉ b := fun hmem => h b'.page hmem b'.page_mem
  rw [Extent.Disjoint, limit_extent, limit_extent]
  simp only [extent, pageAddr, PGSIZE, Block.mem_def] at *
  omega

theorem range_extent (hr : s.Region) (hb : s.Placed b) :
    s.metaEnd ≤ (s.extent b).addr ∧ (s.extent b).limit ≤ s.memEnd := by
  have h1 := hb.meta_le
  have h2 := hb.fits
  have h3 := hr.end_eq
  rw [limit_extent]
  simp only [extent, metaEnd, pageAddr, PGSIZE] at *
  omega

theorem pageAddr_aligned (hr : s.Region) {p k : Nat} (hp : s.Placed ⟨p, k⟩) :
    s.pageAddr p % blockSize k = 0 := by
  have hal : s.pageNumber p % 2 ^ k = 0 := hp.aligned
  rw [pageAddr_eq hr, blockSize_natCast, Nat.mul_mod_mul_left, hal, Nat.mul_zero]

/-- The extents of the blocks on the lists `L`, list by list. -/
def listedExtents (s : Pmem) (L : Nat → List Nat) : List Extent :=
  (List.range (BUDDY_MAX_ORDER + 1)).flatMap fun k => (L k).map fun p => s.extent ⟨p, k⟩

end Pmem

/-- The lists are well formed and name pages that record their own address: enough to read
them off. -/
structure Pmem.Listing (s : Pmem) (L : Nat → List Nat) : Prop where
  lists : FreeLists s.elems L
  page_lt : ∀ {k p}, p ∈ L k → p < s.totalPages
  addr : ∀ {k p}, p ∈ L k → (s.nodes p).addr = s.pageAddr p

namespace Pmem.Listing

variable {s : Pmem} {L : Nat → List Nat} {k : Nat}

theorem length_le (h : s.Listing L) (hk : k ≤ BUDDY_MAX_ORDER) : (L k).length ≤ s.totalPages := by
  have hsub : (L k) ⊆ List.range s.totalPages := fun p hp => List.mem_range.mpr (h.page_lt hp)
  simpa using ((h.lists.nodup hk).subperm hsub).length_le

/-- Following the links of `free_lists[k]` gives the addresses of its pages. -/
theorem freeList (h : s.Listing L) (hk : k ≤ BUDDY_MAX_ORDER) :
    s.freeList k = some ((L k).map s.pageAddr) := by
  rw [Pmem.freeList, h.lists.walk_eq hk (h.length_le hk), Option.bind_some]
  have haddr : ∀ p ∈ L k, (s.nodes p).addr = s.pageAddr p := fun p hp => h.addr hp
  generalize L k = l at haddr
  induction l with
  | nil => rfl
  | cons p l ih =>
    have hrest := ih fun q hq => haddr q (List.mem_cons_of_mem _ hq)
    rw [List.map_cons, List.mapM_cons, hrest]
    simp [haddr p List.mem_cons_self]

theorem mem_listedExtents (h : s.Listing L) {e : Extent} :
    e ∈ s.listedExtents L ↔ ∃ b : Block, b.page ∈ L b.order ∧ e = s.extent b := by
  simp only [listedExtents, List.mem_flatMap, List.mem_range, List.mem_map]
  constructor
  · rintro ⟨k, -, p, hp, rfl⟩
    exact ⟨⟨p, k⟩, hp, rfl⟩
  · rintro ⟨⟨p, k⟩, hp, rfl⟩
    exact ⟨k, Nat.lt_succ_of_le (h.lists.le_of_mem hp), p, hp, rfl⟩

theorem extent_mem_listedExtents (h : s.Listing L) {b : Block} :
    s.extent b ∈ s.listedExtents L ↔ b.page ∈ L b.order := by
  rw [h.mem_listedExtents]
  constructor
  · rintro ⟨b', hb', heq⟩
    rw [extent_inj heq]
    exact hb'
  · exact fun hb => ⟨b, hb, rfl⟩

theorem nodup_listedExtents (h : s.Listing L) : (s.listedExtents L).Nodup := by
  refine List.nodup_flatMap.mpr ⟨fun k hk => ?_, ?_⟩
  · refine (h.lists.nodup (Nat.le_of_lt_succ (List.mem_range.mp hk))).map fun p q hpq => ?_
    exact congrArg Block.page (extent_inj hpq)
  · refine List.nodup_range.imp fun {j k} hne => ?_
    intro e hj hk
    obtain ⟨p, -, rfl⟩ := List.mem_map.mp hj
    obtain ⟨q, -, heq⟩ := List.mem_map.mp hk
    exact hne (congrArg Block.order (extent_inj heq)).symm

theorem freeBlocks (h : s.Listing L) : s.freeBlocks = some (s.listedExtents L) := by
  have hmapM : ∀ ks : List Nat, (∀ k ∈ ks, k ≤ BUDDY_MAX_ORDER) →
      (ks.mapM fun k => (s.freeList k).map fun l => l.map fun addr => Extent.mk addr k) =
        some (ks.map fun k => (L k).map fun p => s.extent ⟨p, k⟩) := by
    intro ks
    induction ks with
    | nil => intro _; rfl
    | cons k ks ih =>
      intro hks
      rw [List.mapM_cons, ih fun j hj => hks j (List.mem_cons_of_mem _ hj),
        h.freeList (hks k List.mem_cons_self)]
      simp [extent, Function.comp_def]
  rw [Pmem.freeBlocks, hmapM _ fun k hk => Nat.le_of_lt_succ (List.mem_range.mp hk), Option.map_some,
    listedExtents, List.flatMap_def]

end Pmem.Listing

namespace Inv

variable {s : Pmem} {L : Nat → List Nat} {live : List Block} {C : Nat → Prop}

open Pmem

theorem listing (h : Inv s L live none C) : s.Listing L where
  lists := h.lists
  page_lt {k p} hp := (h.core.free ⟨p, k⟩ hp).1.page_lt
  addr {k p} hp := by rw [(h.core.free ⟨p, k⟩ hp).2.1 p (Block.page_mem ⟨p, k⟩)]

theorem pairwise_extents {bs : List Extent} (hnd : bs.Nodup)
    (hdisj : ∀ e ∈ bs, ∀ e' ∈ bs, e ≠ e' → e.Disjoint e') : bs.Pairwise Extent.Disjoint :=
  hnd.imp_of_mem fun he he' hne => hdisj _ he _ he' hne

/-- The invariant of the model, read in terms of addresses. -/
theorem buddyWf (h : Inv s L live none C) : BuddyWf s (live.map s.extent) (s.listedExtents L) where
  free_eq := h.listing.freeBlocks
  live_disjoint := by
    refine pairwise_extents (h.core.nodup.map fun _ _ => extent_inj) ?_
    intro e he e' he' hne
    obtain ⟨b, hb, rfl⟩ := List.mem_map.mp he
    obtain ⟨b', hb', rfl⟩ := List.mem_map.mp he'
    refine disjoint_extent fun q hq hq' => hne ?_
    rw [h.core.live_disjoint hb hb' hq hq']
  free_disjoint := by
    refine pairwise_extents h.listing.nodup_listedExtents ?_
    intro e he e' he' hne
    obtain ⟨b, hb, rfl⟩ := h.listing.mem_listedExtents.mp he
    obtain ⟨b', hb', rfl⟩ := h.listing.mem_listedExtents.mp he'
    refine disjoint_extent fun q hq hq' => hne ?_
    rw [h.core.free_disjoint hb hb' hq hq']
  live_free_disjoint := by
    intro e he e' he'
    obtain ⟨b, hb, rfl⟩ := List.mem_map.mp he
    obtain ⟨b', hb', rfl⟩ := h.listing.mem_listedExtents.mp he'
    exact disjoint_extent fun q hq hq' => h.core.free_live_disjoint hb' hb hq' hq
  range := by
    rintro e (he | he)
    · obtain ⟨b, hb, rfl⟩ := List.mem_map.mp he
      exact range_extent h.region (h.core.alive b hb).1
    · obtain ⟨b, hb, rfl⟩ := h.listing.mem_listedExtents.mp he
      exact range_extent h.region (h.core.free b hb).1
  lists := by
    intro k hk
    refine ⟨_, h.listing.freeList hk, fun addr haddr => ?_⟩
    obtain ⟨p, hp, rfl⟩ := List.mem_map.mp haddr
    exact ⟨h.listing.mem_listedExtents.mpr ⟨⟨p, k⟩, hp, rfl⟩, pageAddr_aligned h.region (h.core.free ⟨p, k⟩ hp).1⟩
  bits := by
    intro q hq
    have hmeta : s.pageAddr q < s.metaEnd ↔ q < metaPages s.totalPages := by
      simp only [pageAddr, metaEnd, PGSIZE]
      omega
    rw [hmeta]
    constructor
    · intro hused
      rcases h.core.used_cases hq hused with hm | ⟨b, hb, hqb⟩
      · exact .inl hm
      · exact .inr ⟨_, List.mem_map_of_mem hb, contains_extent.mpr hqb⟩
    · rintro (hm | ⟨e, he, hqe⟩)
      · exact (h.core.metadata q hm).1
      · obtain ⟨b, hb, rfl⟩ := List.mem_map.mp he
        exact (h.core.alive b hb).2.2 q (contains_extent.mp hqe)
  nodes := by
    rintro e (he | he) q - hqe
    · obtain ⟨b, hb, rfl⟩ := List.mem_map.mp he
      exact (h.core.alive b hb).2.1 q (contains_extent.mp hqe)
    · obtain ⟨b, hb, rfl⟩ := h.listing.mem_listedExtents.mp he
      exact (h.core.free b hb).2.1 q (contains_extent.mp hqe)

end Inv

/-! ## Runs -/

/-- The invariant of a client state: its live extents are the live blocks. -/
def Heap.Inv (h : Heap) (L : Nat → List Nat) (live : List Block) : Prop :=
  SC7.Inv h.pmem L live none h.pmem.Managed ∧ h.live = live.map h.pmem.extent

/-- What a call does to the blocks: nothing, hand one out, or take one back. -/
theorem Heap.Inv.step_cases {h h' : Heap} {L : Nat → List Nat} {live : List Block}
    (hinv : h.Inv L live) (hstep : Heap.Step h h') :
    h' = h ∨
    (∃ p k o L', Allocated h.pmem L live h.pmem.Managed p k o h'.pmem L' ∧ h'.Inv L' (⟨p, o⟩ :: live)) ∨
    ∃ b ∈ live, ∃ L' p k, Freed h.pmem L live h.pmem.Managed b h'.pmem L' p k ∧ h'.Inv L' (live.erase b) := by
  obtain ⟨hinv, hlive⟩ := hinv
  cases hstep with
  | @alloc order addr s hcall haddr =>
    rcases hinv.buddyAlloc order with ⟨hnull, -⟩ | ⟨p, k, o, s', L', rfl, hcall', hal⟩
    · rw [hnull] at hcall
      cases hcall
      exact absurd rfl haddr
    · rw [hcall'] at hcall
      cases hcall
      refine .inr (.inl ⟨p, k, o, L', hal, ?_, ?_⟩)
      · rw [Pmem.managed_congr hal.same]
        exact hal.inv
      · rw [hlive, Pmem.extent_congr hal.same, List.map_cons, Int.toNat_natCast]
        rfl
  | @allocNull order s hcall =>
    rcases hinv.buddyAlloc order with ⟨hnull, -⟩ | ⟨p, k, o, s', L', rfl, hcall', hal⟩
    · rw [hnull] at hcall
      cases hcall
      exact .inl rfl
    · have hplaced := (hinv.core.free ⟨p, k⟩ hal.mem_list).1
      rw [hcall', Option.some_inj, Prod.mk.injEq] at hcall
      exact absurd hcall.1 (Pmem.pageAddr_ne_zero hplaced.page_lt hplaced.meta_le)
  | @free e order s he hcall =>
    rw [hlive] at he
    obtain ⟨b, hb, rfl⟩ := List.mem_map.mp he
    by_cases hvalid : 0 ≤ order ∧ order ≤ BUDDY_MAX_ORDER
    · obtain ⟨s', L', p, k, hcall', hfr⟩ := hinv.buddyFree hb b.page_mem hvalid.1 hvalid.2
      obtain rfl : s' = s := Option.some_inj.mp (hcall'.symm.trans hcall)
      refine .inr (.inr ⟨b, hb, L', p, k, hfr, ?_, ?_⟩)
      · rw [Pmem.managed_congr hfr.same]
        exact hfr.inv
      · simp only [if_pos hvalid, hlive, Pmem.extent_congr hfr.same]
        exact (List.map_erase (fun _ _ => Pmem.extent_inj) live).symm
    · have hnoop : h.pmem.buddyFree (h.pmem.extent b).addr order = some h.pmem := by
        rw [Pmem.buddyFree, if_pos (.inr (by omega))]
      obtain rfl : h.pmem = s := Option.some_inj.mp (hnoop.symm.trans hcall)
      exact .inl (by rw [if_neg hvalid])

/-- Every call keeps the invariant. -/
theorem Heap.Inv.step {h h' : Heap} {L : Nat → List Nat} {live : List Block} (hinv : h.Inv L live)
    (hstep : Heap.Step h h') : ∃ L' live', h'.Inv L' live' := by
  rcases hinv.step_cases hstep with rfl | ⟨_, _, _, L', -, hinv'⟩ | ⟨_, -, L', _, _, -, hinv'⟩
  · exact ⟨L, live, hinv⟩
  · exact ⟨L', _, hinv'⟩
  · exact ⟨L', _, hinv'⟩

/-- Every reachable state satisfies the invariant. -/
theorem Heap.Reachable.inv {start end_ : Nat} {mem : Nat → UInt8} {h : Heap}
    (hregion : ValidRegion start end_) (hreach : h.Reachable start end_ mem) :
    ∃ L live, h.Inv L live := by
  obtain ⟨s, hinit, hrun⟩ := hreach
  obtain ⟨s', L, hinit', -, -, -, hinv, -⟩ := buddyInit_inv hregion mem
  obtain rfl : s' = s := Option.some_inj.mp (hinit'.symm.trans hinit)
  refine hrun.invariant (I := fun h => ∃ L live, h.Inv L live) ⟨L, [], hinv, rfl⟩ ?_
  rintro t t' ⟨L, live, ht⟩ hstep
  exact ht.step hstep

/-- A region of sixteen pages at the start of the memory of the board. -/
theorem validRegion_sixteenPages : ValidRegion 0x80000000 0x80010000 where
  start_aligned := by decide
  end_aligned := by decide
  start_le := by decide
  room := by decide
  end_le := by decide

end SC7
