-- SUMMARY: The buffer cache (`bio.c`): the LRU list of buffers, `bget`, `brelse`, `bpin` and `bunpin`, and that a block has one buffer in every run.
import SC7.Base.Circular
import SC7.Base.Run

/-!
# The buffer cache

The buffers are on one circular list, most recently released first. `bget` looks for the block from the front
and, if it is not there, takes the last buffer that nobody refers to. All buffers begin as block 0 of device 0.
A block has one buffer because of where the buffers stand: a buffer that is referenced or valid is the first
one of its block on the list, and the others of its block, if any, are idle.
-/

namespace SC7.Bio

open Function (update update_apply update_of_ne update_self)
open SC7

def NBUF : Nat := 3000

abbrev BufId := Fin NBUF

/-- A node of the list: a buffer, or `bcache.head`. -/
abbrev Node := Option BufId

/-- `struct buf`, without its sleep lock and its data. Every reference that `refcnt` counts is a call in
progress or a pin. -/
structure Buf where
  valid : Bool
  dev : Nat
  blockno : Nat
  refcnt : Nat

/-- `bcache`. -/
structure Bcache where
  buf : BufId → Buf
  links : Links Node

/-- The insertion after `bcache.head`, as `binit` and `brelse` do it. -/
def pushFront (L : Links Node) (b : BufId) : Links Node :=
  let L := L.setNext (some b) (L.next none)
  let L := L.setPrev (some b) none
  let L := L.setPrev (L.next none) (some b)
  L.setNext none (some b)

/-- The two assignments of `brelse` that take a buffer out of the list. -/
def takeOut (L : Links Node) (b : BufId) : Links Node :=
  let L := L.setPrev (L.next (some b)) (L.prev (some b))
  L.setNext (L.prev (some b)) (L.next (some b))

/-- `binit`; the buffers are zero and the head is linked to itself. -/
def binit : Bcache where
  buf _ := ⟨false, 0, 0, 0⟩
  links := (List.finRange NBUF).foldl pushFront ⟨fun _ => none, fun _ => none⟩

namespace Bcache

variable (c : Bcache)

def setBuf (b : BufId) (x : Buf) : Bcache := { c with buf := update c.buf b x }

/-- A node is a buffer with this property. -/
def onBuf (p : Buf → Bool) : Node → Bool
  | some b => p (c.buf b)
  | none => false

/-- The part of `bget` under the lock of the cache; `none` if it panics. -/
def bget (dev blockno : Nat) : Option (BufId × Bcache) := do
  let found ← Links.seek c.links.next none (c.onBuf fun x => x.dev = dev ∧ x.blockno = blockno) (NBUF + 1)
    (c.links.next none)
  match found with
  | some (some b) => some (b, c.setBuf b { c.buf b with refcnt := (c.buf b).refcnt + 1 })
  | _ =>
    let unused ← Links.seek c.links.prev none (c.onBuf fun x => x.refcnt = 0) (NBUF + 1) (c.links.prev none)
    match unused with
    | some (some b) => some (b, c.setBuf b ⟨false, dev, blockno, 1⟩)
    | _ => none

/-- The part of `brelse` under the lock of the cache. -/
def brelse (b : BufId) : Bcache :=
  let c := c.setBuf b { c.buf b with refcnt := (c.buf b).refcnt - 1 }
  if (c.buf b).refcnt = 0 then { c with links := pushFront (takeOut c.links b) b } else c

/-- `bpin`. -/
def bpin (b : BufId) : Bcache := c.setBuf b { c.buf b with refcnt := (c.buf b).refcnt + 1 }

/-- `bunpin`. -/
def bunpin (b : BufId) : Bcache := c.setBuf b { c.buf b with refcnt := (c.buf b).refcnt - 1 }

/-- The end of `bread`: the buffer has its data. -/
def fill (b : BufId) : Bcache := c.setBuf b { c.buf b with valid := true }

end Bcache

/-! ## Runs -/

/-- Who refers to a buffer: a process in `bget` that waits for the sleep lock, one that holds it, one in
`brelse` that has given it up, and a pin. -/
inductive Ref where
  | waiting (pid : Nat) (b : BufId)
  | holding (pid : Nat) (b : BufId)
  | releasing (pid : Nat) (b : BufId)
  | pin (b : BufId)
  deriving DecidableEq

def Ref.buf : Ref → BufId
  | waiting _ b | holding _ b | releasing _ b | pin b => b

/-- The cache, the sleep locks of the buffers and the references. -/
structure Sys where
  cache : Bcache
  lock : BufId → Option Nat
  refs : List Ref

def start : Sys := ⟨binit, fun _ => none, []⟩

namespace Sys

/-- The sections of the calls, in any order. The caller of `bread`, `bwrite` and `brelse` holds the buffer; a
buffer that is pinned is held or pinned; a pin is taken off once. -/
inductive Step (s : Sys) : Sys → Prop where
  | bget (pid dev blockno : Nat) (b : BufId) (cache : Bcache) (hget : s.cache.bget dev blockno = some (b, cache)) :
      Step s { s with cache, refs := .waiting pid b :: s.refs }
  | acquiresleep (pid : Nat) (b : BufId) (hwait : Ref.waiting pid b ∈ s.refs) (hfree : s.lock b = none) :
      Step s { s with
        lock := update s.lock b (some pid)
        refs := .holding pid b :: s.refs.erase (.waiting pid b) }
  | bread (pid : Nat) (b : BufId) (hhold : Ref.holding pid b ∈ s.refs) :
      Step s { s with cache := if (s.cache.buf b).valid then s.cache else s.cache.fill b }
  | bwrite (pid : Nat) (b : BufId) (hhold : Ref.holding pid b ∈ s.refs) (hlock : s.lock b = some pid) : Step s s
  | releasesleep (pid : Nat) (b : BufId) (hhold : Ref.holding pid b ∈ s.refs) (hlock : s.lock b = some pid) :
      Step s { s with
        lock := update s.lock b none
        refs := .releasing pid b :: s.refs.erase (.holding pid b) }
  | brelse (pid : Nat) (b : BufId) (hrel : Ref.releasing pid b ∈ s.refs) :
      Step s { s with cache := s.cache.brelse b, refs := s.refs.erase (.releasing pid b) }
  | bpin (b : BufId) (href : (∃ pid, Ref.holding pid b ∈ s.refs) ∨ Ref.pin b ∈ s.refs) :
      Step s { s with cache := s.cache.bpin b, refs := .pin b :: s.refs }
  | bunpin (b : BufId) (hpin : Ref.pin b ∈ s.refs) :
      Step s { s with cache := s.cache.bunpin b, refs := s.refs.erase (.pin b) }

end Sys

/-! ## The list -/

section

variable {L : Links Node} {b : BufId} {l l₁ l₂ : List BufId}

theorem pushFront_circular (h : L.Circular none (l.map some)) (hb : b ∉ l) :
    (pushFront L b).Circular none ((b :: l).map some) := by
  have heq : pushFront L b = L.insertAfter none (some b) := rfl
  rw [heq]
  exact h.pushFront (by simpa using hb)

theorem takeOut_eq : takeOut L b = L.unlink (some b) := by
  have hprev : update L.prev (L.next (some b)) (L.prev (some b)) (some b) = L.prev (some b) := by
    rw [update_apply]
    split
    · rfl
    · rfl
  have hnext : update L.next (L.prev (some b)) (L.next (some b)) (some b) = L.next (some b) := by
    rw [update_apply]
    split
    · rfl
    · rfl
  simp only [takeOut, Links.unlink, Links.setPrev, Links.setNext, hprev, hnext]

theorem takeOut_circular (h : L.Circular none ((l₁ ++ b :: l₂).map some)) :
    (takeOut L b).Circular none ((l₁ ++ l₂).map some) := by
  rw [takeOut_eq, List.map_append]
  rw [List.map_append, List.map_cons] at h
  exact h.unlink

/-- The loop of `binit`. -/
theorem foldl_pushFront_circular (bs : List BufId) (h : L.Circular none (l.map some)) (hnodup : (bs ++ l).Nodup) :
    (bs.foldl pushFront L).Circular none ((bs.reverse ++ l).map some) := by
  induction bs generalizing l L with
  | nil => exact h
  | cons b bs ih =>
    obtain ⟨hnot, _⟩ := List.nodup_cons.mp hnodup
    have hb : b ∉ l := fun hin => hnot (List.mem_append_right _ hin)
    have hperm : (bs ++ b :: l).Perm (b :: (bs ++ l)) := List.perm_middle
    rw [List.foldl_cons, List.reverse_cons, List.append_assoc, List.singleton_append]
    exact ih (pushFront_circular h hb) (hperm.nodup_iff.mpr hnodup)

/-- `binit` links the buffers, the last one first. -/
theorem binit_circular : binit.links.Circular none ((List.finRange NBUF).reverse.map some) := by
  have hall : ∀ bs : List BufId, bs.Nodup → (bs.foldl pushFront ⟨fun _ => none, fun _ => none⟩).Circular none
      (bs.reverse.map some) := by
    intro bs hnodup
    have hstart : Links.Circular (⟨fun _ => none, fun _ => none⟩ : Links Node) none (([] : List BufId).map some) :=
      Links.Circular.nil rfl rfl
    have hring := foldl_pushFront_circular bs hstart (by simpa using hnodup)
    rwa [List.append_nil] at hring
  have hring := hall (List.finRange NBUF) (List.nodup_finRange NBUF)
  dsimp only [binit]
  exact hring

end

/-! ## The first buffer of a block -/

namespace Bcache

variable {c c' : Bcache} {b : BufId} {l l₁ l₂ : List BufId} {dev blockno : Nat}

/-- The buffer carries this block. -/
def Carries (c : Bcache) (dev blockno : Nat) (b : BufId) : Prop :=
  (c.buf b).dev = dev ∧ (c.buf b).blockno = blockno

instance (c : Bcache) (dev blockno : Nat) (b : BufId) : Decidable (c.Carries dev blockno b) :=
  inferInstanceAs (Decidable (_ ∧ _))

/-- The two buffers carry one block. -/
def Same (c : Bcache) (b b' : BufId) : Prop := c.Carries (c.buf b').dev (c.buf b').blockno b

/-- The buffer is referenced or valid. -/
def Active (c : Bcache) (b : BufId) : Prop := (c.buf b).refcnt ≠ 0 ∨ (c.buf b).valid = true

/-- An active buffer is the first one of its block on the list. -/
def First (c : Bcache) (l : List BufId) : Prop := l.Pairwise fun b b' => c.Same b b' → ¬ c.Active b'

namespace First

theorem before (h : c.First (l₁ ++ b :: l₂)) (hb : c.Active b) : ∀ x ∈ l₁, ¬ c.Same x b := fun x hx hsame =>
  (List.pairwise_append.mp h).2.2 x hx b List.mem_cons_self hsame hb

/-- The first buffer of a block may become active. -/
theorem touch (h : c.First (l₁ ++ b :: l₂)) (hfirst : ∀ x ∈ l₁, ¬ c.Same x b)
    (hnodup : (l₁ ++ b :: l₂).Nodup) {x : Buf} (hdev : x.dev = (c.buf b).dev)
    (hblockno : x.blockno = (c.buf b).blockno) : (c.setBuf b x).First (l₁ ++ b :: l₂) := by
  have hid : ∀ y, ((c.setBuf b x).buf y).dev = (c.buf y).dev ∧ ((c.setBuf b x).buf y).blockno = (c.buf y).blockno := by
    intro y
    by_cases hy : y = b
    · subst hy
      simp [setBuf, hdev, hblockno]
    · simp [setBuf, hy]
  have hsame : ∀ y z, (c.setBuf b x).Same y z ↔ c.Same y z := by
    intro y z
    simp only [Same, Carries, hid]
  have hactive : ∀ y, y ≠ b → ((c.setBuf b x).Active y ↔ c.Active y) := by
    intro y hy
    simp [Active, setBuf, hy]
  have hnot : b ∉ l₂ := (List.nodup_cons.mp (List.nodup_append.mp hnodup).2.1).1
  have hnot' : b ∉ l₁ := fun hin => (List.nodup_append.mp hnodup).2.2 b hin b List.mem_cons_self rfl
  obtain ⟨h₁, h₂, hcross⟩ := List.pairwise_append.mp h
  obtain ⟨hb, h₂'⟩ := List.pairwise_cons.mp h₂
  refine List.pairwise_append.mpr ⟨?_, List.pairwise_cons.mpr ⟨?_, ?_⟩, ?_⟩
  · refine h₁.imp_of_mem fun {y z} _ hz hyz hs => ?_
    rw [hactive z fun heq => hnot' (heq ▸ hz)]
    exact hyz ((hsame y z).mp hs)
  · intro z hz hs
    rw [hactive z fun heq => hnot (heq ▸ hz)]
    exact hb z hz ((hsame b z).mp hs)
  · refine h₂'.imp_of_mem fun {y z} _ hz hyz hs => ?_
    rw [hactive z fun heq => hnot (heq ▸ hz)]
    exact hyz ((hsame y z).mp hs)
  · intro y hy z hz hs
    rw [hsame] at hs
    rcases List.mem_cons.mp hz with rfl | hz'
    · exact absurd hs (hfirst y hy)
    · rw [hactive z fun heq => hnot (heq ▸ hz')]
      exact hcross y hy z hz hs

/-- A buffer may get a block that no buffer carries. -/
theorem recycle (h : c.First l) (hnone : ∀ y ∈ l, ¬ c.Carries dev blockno y) {x : Buf} (hdev : x.dev = dev)
    (hblockno : x.blockno = blockno) (hnodup : l.Nodup) : (c.setBuf b x).First l := by
  refine (h.and hnodup).imp_of_mem fun {y z} hy hz hyz hs => ?_
  by_cases hyb : y = b
  · subst hyb
    have hzb : z ≠ y := hyz.2.symm
    simp only [Same, Carries, setBuf, update_self, update_of_ne hzb] at hs
    exact absurd ⟨hs.1.symm.trans hdev, hs.2.symm.trans hblockno⟩ (hnone z hz)
  · by_cases hzb : z = b
    · subst hzb
      simp only [Same, Carries, setBuf, update_self, update_of_ne hyb] at hs
      exact absurd ⟨hs.1.trans hdev, hs.2.trans hblockno⟩ (hnone y hy)
    · have hz' : (c.setBuf b x).buf z = c.buf z := update_of_ne hzb _ _
      have hy' : (c.setBuf b x).buf y = c.buf y := update_of_ne hyb _ _
      simp only [Same, Carries, Active, hz', hy'] at hs ⊢
      exact hyz.1 hs

/-- The first buffer of its block may go to the front. -/
theorem toFront (h : c.First (l₁ ++ b :: l₂)) (hfirst : ∀ x ∈ l₁, ¬ c.Same x b) : c.First (b :: (l₁ ++ l₂)) := by
  obtain ⟨h₁, h₂, hcross⟩ := List.pairwise_append.mp h
  obtain ⟨hb, h₂'⟩ := List.pairwise_cons.mp h₂
  refine List.pairwise_cons.mpr ⟨fun y hy hs => ?_, List.pairwise_append.mpr
    ⟨h₁, h₂', fun y hy z hz => hcross y hy z (List.mem_cons_of_mem _ hz)⟩⟩
  rcases List.mem_append.mp hy with hy | hy
  · exact absurd ⟨hs.1.symm, hs.2.symm⟩ (hfirst y hy)
  · exact hb y hy hs

/-- At most one active buffer carries a block. -/
theorem unique (h : c.First l) {b' : BufId} (hb : b ∈ l) (hb' : b' ∈ l) (hactive : c.Active b) (hactive' : c.Active b')
    (hsame : c.Same b b') : b = b' := by
  by_contra hne
  have hsame' : c.Same b' b := ⟨hsame.1.symm, hsame.2.symm⟩
  obtain ⟨l₁, l₂, rfl⟩ := List.append_of_mem hb
  rcases List.mem_append.mp hb' with hin | hin
  · exact h.before hactive b' hin hsame'
  · rcases List.mem_cons.mp hin with rfl | hin
    · exact hne rfl
    · exact (List.pairwise_cons.mp (List.pairwise_append.mp h).2.1).1 b' hin hsame hactive'

end First

/-- The list of the buffers, in the order of the links. -/
structure Ring (c : Bcache) (l : List BufId) : Prop where
  circular : c.links.Circular none (l.map some)
  perm : l.Perm (List.finRange NBUF)

namespace Ring

theorem nodup (h : c.Ring l) : l.Nodup := h.perm.nodup_iff.mpr (List.nodup_finRange NBUF)

theorem mem (h : c.Ring l) (b : BufId) : b ∈ l := h.perm.mem_iff.mpr (List.mem_finRange b)

theorem length (h : c.Ring l) : (l.map some).length < NBUF + 1 := by
  rw [List.length_map, h.perm.length_eq, List.length_finRange]
  exact Nat.lt_succ_self _

/-- What `bget` finds. -/
theorem bget_eq (h : c.Ring l) (dev blockno : Nat) :
    c.bget dev blockno =
      match l.find? fun b => (c.buf b).dev = dev ∧ (c.buf b).blockno = blockno with
      | some b => some (b, c.setBuf b { c.buf b with refcnt := (c.buf b).refcnt + 1 })
      | none => (l.reverse.find? fun b => (c.buf b).refcnt = 0).map fun b => (b, c.setBuf b ⟨false, dev, blockno, 1⟩) := by
  rw [bget, h.circular.seek_next _ h.length, h.circular.seek_prev _ h.length, ← List.map_reverse, List.find?_map,
    List.find?_map]
  have hcarries : (c.onBuf fun x => decide (x.dev = dev ∧ x.blockno = blockno)) ∘ some =
      fun b => decide ((c.buf b).dev = dev ∧ (c.buf b).blockno = blockno) := rfl
  have hunused : (c.onBuf fun x => decide (x.refcnt = 0)) ∘ some = fun b => decide ((c.buf b).refcnt = 0) := rfl
  rw [hcarries, hunused]
  cases l.find? fun b => decide ((c.buf b).dev = dev ∧ (c.buf b).blockno = blockno) with
  | some b => rfl
  | none =>
    cases l.reverse.find? fun b => decide ((c.buf b).refcnt = 0) with
    | some b => rfl
    | none => rfl

/-- The ways in which `bget` returns: the first buffer of the block, or an unused buffer if there is none. -/
theorem bget_cases (h : c.Ring l) (hget : c.bget dev blockno = some (b, c')) :
    (∃ l₁ l₂, l = l₁ ++ b :: l₂ ∧ c.Carries dev blockno b ∧ (∀ x ∈ l₁, ¬ c.Carries dev blockno x) ∧
      c' = c.setBuf b { c.buf b with refcnt := (c.buf b).refcnt + 1 }) ∨
      (∀ x ∈ l, ¬ c.Carries dev blockno x) ∧ (c.buf b).refcnt = 0 ∧ c' = c.setBuf b ⟨false, dev, blockno, 1⟩ := by
  rw [h.bget_eq] at hget
  cases hfind : l.find? fun b => decide ((c.buf b).dev = dev ∧ (c.buf b).blockno = blockno) with
  | some x =>
    rw [hfind] at hget
    cases hget
    obtain ⟨hx, l₁, l₂, hl, hbefore⟩ := List.find?_eq_some_iff_append.mp hfind
    refine .inl ⟨l₁, l₂, hl, decide_eq_true_iff.mp hx, fun y hy hcarries => ?_, rfl⟩
    have hno := hbefore y hy
    rw [Bool.not_eq_true', decide_eq_false_iff_not] at hno
    exact hno hcarries
  | none =>
    rw [hfind] at hget
    obtain ⟨x, hx, heq⟩ := Option.map_eq_some_iff.mp hget
    cases heq
    refine .inr ⟨fun y hy hcarries => ?_, ?_, rfl⟩
    · exact List.find?_eq_none.mp hfind y hy (decide_eq_true hcarries)
    · have hzero := List.find?_some hx
      exact decide_eq_true_iff.mp hzero

/-- `bget` returns the first buffer of the block if there is one. -/
theorem bget_first (h : c.Ring l) (hl : l = l₁ ++ b :: l₂) (hb : c.Carries dev blockno b)
    (hbefore : ∀ x ∈ l₁, ¬ c.Carries dev blockno x) :
    c.bget dev blockno = some (b, c.setBuf b { c.buf b with refcnt := (c.buf b).refcnt + 1 }) := by
  have hfind : (l.find? fun b => decide ((c.buf b).dev = dev ∧ (c.buf b).blockno = blockno)) = some b :=
    List.find?_eq_some_iff_append.mpr ⟨decide_eq_true hb, l₁, l₂, hl, fun x hx => by
      rw [Bool.not_eq_true', decide_eq_false_iff_not]
      exact hbefore x hx⟩
  rw [h.bget_eq, hfind]

end Ring

/-- The list and the first buffers, kept by every operation. -/
structure Wf (c : Bcache) : Prop where
  ring : ∃ l, c.Ring l ∧ c.First l

namespace Wf

theorem binit : Bio.binit.Wf := by
  refine ⟨(List.finRange NBUF).reverse, ⟨binit_circular, List.reverse_perm _⟩, ?_⟩
  refine List.pairwise_of_forall_mem_list fun b _ b' _ _ hactive => ?_
  rcases hactive with hactive | hactive
  · exact hactive rfl
  · cases hactive

/-- Changing a buffer of its block that is the first one, but not its block. -/
theorem touch (h : c.Wf) (hfirst : ∀ l₁ l₂, c.Ring (l₁ ++ b :: l₂) → c.First (l₁ ++ b :: l₂) → ∀ x ∈ l₁, ¬ c.Same x b)
    {x : Buf} (hdev : x.dev = (c.buf b).dev) (hblockno : x.blockno = (c.buf b).blockno) : (c.setBuf b x).Wf := by
  obtain ⟨l, hring, hf⟩ := h.ring
  obtain ⟨l₁, l₂, rfl⟩ := List.append_of_mem (hring.mem b)
  exact ⟨_, ⟨hring.circular, hring.perm⟩, hf.touch (hfirst l₁ l₂ hring hf) hring.nodup hdev hblockno⟩

theorem touch_active (h : c.Wf) (hactive : c.Active b) {x : Buf} (hdev : x.dev = (c.buf b).dev)
    (hblockno : x.blockno = (c.buf b).blockno) : (c.setBuf b x).Wf :=
  h.touch (fun _ _ _ hf => hf.before hactive) hdev hblockno

theorem bget (h : c.Wf) (hget : c.bget dev blockno = some (b, c')) : c'.Wf := by
  obtain ⟨l, hring, hf⟩ := h.ring
  rcases hring.bget_cases hget with ⟨l₁, l₂, rfl, hb, hbefore, rfl⟩ | ⟨hnone, _, rfl⟩
  · refine ⟨_, ⟨hring.circular, hring.perm⟩, hf.touch (fun x hx hsame => hbefore x hx ?_) hring.nodup rfl rfl⟩
    exact ⟨hsame.1.trans hb.1, hsame.2.trans hb.2⟩
  · exact ⟨_, ⟨hring.circular, hring.perm⟩, hf.recycle hnone rfl rfl hring.nodup⟩

theorem brelse (h : c.Wf) (href : (c.buf b).refcnt ≠ 0) : (c.brelse b).Wf := by
  have hactive : c.Active b := .inl href
  have hset := h.touch_active hactive (x := { c.buf b with refcnt := (c.buf b).refcnt - 1 }) rfl rfl
  rw [Bcache.brelse]
  simp only
  split
  · obtain ⟨l, hring, hf⟩ := h.ring
    obtain ⟨l₁, l₂, rfl⟩ := List.append_of_mem (hring.mem b)
    have hbefore := hf.before hactive
    have hf' := hf.touch hbefore hring.nodup (x := { c.buf b with refcnt := (c.buf b).refcnt - 1 }) rfl rfl
    have hbefore' : ∀ x ∈ l₁, ¬ (c.setBuf b { c.buf b with refcnt := (c.buf b).refcnt - 1 }).Same x b := by
      intro x hx hsame
      have hxb : x ≠ b := by
        rintro rfl
        exact (List.nodup_append.mp hring.nodup).2.2 x hx x List.mem_cons_self rfl
      simp only [Same, Carries, setBuf, update_self, update_of_ne hxb] at hsame
      exact hbefore x hx hsame
    have hperm : (b :: (l₁ ++ l₂)).Perm (l₁ ++ b :: l₂) := List.perm_middle.symm
    have hnot : b ∉ l₁ ++ l₂ := (List.nodup_cons.mp (hperm.nodup_iff.mpr hring.nodup)).1
    exact ⟨b :: (l₁ ++ l₂), ⟨pushFront_circular (takeOut_circular hring.circular) hnot, hperm.trans hring.perm⟩,
      hf'.toFront hbefore'⟩
  · exact hset

end Wf

end Bcache

/-! ## The invariant of runs -/

/-- The references to a buffer. -/
def count (refs : List Ref) (b : BufId) : Nat := refs.countP fun x => x.buf = b

section

variable {refs : List Ref} {x y : Ref} {b : BufId}

theorem count_cons_self (hx : x.buf = b) : count (x :: refs) b = count refs b + 1 := by
  simp [count, hx]

theorem count_cons_other (hx : x.buf ≠ b) : count (x :: refs) b = count refs b := by
  simp [count, hx]

theorem count_perm {refs' : List Ref} (h : refs.Perm refs') : count refs b = count refs' b := h.countP_eq _

theorem count_erase_self (hx : x ∈ refs) (hb : x.buf = b) : count refs b = count (refs.erase x) b + 1 := by
  rw [count_perm (List.perm_cons_erase hx), count_cons_self hb]

theorem count_erase_other (hx : x ∈ refs) (hb : x.buf ≠ b) : count refs b = count (refs.erase x) b := by
  rw [count_perm (List.perm_cons_erase hx), count_cons_other hb]

/-- A reference may become another one to the same buffer. -/
theorem count_replace (hx : x ∈ refs) (heq : y.buf = x.buf) : count refs b = count (y :: refs.erase x) b := by
  by_cases hb : x.buf = b
  · rw [count_cons_self (heq.trans hb), count_erase_self hx hb]
  · rw [count_cons_other (heq ▸ hb), count_erase_other hx hb]

end

namespace Sys

variable {s s' : Sys} {b : BufId}

/-- The cache is well formed and every buffer counts its references. -/
structure Inv (s : Sys) : Prop where
  wf : s.cache.Wf
  refcnt : ∀ b, (s.cache.buf b).refcnt = count s.refs b

namespace Inv

theorem start : Bio.start.Inv := ⟨.binit, fun _ => rfl⟩

theorem refcnt_ne_zero (h : s.Inv) {x : Ref} (hx : x ∈ s.refs) (hb : x.buf = b) : (s.cache.buf b).refcnt ≠ 0 := by
  rw [h.refcnt, count_erase_self hx hb]
  omega

/-- The counts after the count of one buffer and the references to it have changed by the same. -/
theorem count_setBuf (h : s.Inv) {refs : List Ref} {x : Buf} (hb : x.refcnt = count refs b)
    (hother : ∀ b', b' ≠ b → count refs b' = count s.refs b') :
    ∀ b', ((s.cache.setBuf b x).buf b').refcnt = count refs b' := by
  intro b'
  by_cases hb' : b' = b
  · subst hb'
    simpa [Bcache.setBuf] using hb
  · simp only [Bcache.setBuf, update_of_ne hb']
    rw [hother b' hb']
    exact h.refcnt b'

theorem step (h : s.Inv) (hstep : s.Step s') : s'.Inv := by
  cases hstep with
  | bget pid dev blockno b cache hget =>
    refine ⟨h.wf.bget hget, ?_⟩
    have hother : ∀ b', b' ≠ b → count (.waiting pid b :: s.refs) b' = count s.refs b' :=
      fun b' hb' => count_cons_other hb'.symm
    have hthis : count (.waiting pid b :: s.refs) b = (s.cache.buf b).refcnt + 1 := by
      rw [h.refcnt]
      exact count_cons_self rfl
    obtain ⟨l, hring, _⟩ := h.wf.ring
    rcases hring.bget_cases hget with ⟨_, _, _, _, _, rfl⟩ | ⟨_, hzero, rfl⟩
    · exact h.count_setBuf hthis.symm hother
    · rw [hzero] at hthis
      exact h.count_setBuf hthis.symm hother
  | acquiresleep pid b hwait hfree =>
    exact ⟨h.wf, fun b' => (h.refcnt b').trans (count_replace hwait rfl)⟩
  | bread pid b hhold =>
    have hactive : s.cache.Active b := .inl (h.refcnt_ne_zero hhold rfl)
    cases hvalid : (s.cache.buf b).valid with
    | true => exact ⟨by simpa [hvalid] using h.wf, by simpa [hvalid] using h.refcnt⟩
    | false =>
      refine ⟨?_, ?_⟩
      · simp only [Bool.false_eq_true, if_false]
        exact h.wf.touch_active hactive rfl rfl
      · simp only [Bool.false_eq_true, if_false]
        exact h.count_setBuf (h.refcnt b) fun _ _ => rfl
  | bwrite pid b hhold hlock => exact h
  | releasesleep pid b hhold hlock =>
    exact ⟨h.wf, fun b' => (h.refcnt b').trans (count_replace hhold rfl)⟩
  | brelse pid b hrel =>
    refine ⟨h.wf.brelse (h.refcnt_ne_zero hrel rfl), ?_⟩
    have hset : ∀ b', ((s.cache.setBuf b { s.cache.buf b with refcnt := (s.cache.buf b).refcnt - 1 }).buf b').refcnt =
        count (s.refs.erase (.releasing pid b)) b' := by
      refine h.count_setBuf ?_ fun b' hb' => (count_erase_other hrel hb'.symm).symm
      have hcount : count s.refs b = count (s.refs.erase (.releasing pid b)) b + 1 := count_erase_self hrel rfl
      simp only [h.refcnt]
      omega
    intro b'
    rw [Bcache.brelse]
    simp only
    split
    · exact hset b'
    · exact hset b'
  | bpin b href =>
    have hne : (s.cache.buf b).refcnt ≠ 0 := by
      rcases href with ⟨pid, hhold⟩ | hpin
      · exact h.refcnt_ne_zero hhold rfl
      · exact h.refcnt_ne_zero hpin rfl
    refine ⟨h.wf.touch_active (.inl hne) rfl rfl, h.count_setBuf ?_ fun b' hb' => count_cons_other hb'.symm⟩
    have hcount : count (.pin b :: s.refs) b = count s.refs b + 1 := count_cons_self rfl
    simp only [h.refcnt]
    exact hcount.symm
  | bunpin b hpin =>
    refine ⟨h.wf.touch_active (.inl (h.refcnt_ne_zero hpin rfl)) rfl rfl,
      h.count_setBuf ?_ fun b' hb' => (count_erase_other hpin hb'.symm).symm⟩
    have hcount : count s.refs b = count (s.refs.erase (.pin b)) b + 1 := count_erase_self hpin rfl
    simp only [h.refcnt]
    omega

/-- Only `bget` gives a buffer another block, and only one that nobody refers to. -/
theorem kept (h : s.Inv) (hstep : s.Step s') (hb : (s.cache.buf b).refcnt ≠ 0) :
    (s'.cache.buf b).dev = (s.cache.buf b).dev ∧ (s'.cache.buf b).blockno = (s.cache.buf b).blockno := by
  have hset : ∀ (b' : BufId) (x : Buf), x.dev = (s.cache.buf b').dev → x.blockno = (s.cache.buf b').blockno →
      ((s.cache.setBuf b' x).buf b).dev = (s.cache.buf b).dev ∧
        ((s.cache.setBuf b' x).buf b).blockno = (s.cache.buf b).blockno := by
    intro b' x hdev hblockno
    by_cases heq : b = b'
    · subst heq
      simp [Bcache.setBuf, hdev, hblockno]
    · simp [Bcache.setBuf, heq]
  cases hstep with
  | bget pid dev blockno b' cache hget =>
    obtain ⟨l, hring, _⟩ := h.wf.ring
    rcases hring.bget_cases hget with ⟨_, _, _, _, _, rfl⟩ | ⟨_, hzero, rfl⟩
    · exact hset b' _ rfl rfl
    · have hne : b ≠ b' := fun heq => hb (heq ▸ hzero)
      simp [Bcache.setBuf, hne]
  | acquiresleep pid b' hwait hfree => exact ⟨rfl, rfl⟩
  | bread pid b' hhold =>
    cases hvalid : (s.cache.buf b').valid with
    | true => simp
    | false =>
      simp only [Bool.false_eq_true, if_false]
      exact hset b' _ rfl rfl
  | bwrite pid b' hhold hlock => exact ⟨rfl, rfl⟩
  | releasesleep pid b' hhold hlock => exact ⟨rfl, rfl⟩
  | brelse pid b' hrel =>
    rw [Bcache.brelse]
    simp only
    split
    · exact hset b' _ rfl rfl
    · exact hset b' _ rfl rfl
  | bpin b' href => exact hset b' _ rfl rfl
  | bunpin b' hpin => exact hset b' _ rfl rfl

end Inv

/-- What is asked of the cache in a state. -/
structure Sound (s : Sys) : Prop where
  /-- The list is a ring of all buffers. -/
  ring : ∃ l : List BufId, s.cache.links.Circular none (l.map some) ∧ l.Perm (List.finRange NBUF)
  /-- At most one buffer that is referenced or valid carries a block. -/
  unique : ∀ b b', s.cache.Active b → s.cache.Active b' → s.cache.Same b b' → b = b'
  /-- `bget` returns it. -/
  found : ∀ dev blockno b, s.cache.Active b → s.cache.Carries dev blockno b →
    ∃ cache, s.cache.bget dev blockno = some (b, cache)
  /-- The counts are those of the holders, the waiters and the pins. -/
  refcnt : ∀ b, (s.cache.buf b).refcnt = count s.refs b
  /-- A buffer that is referenced keeps its block. -/
  kept : ∀ s', s.Step s' → ∀ b, (s.cache.buf b).refcnt ≠ 0 →
    (s'.cache.buf b).dev = (s.cache.buf b).dev ∧ (s'.cache.buf b).blockno = (s.cache.buf b).blockno

theorem Inv.sound (h : s.Inv) : s.Sound := by
  obtain ⟨l, hring, hfirst⟩ := h.wf.ring
  refine ⟨⟨l, hring.circular, hring.perm⟩, fun b b' hb hb' => hfirst.unique (hring.mem b) (hring.mem b') hb hb',
    fun dev blockno b hb hcarries => ?_, h.refcnt, fun s' hstep b hb => h.kept hstep hb⟩
  obtain ⟨l₁, l₂, hl⟩ := List.append_of_mem (hring.mem b)
  refine ⟨_, hring.bget_first hl hcarries fun x hx hx' => ?_⟩
  rw [hl] at hfirst
  exact hfirst.before hb x hx ⟨hx'.1.trans hcarries.1.symm, hx'.2.trans hcarries.2.symm⟩

end Sys

/-- In every run from `binit` the list is a ring of all buffers, a block has one buffer, which `bget` returns,
and the counts are right. -/
theorem bcache_unique {s : Sys} (hrun : Reaches Sys.Step start s) : s.Sound := by
  have hinv : s.Inv := hrun.invariant Sys.Inv.start fun _ _ h hstep => h.step hstep
  exact hinv.sound

/-- Two processes ask for block 0 of device 0, which all buffers carry at first: they get the same buffer. -/
theorem bcache_unique_zero : ∃ s b cache, Reaches Sys.Step start s ∧ s.refs = [.waiting 1 b] ∧ s.Sound ∧
    s.cache.bget 0 0 = some (b, cache) := by
  obtain ⟨l, hring, _⟩ : ∃ l, start.cache.Ring l ∧ start.cache.First l := Sys.Inv.start.wf.ring
  have hcarries : ∀ b, start.cache.Carries 0 0 b := fun _ => ⟨rfl, rfl⟩
  have hne : l ≠ [] := by
    intro hnil
    have hlen := hring.perm.length_eq
    rw [hnil, List.length_finRange] at hlen
    cases hlen
  obtain ⟨b, l₂, hl⟩ := List.exists_cons_of_ne_nil hne
  have hl' : l = [] ++ b :: l₂ := hl
  have hget := hring.bget_first hl' (hcarries b) (by simp)
  have hrun : Reaches Sys.Step start _ := .single (.bget 1 0 0 b _ hget)
  have hsound := bcache_unique hrun
  obtain ⟨cache, hagain⟩ := hsound.found 0 0 b (.inl (by simp [Bcache.setBuf])) (by
    simpa [Bcache.Carries, Bcache.setBuf] using hcarries b)
  exact ⟨_, b, cache, hrun, rfl, hsound, hagain⟩

end SC7.Bio
