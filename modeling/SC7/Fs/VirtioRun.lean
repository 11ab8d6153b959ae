-- SUMMARY: The disk driver in every run: it panics of nothing but a status of the device, it serves every call once, and no wakeup is lost.
import SC7.Fs.Virtio
import Mathlib.Data.List.Perm.Subperm

/-!
# Runs of the disk driver

The descriptors that are not free are those of the calls, and the chains of the calls that are not told to be done
are in the available ring, with the device, or in the used ring, each once. From this the driver implements a disk
whose reads and writes are atomic.
-/

namespace SC7.Virtio

open Sys
open Function (update update_apply update_self update_of_ne update_eq_self)

attribute [local grind =] update_apply Place.descs Place.buf

variable {T B α : Type} [DecidableEq T] [DecidableEq B] {s s' : Sys T B α} {t : T} {b : B} {w : Bool} {i j k : Nat}
  {q u : List Nat} {asleep : T → Option (Chan B)}

/-! ## The descriptors -/

namespace Sys

/-- These descriptors are taken. -/
def without (s : Sys T B α) (l : List Nat) : Sys T B α :=
  { s with free := fun x => if x ∈ l then false else s.free x }

/-- Descriptors that a call may take. -/
def Fresh (s : Sys T B α) (l : List Nat) : Prop := l.Nodup ∧ ∀ x ∈ l, x < NUM ∧ s.free x = true

/-- These descriptors are freed. -/
def freed (s : Sys T B α) (l : List Nat) : Sys T B α :=
  { s with
    desc := fun x => if x ∈ l then ⟨.null, 0, 0, 0⟩ else s.desc x
    free := fun x => if x ∈ l then true else s.free x
    asleep := fun t => if l ≠ [] ∧ s.asleep t = some .free then none else s.asleep t }

/-- A call that has put back these descriptors waits for free ones. -/
def refuse (s : Sys T B α) (t : T) (b : B) (w : Bool) (l : List Nat) : Sys T B α :=
  { s.freed l with
    free := s.free
    asleep := update (s.freed l).asleep t (some .free)
    place := update s.place t (.refused b w) }

theorem freeDesc_eq (h : i < NUM ∧ s.free i = false) : s.freeDesc i = some (s.freed [i]) := by
  rw [freeDesc, if_neg (Nat.not_le.mpr h.1), if_neg (by rw [h.2]; decide)]
  simp only [wakeup, freed]
  congr <;> funext x <;> grind

theorem freed_freed (s : Sys T B α) (l l' : List Nat) : (s.freed l).freed l' = s.freed (l ++ l') := by
  have hnil : l ++ l' ≠ [] ↔ l ≠ [] ∨ l' ≠ [] := by cases l <;> simp
  simp only [freed, hnil]
  congr <;> funext x <;> grind

theorem foldlM_freeDesc (l : List Nat) (hnodup : l.Nodup) (hin : ∀ x ∈ l, x < NUM ∧ s.free x = false) :
    l.foldlM freeDesc s = some (s.freed l) := by
  induction l generalizing s with
  | nil => simp [freed]
  | cons i l ih =>
    rw [List.foldlM_cons, freeDesc_eq (hin i List.mem_cons_self)]
    exact (ih (by grind) (by grind [freed])).trans (by rw [freed_freed]; rfl)

theorem freeChain_succ {n : Nat} {d : Desc B} (h : i < NUM ∧ s.free i = false) (hd : s.desc i = d) :
    freeChain (n + 1) i s = if d.flags &&& VRING_DESC_F_NEXT ≠ 0 then freeChain n d.next (s.freed [i]) else some (s.freed [i]) := by
  rw [freeChain, freeDesc_eq h, hd]
  rfl

/-- A chain of three is freed from its first descriptor on, with nothing left over. -/
theorem freeChain_three {d d' : Desc B} (hi : s.desc i = d) (hj : s.desc d.next = d') (hd : d.flags &&& VRING_DESC_F_NEXT ≠ 0)
    (hd' : d'.flags &&& VRING_DESC_F_NEXT ≠ 0) (hk : (s.desc d'.next).flags = VRING_DESC_F_WRITE)
    (hnodup : [i, d.next, d'.next].Nodup) (hin : ∀ x ∈ [i, d.next, d'.next], x < NUM ∧ s.free x = false) :
    freeChain NUM i s = some (s.freed [i, d.next, d'.next]) := by
  have hj' : (s.freed [i]).desc d.next = d' := (if_neg (by grind)).trans hj
  have hk' : ((s.freed ([i] ++ [d.next])).desc d'.next).flags = VRING_DESC_F_WRITE := by grind [freed]
  rw [show NUM = 29 + 1 + 1 + 1 from rfl, freeChain_succ (hin i (by simp)) hi, if_pos hd,
    freeChain_succ (by grind [freed]) hj', if_pos hd', freed_freed, freeChain_succ (by grind [freed]) rfl, hk', if_neg (by decide),
    freed_freed]
  rfl

theorem allocDesc_cases (s : Sys T B α) (l : List Nat) : (s.without l).allocDesc = none ∧ (∀ i < NUM, s.free i = true → i ∈ l) ∨
    ∃ i < NUM, s.free i = true ∧ i ∉ l ∧ (s.without l).allocDesc = some (i, s.without (l ++ [i])) := by
  unfold allocDesc
  cases h : (List.range NUM).find? (s.without l).free with
  | none =>
    have := List.find?_eq_none.mp h
    exact .inl ⟨rfl, fun i hi => by grind [without, this i (List.mem_range.mpr hi)]⟩
  | some i =>
    have hi : s.free i = true ∧ i ∉ l := by grind [without]
    refine .inr ⟨i, List.mem_range.mp (List.mem_of_find?_eq_some h), hi.1, hi.2, ?_⟩
    have hfree : update (s.without l).free i false = (s.without (l ++ [i])).free := by
      funext x
      grind [without]
    rw [Option.map_some, hfree]
    rfl

/-- The loop over `idx` finds the descriptors that it still needs, or puts back what it has: then there were fewer. -/
theorem alloc3Desc_cases (n : Nat) (idx : List Nat) (h : s.Fresh idx) :
    ∃ l, s.Fresh l ∧ (l.length = idx.length + n ∧ alloc3Desc n idx (s.without idx) = some (some l, s.without l) ∨
      l.length < idx.length + n ∧ (∀ x < NUM, s.free x = true → x ∈ l) ∧
        alloc3Desc n idx (s.without idx) = some (none, (s.without l).freed l)) := by
  induction n generalizing idx with
  | zero => exact ⟨idx, h, .inl ⟨rfl, rfl⟩⟩
  | succ n ih =>
    rcases s.allocDesc_cases idx with ⟨hstep, hnone⟩ | ⟨i, hlt, hfree, hi, hstep⟩
    · refine ⟨idx, h, .inr ⟨by omega, hnone, ?_⟩⟩
      rw [alloc3Desc, hstep]
      exact congrArg (Option.map _) (foldlM_freeDesc idx h.1 (by grind [Fresh, without]))
    · rw [alloc3Desc, hstep]
      obtain ⟨l, hfresh, hl⟩ := ih (idx ++ [i]) (by grind [Fresh])
      rw [List.length_append, List.length_singleton, Nat.add_assoc, Nat.add_comm 1] at hl
      exact ⟨l, hfresh, hl⟩

theorem request_cases (s : Sys T B α) (t : T) (b : B) (w : Bool) :
    (∃ i j k, s.Fresh [i, j, k] ∧ s.request t b w = some ((s.without [i, j, k]).submit t b w i j k)) ∨
    ∃ l, s.Fresh l ∧ l.length < 3 ∧ (∀ x < NUM, s.free x = true → x ∈ l) ∧ s.request t b w = some (s.refuse t b w l) := by
  unfold request
  obtain ⟨l, hfresh, ⟨hlen, heq⟩ | ⟨hlen, hall, heq⟩⟩ := s.alloc3Desc_cases 3 [] ⟨List.nodup_nil, by simp⟩
  · obtain ⟨i, j, k, rfl⟩ := List.length_eq_three.mp hlen
    exact .inl ⟨i, j, k, hfresh, by rw [show alloc3Desc 3 [] s = _ from heq]⟩
  · refine .inr ⟨l, hfresh, hlen, hall, ?_⟩
    have hback : (s.without l).freed l = { s.freed l with free := s.free } := by
      simp only [freed, without]
      congr
      funext x
      grind [Fresh]
    rw [show alloc3Desc 3 [] s = _ from heq, hback]
    rfl

end Sys

/-! ## The invariant -/

def Sys.tables (s : Sys T B α) := (s.desc, s.ops, s.infoB)

def Sys.rings (s : Sys T B α) := (s.avail, s.used, s.taken, s.status)

/-- What a request has left in the tables. -/
structure Formatted (s : Sys T B α) (b : B) (w : Bool) (i j k : Nat) : Prop where
  head : s.desc i = ⟨.ops i, 16, VRING_DESC_F_NEXT, j⟩
  data : s.desc j = ⟨.data b, BSIZE, (if w then 0 else VRING_DESC_F_WRITE) ||| VRING_DESC_F_NEXT, k⟩
  status : s.desc k = ⟨.status i, 1, VRING_DESC_F_WRITE, 0⟩
  ops : s.ops i = ⟨if w then VIRTIO_BLK_T_OUT else VIRTIO_BLK_T_IN, 0, sector (s.buf b).blockno⟩
  infoB : s.infoB i = some b

structure Chains (s : Sys T B α) : Prop where
  nodup : ∀ t, (s.place t).descs.Nodup
  lt : ∀ t, ∀ i ∈ (s.place t).descs, i < NUM
  disjoint : ∀ t t' i, i ∈ (s.place t).descs → i ∈ (s.place t').descs → t = t'
  free : ∀ i < NUM, s.free i = false ↔ ∃ t, i ∈ (s.place t).descs
  formatted : ∀ t b w i j k, s.place t = .waits b w i j k → Formatted s b w i j k
  caller : ∀ t t' b, (s.place t).buf = some b → (s.place t').buf = some b → t = t'

/-- The first descriptor of a call that is not told to be done. -/
def Sys.head (s : Sys T B α) (t : T) : Option Nat :=
  match s.place t with
  | .waits b _ i _ _ => if (s.buf b).disk then some i else none
  | _ => none

/-- A chain is in these lists once if its call is not told to be done, and not at all otherwise. -/
def Sys.Once (s : Sys T B α) (l : List Nat) (i : Nat) : Prop :=
  l.count i = 1 ∧ (∃ t, s.head t = some i) ∨ l.count i = 0 ∧ ∀ t, s.head t ≠ some i

/-- Of the chains, `q` are in the available ring and `u` in the used one. -/
structure Rings (s : Sys T B α) (q u : List Nat) : Prop where
  avail : s.avail.Holds (2 ^ 16) NUM q
  used : s.used.Holds (2 ^ 16) NUM u
  once : ∀ i, s.Once (q ++ s.taken ++ u) i
  pending : ∀ i ∈ q ++ s.taken, s.status i = 0xff
  told : ∀ t b w i j k, s.place t = .waits b w i j k → s.head t = none → s.status i = 0

/-- What is known of a thread that sleeps: the disk has its buffer, or another thread has descriptors. -/
def Sys.Sleeper (s : Sys T B α) (t : T) : Chan B → Prop
  | .buf b => (s.place t).buf = some b ∧ s.head t ≠ none
  | .free => (s.place t).descs = [] ∧ ∃ t', (s.place t').descs ≠ []

structure Inv (s : Sys T B α) : Prop where
  chains : Chains s
  rings : ∃ q u, Rings s q u
  sleeps : ∀ t c, s.asleep t = some c → s.Sleeper t c

section

theorem Sys.head_cases (s : Sys T B α) (t : T) : s.head t = none ∨ ∃ b w i j k,
    s.place t = .waits b w i j k ∧ (s.buf b).disk = true ∧ s.head t = some i := by
  grind [head]

theorem Sys.head_mem (ht : s.head t = some i) : i ∈ (s.place t).descs := by
  grind [s.head_cases t]

theorem Sys.head_none (hdescs : (s.place t).descs = []) : s.head t = none := by
  grind [s.head_cases t]

theorem Sys.Once.congr {l l' : List Nat} (h : s.Once l i) (hhead : s'.head = s.head) (hcount : l'.count i = l.count i) :
    s'.Once l' i := by
  rwa [Once, hhead, hcount]

theorem Chains.in_chain (h : Chains s) (hp : s.place t = .waits b w i j k) : ∀ x ∈ [i, j, k], x < NUM ∧ s.free x = false := by
  have hdescs : (s.place t).descs = [i, j, k] := by
    rw [hp]
    rfl
  grind [Chains]

/-- Free descriptors are in no chain. -/
theorem Chains.apart (h : Chains s) {l : List Nat} (hfresh : s.Fresh l) {x : Nat} (hx : x ∈ (s.place t).descs) : x ∉ l := by
  grind [Chains, Fresh]

theorem Formatted.congr (h : Formatted s b w i j k)
    (hsame : ∀ x ∈ [i, j, k], s'.desc x = s.desc x ∧ s'.ops x = s.ops x ∧ s'.infoB x = s.infoB x)
    (hblock : (s'.buf b).blockno = (s.buf b).blockno) : Formatted s' b w i j k := by
  constructor <;> grind [Formatted]

theorem Sys.Sleeper.congr {c : Chan B} (h : s.Sleeper t c) (hplace : s'.place t = s.place t) (hhead : s'.head t = s.head t)
    (hfree : c = .free → ∀ t', (s.place t').descs ≠ [] → (s'.place t').descs ≠ []) : s'.Sleeper t c := by
  cases c <;> grind [Sleeper]

/-- Thread `t` goes to `p`, and the chains of the others stay. -/
structure Moves (s s' : Sys T B α) (t : T) (p : Place B) : Prop where
  place : s'.place = update s.place t p
  fresh : s.Fresh p.descs
  free : ∀ x < NUM, s'.free x = false ↔ x ∈ p.descs ∨ s.free x = false ∧ x ∉ (s.place t).descs
  same : ∀ x, s.free x = false → x ∉ (s.place t).descs →
    s'.desc x = s.desc x ∧ s'.ops x = s.ops x ∧ s'.infoB x = s.infoB x
  buf : ∀ b, p.buf ≠ some b → s'.buf b = s.buf b
  formatted : ∀ b w i j k, p = .waits b w i j k → Formatted s' b w i j k
  caller : ∀ b t', p.buf = some b → (s.place t').buf = some b → t' = t

namespace Moves

variable {p : Place B} (hm : Moves s s' t p)
include hm

theorem self : s'.place t = p := by rw [hm.place, update_self]

theorem other {t' : T} (ht : t' ≠ t) : s'.place t' = s.place t' := by rw [hm.place, update_of_ne ht]

theorem buf_other {t' : T} (ht : t' ≠ t) (hb : (s.place t').buf = some b) : s'.buf b = s.buf b :=
  hm.buf b fun hp => ht (hm.caller b t' hp hb)

theorem head {t' : T} (ht : t' ≠ t) : s'.head t' = s.head t' := by
  unfold Sys.head
  rw [hm.other ht]
  split
  · rename_i hp
    rw [hm.buf_other ht (by rw [hp]; rfl)]
  · rfl

theorem chains (h : Chains s) : Chains s' := by
  have hdescs {t' x} : x ∈ (s'.place t').descs ↔ if t' = t then x ∈ p.descs else x ∈ (s.place t').descs := by
    rw [hm.place, update_apply]
    split <;> rfl
  have hfresh := hm.fresh
  have hfree := hm.free
  refine ⟨fun t' => ?_, ?_, ?_, fun x hx => ?_, fun t' b w i j k hp => ?_, ?_⟩
  · by_cases ht : t' = t
    · rw [ht, hm.self]
      exact hm.fresh.1
    · rw [hm.other ht]
      exact h.nodup t'
  · grind [Chains, Fresh]
  · grind [Chains, Fresh]
  · rw [hm.free x hx, h.free x hx]
    grind [Chains, Fresh]
  · by_cases ht : t' = t
    · rw [ht, hm.self] at hp
      exact hm.formatted b w i j k hp
    · rw [hm.other ht] at hp
      refine (h.formatted t' b w i j k hp).congr ?_ (congrArg Buf.blockno (hm.buf_other ht (by rw [hp]; rfl)))
      have := hm.same
      have := h.in_chain hp
      have := h.disjoint t' t
      grind
  · rw [hm.place]
    grind [Chains, Moves]

theorem inv (h : Inv s) (hrings : ∃ q u, Rings s' q u) (hself : ∀ c, s'.asleep t = some c → s'.Sleeper t c)
    (hasleep : ∀ t' ≠ t, ∀ c, s'.asleep t' = some c → s.asleep t' = some c ∧ (c = .free → (s.place t).descs = [])) : Inv s' where
  chains := hm.chains h.chains
  rings := hrings
  sleeps t' c hs := by
    by_cases ht : t' = t
    · rw [ht] at hs ⊢
      exact hself c hs
    · obtain ⟨hs, hfree⟩ := hasleep t' ht c hs
      refine (h.sleeps t' c hs).congr (hm.other ht) (hm.head ht) fun hc t₁ h₁ => ?_
      rwa [hm.other]
      rintro rfl
      exact h₁ (hfree hc)

end Moves

/-- Steps that move no thread and touch no chain. -/
theorem Chains.congr (h : Chains s) (hplace : s'.place = s.place) (hfree : s'.free = s.free) (htables : s'.tables = s.tables)
    (hblock : ∀ b, s.InCall b → (s'.buf b).blockno = (s.buf b).blockno) : Chains s' := by
  have hformatted {t b w i j k} (hp : s.place t = .waits b w i j k) : Formatted s' b w i j k :=
    (h.formatted t b w i j k hp).congr (by grind [tables]) (hblock b ⟨t, by rw [hp]; rfl⟩)
  constructor <;> simp only [hplace, hfree] <;> grind [Chains]

/-- Steps that leave the rings. -/
theorem Rings.congr (h : Rings s q u) (hrings : s'.rings = s.rings) (hhead : s'.head = s.head)
    (hwaits : ∀ t b w i j k, s'.place t = .waits b w i j k → s.place t = .waits b w i j k) : Rings s' q u := by
  simp only [Sys.rings, Prod.mk.injEq] at hrings
  have honce (i) := (h.once i).congr hhead rfl
  constructor <;> simp only [hrings, hhead] <;> grind [Rings]

theorem Moves.rings {p : Place B} (hm : Moves s s' t p) (h : Rings s q u)
    (hrings : s'.rings = s.rings) (hdescs : p.descs = []) (ht : s.head t = none) : Rings s' q u := by
  refine h.congr hrings (funext fun t' => ?_) fun t' b w i j k hp => ?_
  · by_cases htt : t' = t
    · rw [htt, ht, head_none (hm.self ▸ hdescs)]
    · exact hm.head htt
  · rw [hm.place] at hp
    grind

/-- There is room in both rings. -/
theorem Rings.length_lt (h : Rings s q u) (hc : Chains s) {l : List Nat} (hi : i < NUM) (hil : l.count i = 0)
    (hl : ∀ x, l.count x ≤ (q ++ s.taken ++ u).count x) : l.length < NUM := by
  have hmem (x : Nat) : l.count x ≤ 1 ∧ (x ∈ l → x < NUM) := by
    have := hl x
    rcases h.once x with ⟨hx, t, ht⟩ | ⟨hx, -⟩
    · exact ⟨by omega, fun _ => hc.lt t x (head_mem ht)⟩
    · grind [List.count_pos_iff]
  have hnodup : (i :: l).Nodup :=
    List.nodup_cons.mpr ⟨List.count_eq_zero.mp hil, List.nodup_iff_count.mpr fun x => (hmem x).1⟩
  have := (List.subperm_of_subset hnodup (show i :: l ⊆ List.range NUM by grind)).length_le
  rwa [List.length_range, List.length_cons] at this

/-- One chain more is busy in `s'`. -/
theorem Sys.once_iff {l m : List Nat} (hother : ∀ t' ≠ t, s'.head t' = s.head t') (ht : s.head t = none)
    (ht' : s'.head t = some i) (hnew : ∀ t', s.head t' ≠ some i)
    (hcount : ∀ x, m.count x = l.count x + if x = i then 1 else 0) (x : Nat) : s'.Once m x ↔ s.Once l x := by
  rw [Once, hcount]
  by_cases hx : x = i
  · grind [Once]
  · have hbusy : (∃ t, s'.head t = some x) ↔ ∃ t, s.head t = some x := exists_congr fun t' => by grind
    have hidle := not_congr hbusy
    push Not at hidle
    rw [hbusy, hidle, if_neg hx, Nat.add_zero, Once]

/-! ## The sections -/

/-- The thread begins a call, or tries again. -/
structure Asks (s : Sys T B α) (t : T) (b : B) : Prop where
  descs : (s.place t).descs = []
  only : ∀ t', (s.place t').buf = some b → t' = t

theorem Inv.refused (h : Inv s) (ha : Asks s t b) {l : List Nat} (hlen : l.length < 3)
    (hall : ∀ x < NUM, s.free x = true → x ∈ l) (hfresh : s.Fresh l) : Inv (s.refuse t b w l) := by
  have hm : Moves s (s.refuse t b w l) t (.refused b w) := by
    unfold refuse
    constructor <;> grind [Fresh, Asks, freed]
  obtain ⟨q, u, hr⟩ := h.rings
  refine hm.inv h ⟨q, u, hm.rings hr rfl rfl (head_none ha.descs)⟩ (fun c hs => ?_)
    (by unfold refuse; grind [freed, Asks])
  cases (update_self ..).symm.trans hs
  -- most descriptors are taken, so another thread has one
  obtain ⟨x, hx, hxl⟩ : ∃ x < NUM, x ∉ l := by
    by_contra hall
    have := (List.subperm_of_subset List.nodup_range (show List.range NUM ⊆ l by grind)).length_le
    rw [List.length_range, NUM] at this
    omega
  obtain ⟨t', ht'⟩ := (h.chains.free x hx).mp (by grind)
  refine ⟨by rw [hm.self]; rfl, t', ?_⟩
  have := ha.descs
  rw [hm.place]
  grind

theorem Moves.handed (ha : Asks s t b) (hfresh : s.Fresh [i, j, k]) :
    Moves s ((s.without [i, j, k]).submit t b w i j k) t (.waits b w i j k) := by
  have hne : i ≠ j ∧ i ≠ k ∧ j ≠ k := by grind [Fresh]
  refine ⟨rfl, hfresh, ?_, ?_, ?_, fun b' w' i' j' k' hp => ?_, ?_⟩
  · simp only [submit, without]
    grind [Asks]
  · have := hfresh.2
    simp only [submit, without]
    grind
  · simp only [submit, without]
    grind
  · cases hp
    constructor <;> simp only [submit, without] <;> grind
  · grind [Asks]

theorem Inv.handed (h : Inv s) (ha : Asks s t b) (hfresh : s.Fresh [i, j, k]) :
    Inv ((s.without [i, j, k]).submit t b w i j k) := by
  have hm := Moves.handed (w := w) ha hfresh
  have hhead : ((s.without [i, j, k]).submit t b w i j k).head t = some i := by
    simp [head, hm.self, submit]
  obtain ⟨q, u, hr⟩ := h.rings
  have hnew (t') : s.head t' ≠ some i := fun ht' => h.chains.apart hfresh (head_mem ht') List.mem_cons_self
  have hidle : (q ++ s.taken ++ u).count i = 0 := by grind [hr.once i, Once]
  have hlen : q.length < NUM := hr.length_lt h.chains (hfresh.2 i List.mem_cons_self).1 (by grind) (by grind)
  refine hm.inv h ⟨q ++ [i], u, hr.avail.push (by decide) hlen i, hr.used, fun x => ?_, fun x hx => ?_,
    fun t' b' w' i' j' k' hp hd => ?_⟩ (fun c hs => ?_) fun t' ht c hs => ?_
  · refine (once_iff (fun t' => hm.head) (head_none ha.descs) hhead hnew (fun y => ?_) x).mpr (hr.once x)
    simp only [submit, without]
    grind
  · have := hr.pending x
    simp only [submit, without] at hx ⊢
    grind
  · have ht : t' ≠ t := by grind
    rw [hm.other ht] at hp
    rw [hm.head ht] at hd
    refine (update_of_ne ?_ ..).trans (hr.told t' b' w' i' j' k' hp hd)
    rintro rfl
    exact h.chains.apart hfresh (by rw [hp]; exact List.mem_cons_self) List.mem_cons_self
  · cases (update_self ..).symm.trans hs
    exact ⟨by rw [hm.self]; rfl, by simp [hhead]⟩
  · exact ⟨(update_of_ne ht ..).symm.trans hs, fun _ => ha.descs⟩

/-- After a call. -/
def Sys.ended (s : Sys T B α) (t : T) (i j k : Nat) : Sys T B α :=
  { ({ s with infoB := update s.infoB i none } : Sys T B α).freed [i, j, k] with place := update s.place t .out }

theorem Inv.await_cases (h : Inv s) (hp : s.place t = .waits b w i j k) :
    ((s.buf b).disk = true ∧ s.await t b i = some { s with asleep := update s.asleep t (some (.buf b)) }) ∨
    ((s.buf b).disk = false ∧ s.await t b i = some (s.ended t i j k)) := by
  unfold await
  cases hd : (s.buf b).disk with
  | true => exact .inl ⟨rfl, if_pos rfl⟩
  | false =>
    have hf := h.chains.formatted t b w i j k hp
    have hnodup := h.chains.nodup t
    rw [hp] at hnodup
    have hfree := freeChain_three (s := { s with infoB := update s.infoB i none }) hf.head hf.data (by simp [VRING_DESC_F_NEXT])
      (by cases w <;> simp [VRING_DESC_F_NEXT, VRING_DESC_F_WRITE]) (congrArg Desc.flags hf.status) hnodup (h.chains.in_chain hp)
    refine .inr ⟨rfl, (if_neg Bool.false_ne_true).trans ?_⟩
    rw [hfree]
    rfl

theorem Inv.ended (h : Inv s) (hp : s.place t = .waits b w i j k) (hwoken : s.asleep t = none) (hd : (s.buf b).disk = false) :
    Inv (s.ended t i j k) := by
  have hm : Moves s (s.ended t i j k) t .out := by
    refine ⟨rfl, ⟨List.nodup_nil, by simp [Place.descs]⟩, ?_, ?_, fun _ _ => rfl, by grind, by grind⟩ <;>
      simp only [Sys.ended, freed, hp] <;> grind
  obtain ⟨q, u, hr⟩ := h.rings
  refine hm.inv h ⟨q, u, hm.rings hr rfl rfl (by simp [head, hp, hd])⟩ ?_ ?_ <;> grind [Sys.ended, freed]

/-- The sleepers are fewer, or there is a reason for them. -/
theorem Inv.slept (h : Inv s) (hasleep : ∀ t c, asleep t = some c → s.asleep t = some c ∨ s.Sleeper t c) : Inv { s with asleep } where
  chains := h.chains.congr rfl rfl rfl fun _ _ => rfl
  rings := by
    obtain ⟨q, u, hr⟩ := h.rings
    exact ⟨q, u, hr.congr rfl rfl fun _ _ _ _ _ _ => id⟩
  sleeps t c hs := ((hasleep t c hs).elim (h.sleeps t c) id).congr rfl rfl fun _ _ => id

/-- The call that a chain in the lists is of. -/
theorem Rings.call (h : Rings s q u) (hi : i ∈ q ++ s.taken ++ u) : ∃ t b w j k, s.place t = .waits b w i j k ∧ s.head t = some i := by
  obtain ⟨t, ht⟩ : ∃ t, s.head t = some i := by grind [h.once i, Once]
  grind [s.head_cases t]

/-- The entry of the used ring that the interrupt handler takes. -/
theorem Inv.used_head (h : Inv s) (hused : s.used.rd ≠ s.used.wr) : ∃ q u i,
    Rings s q (i :: u) ∧ s.used.data (s.used.rd % NUM) = i ∧ ∃ t b w j k, s.place t = .waits b w i j k ∧ s.head t = some i := by
  obtain ⟨q, u, hr⟩ := h.rings
  cases u with
  | nil => exact absurd ((hr.used.wr_eq_rd_iff (by decide)).mpr rfl) hused
  | cons i u => exact ⟨q, u, i, hr, hr.used.pop.1, hr.call (by simp)⟩

theorem Inv.intr (h : Inv s) (hused : s.used.rd ≠ s.used.wr) (hrun : s.intr = some s') : Inv s' := by
  obtain ⟨q, u, i, hr, hi, t, b, w, j, k, hp, ht⟩ := h.used_head hused
  rw [Sys.intr, hi, (h.chains.formatted t b w i j k hp).infoB] at hrun
  dsimp only at hrun
  split at hrun
  · cases hrun
  rename_i hstatus
  have hplace : s'.place = s.place := by
    cases hrun
    rfl
  have hdisk (b' : B) : (s'.buf b').disk = if b' = b then false else (s.buf b').disk := by
    cases hrun
    simp only [wakeup]
    grind
  have hself : s'.head t = none := by
    simp [head, hplace, hp, hdisk]
  have hhead (t') (hne : t' ≠ t) : s'.head t' = s.head t' := by
    have := h.chains.caller t' t b
    unfold head
    rw [hplace]
    split <;> grind
  have hnew (t') : s'.head t' ≠ some i := by
    intro ht'
    have hne : t' ≠ t := by grind
    rw [hhead t' hne] at ht'
    exact hne (h.chains.disjoint t' t i (head_mem ht') (head_mem ht))
  have honce := once_iff (l := q ++ s'.taken ++ u) (m := q ++ s.taken ++ i :: u) (fun t' hne => (hhead t' hne).symm) hself ht hnew
    (by cases hrun; grind [wakeup])
  cases hrun
  refine ⟨h.chains.congr rfl rfl rfl fun b' _ => by simp only [wakeup]; grind,
    ⟨q, u, hr.avail, hr.used.pop.2, fun x => (honce x).mp (hr.once x), hr.pending, fun t' b' w' i' j' k' hp' hd => ?_⟩, fun t' c hs => ?_⟩
  · have := hr.told t' b' w' i' j' k' hp'
    grind [wakeup]
  · obtain ⟨hs, hc⟩ : s.asleep t' = some c ∧ c ≠ .buf b := by grind [wakeup]
    have hsl := h.sleeps t' c hs
    refine hsl.congr rfl (hhead t' ?_) fun _ _ => id
    rintro rfl
    cases c <;> grind [Sleeper]

theorem Inv.take (h : Inv s) (havail : s.avail.rd ≠ s.avail.wr) : Inv s.take := by
  obtain ⟨q, u, hr⟩ := h.rings
  cases q with
  | nil => exact absurd ((hr.avail.wr_eq_rd_iff (by decide)).mpr rfl) havail
  | cons x q =>
    obtain ⟨hx, hpop⟩ := hr.avail.pop
    have htaken : s.take.taken = x :: s.taken := congrArg (· :: s.taken) hx
    refine ⟨h.chains.congr rfl rfl rfl fun _ _ => rfl, ⟨q, u, hpop, hr.used, fun y => ?_, fun y hy => ?_, hr.told⟩,
      fun t c hs => (h.sleeps t c hs).congr rfl rfl fun _ _ => id⟩
    · exact (hr.once y).congr rfl (by grind)
    · have := hr.pending y
      grind [Sys.take]

/-- What the device finds at a chain that it works on. -/
theorem Inv.served (h : Inv s) (htaken : i ∈ s.taken) : ∃ t b w j k, s.place t = .waits b w i j k ∧
    s.head t = some i ∧ s.status i = 0xff ∧
    s.chain i = some (⟨if w then VIRTIO_BLK_T_OUT else VIRTIO_BLK_T_IN, 0, sector (s.buf b).blockno⟩, b, i) := by
  obtain ⟨q, u, hr⟩ := h.rings
  obtain ⟨t, b, w, j, k, hp, ht⟩ := hr.call (i := i) (by simp [htaken])
  have hf := h.chains.formatted t b w i j k hp
  refine ⟨t, b, w, j, k, hp, ht, hr.pending i (by simp [htaken]), ?_⟩
  simp only [chain, hf.head, hf.data, hf.status, hf.ops]
  refine if_pos ?_
  cases w <;> simp [VRING_DESC_F_NEXT, VRING_DESC_F_WRITE, VIRTIO_BLK_T_IN, VIRTIO_BLK_T_OUT]

theorem Inv.serve (h : Inv s) (htaken : i ∈ s.taken) {st : Nat} (hrun : s.serve i st = some s') : Inv s' := by
  obtain ⟨t, b, w, j, k, hp, ht, hpending, hchain⟩ := h.served htaken
  rw [Sys.serve, hchain, Option.map_some] at hrun
  obtain ⟨q, u, hr⟩ := h.rings
  have hbuf (b' : B) : (s'.buf b').disk = (s.buf b').disk ∧ (s'.buf b').blockno = (s.buf b').blockno := by
    cases hrun
    dsimp only
    split <;> grind
  have honce : (q ++ s.taken ++ u).count i = 1 := by grind [hr.once i, Once]
  have hlen : u.length < NUM :=
    hr.length_lt h.chains (h.chains.in_chain hp i List.mem_cons_self).1 (by grind [List.count_pos_iff]) (by grind)
  have hhead : s'.head = s.head := by
    funext t'
    have hplace : s'.place = s.place := by
      cases hrun
      rfl
    simp only [head, hplace, hbuf]
  cases Option.some.inj hrun
  refine ⟨h.chains.congr rfl rfl rfl fun b' _ => (hbuf b').2,
    ⟨q, u ++ [i], hr.avail, hr.used.push (by decide) hlen i, fun x => ?_, fun x hx => ?_,
      fun t' b' w' i' j' k' hp' hd => ?_⟩, fun t' c hs => (h.sleeps t' c hs).congr rfl (congrFun hhead t') fun _ _ => id⟩
  · exact (hr.once x).congr hhead (by grind [List.count_pos_iff])
  · have := hr.pending x
    have hno : i ∉ q ++ s.taken.erase i := by
      rw [← List.count_eq_zero]
      grind [List.count_pos_iff]
    grind
  · rw [hhead] at hd
    refine (update_of_ne ?_ ..).trans (hr.told t' b' w' i' j' k' hp' hd)
    rintro rfl
    have := h.chains.disjoint t' t i'
    grind

theorem Inv.edit (h : Inv s) (hbuf : ¬s.InCall b) (n : UInt32) (x : α) :
    Inv { s with buf := update s.buf b ⟨(s.buf b).disk, n, x⟩ } := by
  have hhead : head { s with buf := update s.buf b ⟨(s.buf b).disk, n, x⟩ } = s.head := by
    funext t
    simp only [head]
    grind
  obtain ⟨q, u, hr⟩ := h.rings
  refine ⟨h.chains.congr rfl rfl rfl ?_, ⟨q, u, hr.congr rfl hhead fun _ _ _ _ _ _ => id⟩,
    fun t c hs => (h.sleeps t c hs).congr rfl (congrFun hhead t) fun _ _ => id⟩
  grind

theorem Inv.boot (h : s.Boot) : Inv s where
  chains := by
    constructor <;> simp only [h.out] <;> simp [Place.descs, Place.buf]
    exact h.free
  rings := by
    obtain ⟨a, ha⟩ := h.avail
    obtain ⟨u, hu⟩ := h.used
    refine ⟨[], [], ha ▸ .nil (by decide), hu ▸ .nil (by decide), ?_, ?_, ?_⟩ <;> simp [h.taken, Once, head, h.out]
  sleeps t c hs := by
    rw [h.awake] at hs
    cases hs

theorem Inv.request (h : Inv s) (ha : Asks s t b) (hrun : s.request t b w = some s') : Inv s' := by
  rcases s.request_cases t b w with ⟨i, j, k, hfresh, heq⟩ | ⟨l, hfresh, hlen, hall, heq⟩
  · cases heq.symm.trans hrun
    exact h.handed ha hfresh
  · cases heq.symm.trans hrun
    exact h.refused ha hlen hall hfresh

theorem Inv.step (h : Inv s) (hstep : s.Step s') : Inv s' := by
  cases hstep with
  | call t b write _ hout hbuf hrun => exact h.request ⟨by rw [hout]; rfl, fun t' ht' => absurd ⟨t', ht'⟩ hbuf⟩ hrun
  | retry t b write _ hp _ hrun =>
    exact h.request ⟨by rw [hp]; rfl, fun t' ht' => h.chains.caller t' t b ht' (by rw [hp]; rfl)⟩ hrun
  | await t b write i j k _ hp hwoken hrun =>
    rcases h.await_cases hp with ⟨hd, heq⟩ | ⟨hd, heq⟩
    · cases heq.symm.trans hrun
      have hsl : s.Sleeper t (.buf b) := ⟨by rw [hp]; rfl, by simp [head, hp, hd]⟩
      exact h.slept (by grind)
    · cases heq.symm.trans hrun
      exact h.ended hp hwoken hd
  | wake t => exact h.slept (by grind)
  | intr _ hused hrun => exact h.intr hused hrun
  | take havail => exact h.take havail
  | serve i st _ htaken hrun => exact h.serve htaken hrun
  | edit b n x hbuf => exact h.edit hbuf n x

end

/-! ## What holds in every run -/

variable {s₀ : Sys T B α}

theorem Inv.reached (hboot : s₀.Boot) (hrun : Reaches Sys.Step s₀ s) : Inv s :=
  hrun.invariant (.boot hboot) fun _ _ h hstep => h.step hstep

/-- A disk of zeros. -/
def Sys.zeros : Sys Unit Unit Nat where
  desc _ := ⟨.null, 0, 0, 0⟩
  avail := ⟨fun _ => 0, 0, 0⟩
  used := ⟨fun _ => 0, 0, 0⟩
  free _ := true
  infoB _ := none
  status _ := 0
  ops _ := ⟨0, 0, 0⟩
  buf _ := ⟨false, 0, 0⟩
  place _ := .out
  asleep _ := none
  taken := []
  medium _ := 0

theorem Sys.zeros_boot : zeros.Boot := by
  constructor <;> simp [zeros]

/-- A read has been handed over. -/
def Sys.called : Sys Unit Unit Nat := (zeros.request () () false).get rfl

theorem Sys.zeros_called : Reaches Sys.Step zeros called :=
  .single (.call () () false _ rfl (by simp [InCall, zeros, Place.buf]) (Option.some_get _).symm)

/-- The sections do not panic, but for the interrupt handler exactly on a status that the device reports, and every
chain that the device works on is a request. -/
theorem never_panics (hboot : s₀.Boot) (hrun : Reaches Sys.Step s₀ s) :
    (∀ t b w, s.request t b w ≠ none) ∧
      (∀ t b w i j k, s.place t = .waits b w i j k → s.await t b i ≠ none) ∧
      (s.used.rd ≠ s.used.wr → (s.intr = none ↔ s.status (s.used.data (s.used.rd % NUM)) ≠ 0)) ∧
      ∀ i ∈ s.taken, ∀ st, s.serve i st ≠ none := by
  have h := Inv.reached hboot hrun
  refine ⟨fun t b w => ?_, fun t b w i j k hp => ?_, fun hused => ?_, fun i htaken st => ?_⟩
  · grind [s.request_cases t b w]
  · grind [h.await_cases hp]
  · obtain ⟨q, u, i, -, hi, t, b, w, j, k, hp, -⟩ := h.used_head hused
    have := (h.chains.formatted t b w i j k hp).infoB
    grind [intr]
  · obtain ⟨t, b, w, j, k, -, -, -, hchain⟩ := h.served htaken
    simp [serve, hchain]

theorem never_panics_called : called.await () () 0 ≠ none :=
  (never_panics zeros_boot zeros_called).2.1 () () false 0 1 2 rfl

/-- No wakeup is lost: as long as a call is under way, a thread in a call is awake, or the device or the interrupt
handler has something to do. -/
theorem never_stuck (hboot : s₀.Boot) (hrun : Reaches Sys.Step s₀ s) (hcall : s.place t ≠ .out) :
    (∃ t', s.place t' ≠ .out ∧ s.asleep t' = none) ∨ s.avail.rd ≠ s.avail.wr ∨ s.taken ≠ [] ∨ s.used.rd ≠ s.used.wr := by
  have h := Inv.reached hboot hrun
  by_contra hno
  simp only [not_or, not_exists, not_and, not_not] at hno
  obtain ⟨hasleep, havail, htaken, hused⟩ := hno
  obtain ⟨q, u, hr⟩ := h.rings
  obtain rfl := (hr.avail.wr_eq_rd_iff (by decide)).mp havail
  obtain rfl := (hr.used.wr_eq_rd_iff (by decide)).mp hused
  -- no chain is busy, so all wait for descriptors
  have hrefused {t : T} (hp : s.place t ≠ .out) : s.Sleeper t .free := by
    cases hs : s.asleep t with
    | none => exact absurd hs (hasleep t hp)
    | some c =>
      have hsl := h.sleeps t c hs
      cases c with
      | free => exact hsl
      | buf b =>
        obtain ⟨i, hi⟩ := Option.ne_none_iff_exists'.mp hsl.2
        grind [hr.once i, Once]
  -- but then another thread has descriptors, and does not wait for them
  obtain ⟨-, t', ht'⟩ := hrefused hcall
  have hne : s.place t' ≠ .out := by grind
  exact ht' (hrefused hne).1

theorem never_stuck_called : (∃ t', called.place t' ≠ .out ∧ called.asleep t' = none) ∨
    called.avail.rd ≠ called.avail.wr ∨ called.taken ≠ [] ∨ called.used.rd ≠ called.used.wr :=
  never_stuck (t := ()) zeros_boot zeros_called (show Place.waits () false 0 1 2 ≠ .out by simp)

/-! ## A disk with atomic operations -/

/-- What the driver is for: a medium, buffers with a block number, and calls that are served at once, at some time
between their start and their end. -/
@[ext] structure Spec (T B α : Type) where
  medium : Nat → α
  buf : B → UInt32 × α
  /-- The buffer of a call, whether it writes, and whether it was served. -/
  call : T → Option (B × Bool × Bool)

inductive Spec.Step (a : Spec T B α) : Spec T B α → Prop where
  | call (t : T) (b : B) (w : Bool) (hout : a.call t = none) (hbuf : ∀ t w v, a.call t ≠ some (b, w, v)) :
      Step a { a with call := update a.call t (some (b, w, false)) }
  | read (t : T) (b : B) (hcall : a.call t = some (b, false, false)) :
      Step a { a with
        buf := update a.buf b ((a.buf b).1, a.medium (sector (a.buf b).1))
        call := update a.call t (some (b, false, true)) }
  | write (t : T) (b : B) (hcall : a.call t = some (b, true, false)) :
      Step a { a with
        medium := update a.medium (sector (a.buf b).1) (a.buf b).2
        call := update a.call t (some (b, true, true)) }
  | done (t : T) (b : B) (w : Bool) (hcall : a.call t = some (b, w, true)) : Step a { a with call := update a.call t none }
  | edit (b : B) (x : UInt32 × α) (hbuf : ∀ t w v, a.call t ≠ some (b, w, v)) : Step a { a with buf := update a.buf b x }

theorem Spec.Step.of_eq {a c c' : Spec T B α} (h : Step a c) (heq : c' = c) : Step a c' := heq ▸ h

/-- A chain was served when its status is 0. -/
def Sys.spec (s : Sys T B α) : Spec T B α where
  medium := s.medium
  buf b := ((s.buf b).blockno, (s.buf b).data)
  call t :=
    match s.place t with
    | .out => none
    | .refused b w => some (b, w, false)
    | .waits b w i _ _ => some (b, w, s.status i = 0)

theorem Sys.not_called (hbuf : ¬s.InCall b) (t : T) (w v : Bool) : s.spec.call t ≠ some (b, w, v) := by
  have := fun h => hbuf ⟨t, h⟩
  simp only [spec]
  split <;> grind

/-- One call changes, and what is served of the others is the same. -/
theorem Sys.spec_call {x : Option (B × Bool × Bool)} (hplace : ∀ t' ≠ t, s'.place t' = s.place t')
    (hstatus : ∀ t' ≠ t, ∀ b w i j k, s.place t' = .waits b w i j k → s'.status i = s.status i) (hx : s'.spec.call t = x) :
    s'.spec.call = update s.spec.call t x := by
  funext t'
  by_cases ht : t' = t
  · rw [ht, update_self, hx]
  · rw [update_of_ne ht]
    simp only [spec, hplace t' ht]
    split <;> grind

theorem Inv.request_spec (h : Inv s) (hrun : s.request t b w = some s') :
    s'.spec = { s.spec with call := update s.spec.call t (some (b, w, false)) } := by
  rcases s.request_cases t b w with ⟨i, j, k, hfresh, heq⟩ | ⟨l, -, -, -, heq⟩
  · cases heq.symm.trans hrun
    refine Spec.ext rfl ?_ (spec_call (fun t' ht => update_of_ne ht ..) (fun t' _ b' w' i' j' k' hp => ?_) ?_)
    · funext b'
      simp only [spec, submit, without]
      grind
    · have := h.chains.apart (t := t') hfresh (x := i')
      simp only [submit, without]
      grind
    · simp [spec, submit, without]
  · cases heq.symm.trans hrun
    exact Spec.ext rfl rfl (spec_call (fun t' ht => update_of_ne ht ..) (by intros; rfl) (by simp [spec, refuse]))

theorem Inv.step_refines (h : Inv s) (hstep : s.Step s') : s'.spec = s.spec ∨ Spec.Step s.spec s'.spec := by
  cases hstep with
  | call t b write _ hout hbuf hrun =>
    rw [h.request_spec hrun]
    exact .inr (.call t b write (by simp only [spec, hout]) (not_called hbuf))
  | retry t b write _ hp _ hrun =>
    left
    rw [h.request_spec hrun, show some (b, write, false) = s.spec.call t by simp only [spec, hp], update_eq_self]
  | await t b write i j k _ hp _ hrun =>
    rcases h.await_cases hp with ⟨hd, heq⟩ | ⟨hd, heq⟩
    · cases heq.symm.trans hrun
      exact .inl rfl
    · cases heq.symm.trans hrun
      obtain ⟨q, u, hr⟩ := h.rings
      have hst := hr.told t b write i j k hp (by simp [head, hp, hd])
      refine .inr ((Spec.Step.done t b write (by simp [spec, hp, hst])).of_eq (Spec.ext rfl rfl ?_))
      exact spec_call (fun t' ht => update_of_ne ht ..) (by intros; rfl) (by simp [spec, Sys.ended, freed])
  | wake t => exact .inl rfl
  | intr _ hused hrun =>
    left
    unfold Sys.intr at hrun
    dsimp only at hrun
    split at hrun
    · cases hrun
    · obtain ⟨b, -, rfl⟩ := Option.map_eq_some_iff.mp hrun
      exact Spec.ext rfl (funext fun b' => by simp only [spec, wakeup]; grind) rfl
  | take havail => exact .inl rfl
  | serve i st _ htaken hrun =>
    obtain ⟨t, b, w, j, k, hp, hhead, hpending, hchain⟩ := h.served htaken
    rw [Sys.serve, hchain, Option.map_some] at hrun
    have hserved : s.spec.call t = some (b, w, false) := by simp [spec, hp, hpending]
    have hcall : s'.spec.call = update s.spec.call t (some (b, w, decide (st = 0))) := by
      cases hrun
      refine spec_call (fun _ _ => rfl) (fun t' ht b' w' i' j' k' hp' => ?_) ?_
      · have := h.chains.disjoint t' t i
        grind
      · simp [spec, hp]
    cases hrun
    by_cases hst : st = 0
    · subst hst
      cases w with
      | true =>
        refine .inr ((Spec.Step.write t b hserved).of_eq (Spec.ext ?_ ?_ hcall))
        · simp [spec]
        · simp [spec, VIRTIO_BLK_T_OUT, VIRTIO_BLK_T_IN]
      | false =>
        refine .inr ((Spec.Step.read t b hserved).of_eq (Spec.ext ?_ ?_ hcall))
        · simp [spec, VIRTIO_BLK_T_OUT, VIRTIO_BLK_T_IN]
        · funext b'
          simp only [spec]
          grind
    · refine .inl (Spec.ext ?_ ?_ (hcall.trans ?_))
      · simp [spec, hst]
      · simp [spec, hst]
      · rw [decide_eq_false hst, ← hserved, update_eq_self]
  | edit b n x hbuf =>
    refine .inr ((Spec.Step.edit b (n, x) (not_called hbuf)).of_eq (Spec.ext rfl (funext fun b' => ?_) rfl))
    simp only [spec, update_apply]
    split <;> rfl

end SC7.Virtio
