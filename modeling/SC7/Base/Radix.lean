-- SUMMARY: Radix trees of tables in word memory: the tables on the way to a key, and what writing a leaf or linking a fresh table changes.
import Mathlib.Data.Option.Basic

/-!
# Radix trees

A radix tree lives in a memory of 64-bit words. The root is a table; at depth `n` the key `k` selects
the word at `offset n k` of the table, and above the last level this word may lead to a further
table. A tree is well formed if tables are aligned and two ways that reach one table agree up to it;
then different keys have different leaf words, and linking a fresh table changes no leaf.
-/

namespace Radix

/-- The layout of a tree: how many tables a full way passes, how large a table is, which word a key
selects in it, and where a word leads. -/
structure Shape (κ : Type*) where
  depth : Nat
  size : Nat
  offset : Nat → κ → Nat
  child : Nat → Option Nat
  depth_pos : 0 < depth
  size_mod : size % 8 = 0
  offset_mod : ∀ n k, offset n k % 8 = 0
  offset_lt : ∀ n k, offset n k < size
  child_zero : child 0 = none

variable {κ : Type*} (R : Shape κ)

/-- The keys take the same way through the first `n` tables. -/
def Same (n : Nat) (k k' : κ) : Prop := ∀ i < n, R.offset i k = R.offset i k'

/-- The table at depth `n` on the way to a key. -/
def table (rd : Nat → Nat) (root : Nat) (k : κ) : Nat → Option Nat
  | 0 => some root
  | n + 1 => (table rd root k n).bind fun t => R.child (rd (t + R.offset n k))

/-- The leaf word of a key; `0` if a table on the way is missing. -/
def leaf (rd : Nat → Nat) (root : Nat) (k : κ) : Nat :=
  (table R rd root k (R.depth - 1)).elim 0 fun t => rd (t + R.offset (R.depth - 1) k)

/-- Tables are aligned, and no table is reached on two ways. -/
structure Wf (rd : Nat → Nat) (root : Nat) : Prop where
  aligned : ∀ {n k t}, n < R.depth → table R rd root k n = some t → t % R.size = 0
  distinct : ∀ {n n' k k' t}, n < R.depth → n' < R.depth → table R rd root k n = some t →
    table R rd root k' n' = some t → n = n' ∧ Same R n k k'

variable {R} {rd rd' : Nat → Nat} {root : Nat} {k k' : κ} {m n n' t t' u : Nat}

theorem Same.symm (h : Same R n k k') : Same R n k' k := fun i hi => (h i hi).symm

theorem Same.trans {k'' : κ} (h : Same R n k k') (h' : Same R n k' k'') : Same R n k k'' :=
  fun i hi => (h i hi).trans (h' i hi)

theorem Same.mono (h : Same R n k k') (hmn : m ≤ n) : Same R m k k' :=
  fun i hi => h i (Nat.lt_of_lt_of_le hi hmn)

theorem same_succ : Same R (n + 1) k k' ↔ Same R n k k' ∧ R.offset n k = R.offset n k' := by
  constructor
  · exact fun h => ⟨h.mono (Nat.le_succ n), h n (Nat.lt_succ_self n)⟩
  · rintro ⟨h, hn⟩ i hi
    by_cases heq : i = n
    · rw [heq]
      exact hn
    · exact h i (by omega)

/-- Keys that take the same way reach the same tables. -/
theorem table_same (h : Same R n k k') : table R rd root k n = table R rd root k' n := by
  induction n with
  | zero => rfl
  | succ n ih =>
    obtain ⟨hn, hoff⟩ := same_succ.mp h
    rw [table, table, ih hn, hoff]

/-- Behind a missing table there is none. -/
theorem table_none_of_le (h : table R rd root k n = none) (hnm : n ≤ m) : table R rd root k m = none := by
  induction m with
  | zero =>
    obtain rfl : n = 0 := by omega
    exact h
  | succ m ih =>
    by_cases heq : n = m + 1
    · rw [← heq]
      exact h
    · rw [table, ih (by omega), Option.bind_none]

/-- A word in an aligned table determines the table and the place in it. -/
theorem add_inj {size t t' o o' : Nat} (ht : t % size = 0) (ht' : t' % size = 0) (ho : o < size)
    (ho' : o' < size) (h : t + o = t' + o') : t = t' ∧ o = o' := by
  have hmod : ∀ {a b : Nat}, a % size = 0 → b < size → (a + b) % size = b := by
    intro a b ha hb
    rw [Nat.add_mod, ha, Nat.zero_add, Nat.mod_mod, Nat.mod_eq_of_lt hb]
  have heq : o = o' := by rw [← hmod ht ho, ← hmod ht' ho', h]
  omega

/-- Two words that lie in one table are words of the same aligned table. -/
theorem eq_of_mem_table {size t t' o : Nat} (ht : t % size = 0) (ht' : t' % size = 0) (ho : o < size)
    (hlo : t' ≤ t + o) (hhi : t + o < t' + size) : t = t' := by
  have hsplit : t + o = t' + (t + o - t') := by omega
  exact (add_inj ht ht' ho (by omega) hsplit).1

/-- Tables start at multiples of eight. -/
theorem mod_eight (ht : t % R.size = 0) : t % 8 = 0 :=
  Nat.mod_eq_zero_of_dvd (Nat.dvd_trans (Nat.dvd_of_mod_eq_zero R.size_mod) (Nat.dvd_of_mod_eq_zero ht))

namespace Wf

/-- Different ways select different words. -/
theorem slot_inj (h : Wf R rd root) (hn : n < R.depth) (hn' : n' < R.depth)
    (ht : table R rd root k n = some t) (ht' : table R rd root k' n' = some t')
    (heq : t + R.offset n k = t' + R.offset n' k') : n = n' ∧ Same R (n + 1) k k' := by
  obtain ⟨rfl, hoff⟩ := add_inj (h.aligned hn ht) (h.aligned hn' ht') (R.offset_lt n k) (R.offset_lt n' k') heq
  obtain ⟨rfl, hsame⟩ := h.distinct hn hn' ht ht'
  exact ⟨rfl, same_succ.mpr ⟨hsame, hoff⟩⟩

/-- The words of tables have addresses that are multiples of eight. -/
theorem slot_mod (h : Wf R rd root) (hn : n < R.depth) (ht : table R rd root k n = some t) :
    (t + R.offset n k) % 8 = 0 := by
  have h1 := mod_eight (h.aligned hn ht)
  have h2 := R.offset_mod n k
  omega

/-! ## Writing a leaf -/

/-- Only the leaf word of `k`, in its table `t`, was written. -/
def LeafWritten (R : Shape κ) (rd rd' : Nat → Nat) (k : κ) (t : Nat) : Prop :=
  ∀ x, x % 8 = 0 → x ≠ t + R.offset (R.depth - 1) k → rd' x = rd x

/-- The words above the last level are what they were. -/
theorem rd_leafWritten (h : Wf R rd root) (ht : table R rd root k (R.depth - 1) = some t)
    (hw : LeafWritten R rd rd' k t) (hn : n + 1 < R.depth) (hu : table R rd root k' n = some u) :
    rd' (u + R.offset n k') = rd (u + R.offset n k') := by
  refine hw _ (h.slot_mod (by omega) hu) fun heq => ?_
  have hlevel := (h.slot_inj (by omega) (Nat.sub_one_lt_of_lt R.depth_pos) hu ht heq).1
  omega

theorem table_leafWritten (h : Wf R rd root) (ht : table R rd root k (R.depth - 1) = some t)
    (hw : LeafWritten R rd rd' k t) (hn : n < R.depth) : table R rd' root k' n = table R rd root k' n := by
  induction n with
  | zero => rfl
  | succ n ih =>
    rw [table, table, ih (by omega)]
    cases hu : table R rd root k' n with
    | none => rfl
    | some u => rw [Option.bind_some, Option.bind_some, h.rd_leafWritten ht hw hn hu]

theorem leafWritten (h : Wf R rd root) (ht : table R rd root k (R.depth - 1) = some t)
    (hw : LeafWritten R rd rd' k t) : Wf R rd' root where
  aligned hn hu := by
    rw [h.table_leafWritten ht hw hn] at hu
    exact h.aligned hn hu
  distinct hn hn' hu hu' := by
    rw [h.table_leafWritten ht hw hn] at hu
    rw [h.table_leafWritten ht hw hn'] at hu'
    exact h.distinct hn hn' hu hu'

/-- The leaf of the key, and of those that take the same way, was written. -/
theorem leaf_leafWritten_same (h : Wf R rd root) (ht : table R rd root k (R.depth - 1) = some t)
    (hw : LeafWritten R rd rd' k t) (hsame : Same R R.depth k k') :
    leaf R rd' root k' = rd' (t + R.offset (R.depth - 1) k) := by
  have hlast : R.depth - 1 < R.depth := Nat.sub_one_lt_of_lt R.depth_pos
  have ht' := (table_same (hsame.mono (Nat.sub_le _ _))).symm.trans ht
  rw [leaf, h.table_leafWritten ht hw hlast, ht', Option.elim_some, hsame _ hlast]

/-- All other leaves are what they were. -/
theorem leaf_leafWritten (h : Wf R rd root) (ht : table R rd root k (R.depth - 1) = some t)
    (hw : LeafWritten R rd rd' k t) (hne : ¬Same R R.depth k k') :
    leaf R rd' root k' = leaf R rd root k' := by
  have hlast : R.depth - 1 < R.depth := Nat.sub_one_lt_of_lt R.depth_pos
  rw [leaf, leaf, h.table_leafWritten ht hw hlast]
  cases hu : table R rd root k' (R.depth - 1) with
  | none => rfl
  | some u =>
    refine hw _ (h.slot_mod hlast hu) fun heq => hne ?_
    have hsame := (h.slot_inj hlast hlast ht hu heq.symm).2
    exact hsame.mono (by omega)

/-! ## Linking a fresh table -/

/-- The fresh table `t'` was cleared and linked from the word of `k` in its table `t` at depth `n`. -/
structure Linked (R : Shape κ) (rd rd' : Nat → Nat) (root : Nat) (k : κ) (n t t' : Nat) : Prop where
  depth_lt : n + 1 < R.depth
  table_eq : table R rd root k n = some t
  missing : R.child (rd (t + R.offset n k)) = none
  child_eq : R.child (rd' (t + R.offset n k)) = some t'
  aligned : t' % R.size = 0
  fresh : ∀ k' m, m < R.depth → table R rd root k' m ≠ some t'
  clear : ∀ x, x % 8 = 0 → t' ≤ x → x < t' + R.size → rd' x = 0
  rest : ∀ x, x % 8 = 0 → x ≠ t + R.offset n k → ¬(t' ≤ x ∧ x < t' + R.size) → rd' x = rd x

namespace Linked

/-- The words of the tables that were there before do not lie in the fresh one. -/
theorem not_mem (h : Wf R rd root) (hl : Linked R rd rd' root k n t t') (hm : m < R.depth)
    (hu : table R rd root k' m = some u) : ¬(t' ≤ u + R.offset m k' ∧ u + R.offset m k' < t' + R.size) := by
  rintro ⟨hlo, hhi⟩
  have heq := eq_of_mem_table (h.aligned hm hu) hl.aligned (R.offset_lt m k') hlo hhi
  exact hl.fresh k' m hm (heq ▸ hu)

/-- The words of the fresh table are zero. -/
theorem rd_fresh (hl : Linked R rd rd' root k n t t') (m : Nat) (k' : κ) : rd' (t' + R.offset m k') = 0 := by
  have h1 := mod_eight hl.aligned
  have h2 := R.offset_mod m k'
  have h3 := R.offset_lt m k'
  exact hl.clear _ (by omega) (by omega) (by omega)

/-- Below the missing table there was nothing. -/
theorem table_none (hl : Linked R rd rd' root k n t t') (hsame : Same R (n + 1) k k') :
    table R rd root k' (n + 1) = none := by
  rw [← table_same hsame, table, hl.table_eq, Option.bind_some, hl.missing]

/-- The fresh table is reached by the keys that take the way of `k`; no other way changes. -/
theorem table_eq_of (h : Wf R rd root) (hl : Linked R rd rd' root k n t t') (k' : κ) (hm : m < R.depth) :
    (Same R (n + 1) k k' ∧ m = n + 1 ∧ table R rd' root k' m = some t') ∨
      (¬(Same R (n + 1) k k' ∧ m = n + 1) ∧ table R rd' root k' m = table R rd root k' m) := by
  induction m with
  | zero => exact .inr ⟨by omega, rfl⟩
  | succ m ih =>
    rcases ih (by omega) with ⟨hsame, rfl, htab⟩ | ⟨hnot, htab⟩
    · -- one level below the fresh table
      refine .inr ⟨by omega, ?_⟩
      rw [table, htab, Option.bind_some, hl.rd_fresh, R.child_zero, table, hl.table_none hsame, Option.bind_none]
    · rw [table, htab, table]
      cases hu : table R rd root k' m with
      | none =>
        refine .inr ⟨?_, rfl⟩
        rintro ⟨hsame, heq⟩
        obtain rfl : m = n := by omega
        rw [← table_same (hsame.mono (Nat.le_succ m)), hl.table_eq] at hu
        cases hu
      | some u =>
        rw [Option.bind_some, Option.bind_some]
        by_cases hslot : u + R.offset m k' = t + R.offset n k
        · obtain ⟨rfl, hsame⟩ := h.slot_inj (by omega) (by have := hl.depth_lt; omega) hu hl.table_eq hslot
          exact .inl ⟨hsame.symm, rfl, by rw [hslot]; exact hl.child_eq⟩
        · refine .inr ⟨?_, ?_⟩
          · rintro ⟨hsame, heq⟩
            obtain rfl : m = n := by omega
            rw [← table_same (hsame.mono (Nat.le_succ m)), hl.table_eq] at hu
            obtain rfl := Option.some_inj.mp hu
            exact hslot (by rw [hsame m (Nat.lt_succ_self m)])
          · rw [hl.rest _ (h.slot_mod (by omega) hu) hslot (hl.not_mem h (by omega) hu)]

/-- A table afterwards is the fresh one or was there before. -/
theorem table_cases (h : Wf R rd root) (hl : Linked R rd rd' root k n t t') (hm : m < R.depth)
    (hu : table R rd' root k' m = some u) :
    (u = t' ∧ Same R (n + 1) k k' ∧ m = n + 1) ∨ table R rd root k' m = some u := by
  rcases hl.table_eq_of h k' hm with ⟨hsame, heq, htab⟩ | ⟨-, htab⟩
  · rw [hu] at htab
    exact .inl ⟨Option.some_inj.mp htab, hsame, heq⟩
  · rw [htab] at hu
    exact .inr hu

theorem wf (h : Wf R rd root) (hl : Linked R rd rd' root k n t t') : Wf R rd' root where
  aligned hm hu := by
    rcases hl.table_cases h hm hu with ⟨rfl, -, -⟩ | hu
    · exact hl.aligned
    · exact h.aligned hm hu
  distinct hm hm' hu hu' := by
    rcases hl.table_cases h hm hu with ⟨rfl, hsame, rfl⟩ | hu₁
    · rcases hl.table_cases h hm' hu' with ⟨-, hsame', rfl⟩ | hu₁'
      · exact ⟨rfl, hsame.symm.trans hsame'⟩
      · exact absurd hu₁' (hl.fresh _ _ hm')
    · rcases hl.table_cases h hm' hu' with ⟨rfl, -, -⟩ | hu₁'
      · exact absurd hu₁ (hl.fresh _ _ hm)
      · exact h.distinct hm hm' hu₁ hu₁'

/-- The way of `k` now goes on to the fresh table. -/
theorem table_next (h : Wf R rd root) (hl : Linked R rd rd' root k n t t') :
    table R rd' root k (n + 1) = some t' := by
  rcases hl.table_eq_of h k hl.depth_lt with ⟨-, -, htab⟩ | ⟨hnot, -⟩
  · exact htab
  · exact absurd ⟨fun _ _ => rfl, rfl⟩ hnot

/-- No leaf changes. -/
theorem leaf_eq (h : Wf R rd root) (hl : Linked R rd rd' root k n t t') (k' : κ) :
    leaf R rd' root k' = leaf R rd root k' := by
  have hlast : R.depth - 1 < R.depth := Nat.sub_one_lt_of_lt R.depth_pos
  rw [leaf, leaf]
  rcases hl.table_eq_of h k' hlast with ⟨hsame, heq, htab⟩ | ⟨-, htab⟩
  · rw [htab, Option.elim_some, hl.rd_fresh, heq, hl.table_none hsame, Option.elim_none]
  · rw [htab]
    cases hu : table R rd root k' (R.depth - 1) with
    | none => rfl
    | some u =>
      refine hl.rest _ (h.slot_mod hlast hu) (fun heq => ?_) (hl.not_mem h hlast hu)
      have hlevel := (h.slot_inj hlast (by have := hl.depth_lt; omega) hu hl.table_eq heq).1
      have := hl.depth_lt
      omega

end Linked

end Wf

/-- Where the words of all tables are as before, so are the tables, the leaves and the tree. -/
theorem Wf.congr (h : Wf R rd root)
    (hrd : ∀ {k n t}, n < R.depth → table R rd root k n = some t → rd' (t + R.offset n k) = rd (t + R.offset n k)) :
    Wf R rd' root ∧ (∀ k, ∀ n < R.depth, table R rd' root k n = table R rd root k n) ∧
      ∀ k, leaf R rd' root k = leaf R rd root k := by
  have htable : ∀ k, ∀ n < R.depth, table R rd' root k n = table R rd root k n := by
    intro k n hn
    induction n with
    | zero => rfl
    | succ n ih =>
      rw [table, table, ih (by omega)]
      cases hu : table R rd root k n with
      | none => rfl
      | some u => rw [Option.bind_some, Option.bind_some, hrd (by omega) hu]
  refine ⟨⟨fun hn ht => ?_, fun hn hn' ht ht' => ?_⟩, htable, fun k => ?_⟩
  · rw [htable _ _ hn] at ht
    exact h.aligned hn ht
  · rw [htable _ _ hn] at ht
    rw [htable _ _ hn'] at ht'
    exact h.distinct hn hn' ht ht'
  · have hlast : R.depth - 1 < R.depth := Nat.sub_one_lt_of_lt R.depth_pos
    rw [leaf, leaf, htable k _ hlast]
    cases hu : table R rd root k (R.depth - 1) with
    | none => rfl
    | some u => rw [Option.elim_some, Option.elim_some, hrd hlast hu]

/-- A single cleared table is a tree without leaves. -/
theorem wf_of_clear (halign : root % R.size = 0) (hclear : ∀ n k, rd (root + R.offset n k) = 0) :
    Wf R rd root ∧ ∀ k, (∀ n, table R rd root k (n + 1) = none) ∧ leaf R rd root k = 0 := by
  have hnone : ∀ k n, table R rd root k (n + 1) = none := by
    intro k n
    induction n with
    | zero => rw [table, table, Option.bind_some, hclear, R.child_zero]
    | succ n ih => rw [table, ih, Option.bind_none]
  have hroot : ∀ {k n t}, table R rd root k n = some t → n = 0 ∧ t = root := by
    intro k n t ht
    cases n with
    | zero => exact ⟨rfl, (Option.some_inj.mp ht).symm⟩
    | succ n =>
      rw [hnone] at ht
      cases ht
  refine ⟨⟨fun _ ht => ?_, fun _ _ ht ht' => ?_⟩, fun k => ⟨hnone k, ?_⟩⟩
  · rw [(hroot ht).2]
    exact halign
  · obtain ⟨rfl, -⟩ := hroot ht
    obtain ⟨rfl, -⟩ := hroot ht'
    exact ⟨rfl, fun i hi => absurd hi (Nat.not_lt_zero i)⟩
  · rw [leaf]
    cases hd : R.depth - 1 with
    | zero => exact hclear 0 k
    | succ d => rw [hnone, Option.elim_none]

end Radix
