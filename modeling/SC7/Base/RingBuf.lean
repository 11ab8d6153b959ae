-- SUMMARY: Ring buffers with two free-running counters that wrap: contents, push, pop, the empty and full tests, and the counters alone for rings of any size.
import Mathlib.Data.List.Range
import Mathlib.Data.Nat.ModEq

/-!
# Ring buffers

A ring of `N` cells is indexed by two counters modulo `M`: `rd` counts what was taken, `wr`
what was put in, and cell `c % N` belongs to count `c`. If `N` divides `M` the cell of a count
does not change when the count wraps, so the ring holds a list: its unread elements in order.
-/

structure RingBuf (α : Type*) where
  data : Nat → α
  rd : Nat
  wr : Nat

namespace RingBuf

variable {α : Type*} {M N : Nat} {r : RingBuf α} {x : α} {xs : List α}

def push (M N : Nat) (r : RingBuf α) (x : α) : RingBuf α :=
  { r with data := Function.update r.data (r.wr % N) x, wr := (r.wr + 1) % M }

def pop (M : Nat) (r : RingBuf α) : RingBuf α := { r with rd := (r.rd + 1) % M }

/-- The number of unread elements, as the counters give it. -/
def count (M : Nat) (r : RingBuf α) : Nat := (r.wr + (M - r.rd)) % M

/-- The unread elements, read off the cells. -/
def contents (M N : Nat) (r : RingBuf α) : List α :=
  (List.range (r.count M)).map fun j => r.data ((r.rd + j) % M % N)

/-- The ring holds `xs`. -/
structure Holds (M N : Nat) (r : RingBuf α) (xs : List α) : Prop where
  rd_lt : r.rd < M
  wr_eq : r.wr = (r.rd + xs.length) % M
  length_le : xs.length ≤ N
  data : ∀ j (h : j < xs.length), r.data ((r.rd + j) % M % N) = xs.get ⟨j, h⟩

namespace Holds

theorem nil {d : Nat → α} (hM : 0 < M) : Holds M N ⟨d, 0, 0⟩ [] where
  rd_lt := hM
  wr_eq := by simp
  length_le := Nat.zero_le _
  data j h := absurd h (Nat.not_lt_zero j)

theorem count_eq (h : Holds M N r xs) (hNM : N < M) : r.count M = xs.length := by
  have h1 := h.rd_lt
  have h2 := h.length_le
  rw [count, h.wr_eq, Nat.mod_add_mod, show r.rd + xs.length + (M - r.rd) = xs.length + M by omega,
    Nat.add_mod_right, Nat.mod_eq_of_lt (by omega)]

theorem contents_eq (h : Holds M N r xs) (hNM : N < M) : r.contents M N = xs := by
  rw [contents, h.count_eq hNM]
  refine List.ext_getElem (by simp) fun j h1 h2 => ?_
  rw [List.getElem_map, List.getElem_range]
  exact h.data j h2

theorem wr_eq_rd_iff (h : Holds M N r xs) (hNM : N < M) : r.rd = r.wr ↔ xs = [] := by
  have h1 := h.count_eq hNM
  have h2 := h.rd_lt
  constructor
  · intro heq
    rw [count, ← heq, show r.rd + (M - r.rd) = M by omega, Nat.mod_self] at h1
    exact List.length_eq_zero_iff.mp h1.symm
  · rintro rfl
    rw [h.wr_eq, List.length_nil, Nat.add_zero, Nat.mod_eq_of_lt h2]

/-- The test for a full ring. -/
theorem wr_eq_add_iff (h : Holds M N r xs) (hNM : N < M) : r.wr = (r.rd + N) % M ↔ xs.length = N := by
  have h1 := h.length_le
  have h2 := h.rd_lt
  rw [h.wr_eq]
  constructor
  · intro heq
    -- both counts are less than a turn away from `rd`
    by_contra hne
    rcases Nat.lt_or_ge (r.rd + N) M with hlt | hge
    · rw [Nat.mod_eq_of_lt hlt, Nat.mod_eq_of_lt (by omega)] at heq
      omega
    · rw [Nat.mod_eq_sub_mod hge, Nat.mod_eq_of_lt (show r.rd + N - M < M by omega)] at heq
      rcases Nat.lt_or_ge (r.rd + xs.length) M with hlt' | hge'
      · rw [Nat.mod_eq_of_lt hlt'] at heq
        omega
      · rw [Nat.mod_eq_sub_mod hge', Nat.mod_eq_of_lt (show r.rd + xs.length - M < M by omega)] at heq
        omega
  · rintro rfl
    rfl

/-- Two counts less than `N` apart have different cells. -/
theorem cell_ne (hdvd : N ∣ M) {a i j : Nat} (hi : i < N) (hj : j < N) (hne : i ≠ j) :
    (a + i) % M % N ≠ (a + j) % M % N := by
  rw [Nat.mod_mod_of_dvd _ hdvd, Nat.mod_mod_of_dvd _ hdvd]
  intro heq
  have hmod : i ≡ j [MOD N] := Nat.ModEq.add_left_cancel' a heq
  exact hne (Nat.ModEq.eq_of_lt_of_lt hmod hi hj)

theorem push (h : Holds M N r xs) (hdvd : N ∣ M) (hlt : xs.length < N) (x : α) :
    Holds M N (r.push M N x) (xs ++ [x]) where
  rd_lt := h.rd_lt
  wr_eq := by
    simp only [RingBuf.push, h.wr_eq, List.length_append, List.length_singleton, Nat.mod_add_mod]
    rw [Nat.add_assoc]
  length_le := by
    rw [List.length_append, List.length_singleton]
    exact hlt
  data j hj := by
    have hcell : r.wr % N = (r.rd + xs.length) % M % N := by rw [h.wr_eq]
    simp only [RingBuf.push, hcell]
    by_cases hjl : j < xs.length
    · rw [Function.update_of_ne (cell_ne hdvd (by omega) hlt (by omega)), h.data j hjl]
      simp [List.getElem_append_left hjl]
    · have hje : j = xs.length := by
        rw [List.length_append, List.length_singleton] at hj
        omega
      subst hje
      rw [Function.update_self]
      simp

theorem pop (h : Holds M N r (x :: xs)) : r.data (r.rd % N) = x ∧ Holds M N (r.pop M) xs := by
  have h1 := h.rd_lt
  have hshift : ∀ j, ((r.rd + 1) % M + j) % M = (r.rd + (j + 1)) % M := fun j => by
    rw [Nat.mod_add_mod]
    congr 1
    omega
  refine ⟨?_, ?_, ?_, ?_, fun j hj => ?_⟩
  · have := h.data 0 (by simp)
    rwa [Nat.add_zero, Nat.mod_eq_of_lt h1] at this
  · exact Nat.mod_lt _ (by omega)
  · rw [RingBuf.pop, hshift, h.wr_eq, List.length_cons]
  · exact Nat.le_of_succ_le h.length_le
  · have := h.data (j + 1) (by simpa using hj)
    simp only [RingBuf.pop, hshift]
    exact this

end Holds

/-! ## The counters alone

If `N` does not divide `M` a cell is lost when a counter wraps, but the number of elements is still the
difference of the counters. -/

/-- The counters are those of a ring with at most `N` elements. -/
structure Bounded (M N : Nat) (r : RingBuf α) : Prop where
  rd_lt : r.rd < M
  wr_lt : r.wr < M
  count_le : r.count M ≤ N

namespace Bounded

/-- Either counter may have wrapped last. -/
theorem count_cases (h : Bounded M N r) : r.rd + r.count M = r.wr ∨ r.rd + r.count M = r.wr + M ∧ r.wr < r.rd := by
  have hrd := h.rd_lt
  have hwr := h.wr_lt
  rw [count]
  rcases Nat.lt_or_ge r.wr r.rd with hlt | hge
  · right
    rw [Nat.mod_eq_of_lt (by omega)]
    omega
  · left
    rw [show r.wr + (M - r.rd) = r.wr - r.rd + M by omega, Nat.add_mod_right, Nat.mod_eq_of_lt (by omega)]
    omega

theorem empty_iff (h : Bounded M N r) : r.rd = r.wr ↔ r.count M = 0 := by
  have hrd := h.rd_lt
  rcases h.count_cases with heq | ⟨heq, hlt⟩
  · omega
  · omega

/-- The test for a full ring by equality is right for every pair of counters. -/
theorem full_iff (h : Bounded M N r) (hNM : N < M) : r.wr = (r.rd + N) % M ↔ r.count M = N := by
  have hrd := h.rd_lt
  have hwr := h.wr_lt
  have hle := h.count_le
  rcases Nat.lt_or_ge (r.rd + N) M with hsum | hsum
  · rw [Nat.mod_eq_of_lt hsum]
    rcases h.count_cases with heq | ⟨heq, hlt⟩
    · omega
    · omega
  · rw [Nat.mod_eq_sub_mod hsum, Nat.mod_eq_of_lt (by omega)]
    rcases h.count_cases with heq | ⟨heq, hlt⟩
    · omega
    · omega

/-- The test for room by comparison is wrong while only the bound has wrapped. -/
theorem room_iff (h : Bounded M N r) (hNM : N < M) :
    r.wr < (r.rd + N) % M ↔ r.count M < N ∧ (r.rd + N < M ∨ r.wr < r.rd) := by
  have hrd := h.rd_lt
  have hle := h.count_le
  rcases Nat.lt_or_ge (r.rd + N) M with hsum | hsum
  · rw [Nat.mod_eq_of_lt hsum]
    rcases h.count_cases with heq | ⟨heq, hlt⟩
    · omega
    · omega
  · rw [Nat.mod_eq_sub_mod hsum, Nat.mod_eq_of_lt (by omega)]
    rcases h.count_cases with heq | ⟨heq, hlt⟩
    · omega
    · omega

/-- The two tests tell the same about room for someone who can use it, exactly if the bound has not wrapped
alone and a full ring is no use to anyone else. -/
theorem room_agrees_iff (h : Bounded M N r) (hNM : N < M) (live : Prop) :
    (r.wr < (r.rd + N) % M ↔ ¬(live ∧ r.wr = (r.rd + N) % M)) ↔
      (r.rd + N < M ∨ r.wr < r.rd) ∧ (r.wr = (r.rd + N) % M → live) := by
  by_cases hfull : r.wr = (r.rd + N) % M
  · have hcount := (h.full_iff hNM).mp hfull
    have hturn : r.rd + N < M ∨ r.wr < r.rd := by
      have hwr := h.wr_lt
      rcases h.count_cases with heq | ⟨-, hlt⟩
      · exact Or.inl (by omega)
      · exact Or.inr hlt
    have hno : ¬r.wr < (r.rd + N) % M := by omega
    simp only [hno, hturn, true_and, false_iff, not_not]
    exact ⟨fun hl _ => hl.1, fun hl => ⟨hl hfull, hfull⟩⟩
  · have hlt : r.count M < N := lt_of_le_of_ne h.count_le (mt (h.full_iff hNM).mpr hfull)
    rw [h.room_iff hNM]
    simp [hfull, hlt]

theorem start {d : Nat → α} {n : Nat} (hn : n ≤ N) (hNM : N < M) : Bounded M N ⟨d, 0, n⟩ where
  rd_lt := Nat.zero_lt_of_lt hNM
  wr_lt := lt_of_le_of_lt hn hNM
  count_le := by
    simp only [count, Nat.sub_zero, Nat.add_mod_right]
    rw [Nat.mod_eq_of_lt (lt_of_le_of_lt hn hNM)]
    exact hn

theorem push (h : Bounded M N r) (hNM : N < M) (hfull : r.wr ≠ (r.rd + N) % M) (x : α) :
    Bounded M N (r.push M N x) := by
  have hrd := h.rd_lt
  have hwr := h.wr_lt
  have hlt : r.count M < N := lt_of_le_of_ne h.count_le (mt (h.full_iff hNM).mpr hfull)
  have hcases := h.count_cases
  refine ⟨hrd, Nat.mod_lt _ (by omega), ?_⟩
  have hcount : (r.push M N x).count M = (r.count M + 1) % M := by
    simp only [RingBuf.push, count]
    rw [Nat.mod_add_mod, Nat.mod_add_mod, show r.wr + 1 + (M - r.rd) = r.wr + (M - r.rd) + 1 by omega]
  rw [hcount, Nat.mod_eq_of_lt (by omega)]
  exact hlt

theorem pop (h : Bounded M N r) (hempty : r.rd ≠ r.wr) : Bounded M N (r.pop M) := by
  have hrd := h.rd_lt
  have hwr := h.wr_lt
  have hle := h.count_le
  have hcases := h.count_cases
  have hpop : Bounded M M (r.pop M) := ⟨Nat.mod_lt _ (by omega), hwr, le_of_lt (Nat.mod_lt _ (by omega))⟩
  refine ⟨hpop.rd_lt, hwr, ?_⟩
  have hmod : (r.pop M).count M < M := Nat.mod_lt _ (by omega)
  have hcases' := hpop.count_cases
  simp only [RingBuf.pop] at hcases' hmod ⊢
  rcases Nat.lt_or_ge (r.rd + 1) M with hlt | hge
  · rw [Nat.mod_eq_of_lt hlt] at hcases' hmod ⊢
    omega
  · rw [Nat.mod_eq_sub_mod hge, Nat.mod_eq_of_lt (by omega)] at hcases' hmod ⊢
    omega

end Bounded

/-! ## Taking elements

What a consumer sees of a ring whose cells hold anything: the counters bound the elements, and each count has
its cell. -/

theorem Bounded.count_pop (h : Bounded M N r) (hne : r.rd ≠ r.wr) : (r.pop M).count M + 1 = r.count M := by
  have hrd := h.rd_lt
  have hwr := h.wr_lt
  have hcases := h.count_cases
  have hpop : (r.pop M).count M = (r.wr + (M - (r.rd + 1) % M)) % M := rfl
  rw [hpop]
  rcases Nat.lt_or_ge (r.rd + 1) M with hlt | hge
  · rw [Nat.mod_eq_of_lt hlt]
    rcases Nat.lt_or_ge r.wr (r.rd + 1) with hwrap | hwrap
    · rw [Nat.mod_eq_of_lt (by omega)]
      omega
    · rw [show r.wr + (M - (r.rd + 1)) = r.wr - (r.rd + 1) + M by omega, Nat.add_mod_right,
        Nat.mod_eq_of_lt (by omega)]
      omega
  · rw [show r.rd + 1 = M by omega, Nat.mod_self, Nat.sub_zero, Nat.add_mod_right, Nat.mod_eq_of_lt hwr]
    omega

@[simp]
theorem length_contents : (r.contents M N).length = r.count M := by
  rw [contents, List.length_map, List.length_range]

/-- The counters of a ring whose size does not matter. -/
theorem Bounded.any (hrd : r.rd < M) (hwr : r.wr < M) : Bounded M M r :=
  ⟨hrd, hwr, le_of_lt (Nat.mod_lt _ (by omega))⟩

/-- The next element is the first unread one. -/
theorem Bounded.contents_pop (h : Bounded M M r) (hne : r.rd ≠ r.wr) :
    r.contents M N = r.data (r.rd % N) :: (r.pop M).contents M N := by
  have hcell : ∀ j, ((r.rd + 1) % M + j) % M % N = (r.rd + (j + 1)) % M % N := fun j => by
    rw [Nat.mod_add_mod, show r.rd + 1 + j = r.rd + (j + 1) by omega]
  rw [contents, ← h.count_pop hne, List.range_succ_eq_map, List.map_cons, List.map_map, contents,
    Nat.add_zero, Nat.mod_eq_of_lt h.rd_lt]
  congr 1
  apply List.map_congr_left
  intro j _
  simp only [Function.comp_apply, RingBuf.pop, hcell]

/-- A consumer takes an element before it knows whether it can deliver it: up to `m` elements from index `i`
on, until one fails. -/
def takeLoop (M : Nat) (ok : Nat → Bool) (r : RingBuf α) (i : Nat) : Nat → RingBuf α × Nat
  | 0 => (r, i)
  | m + 1 =>
    if r.rd = r.wr then (r, i)
    else if ok i then takeLoop M ok (r.pop M) (i + 1) m
    else (r.pop M, i)

section Take

variable {ok : Nat → Bool} {i m : Nat}

theorem Bounded.takeLoop (h : Bounded M M r) : Bounded M M (r.takeLoop M ok i m).1 := by
  induction m generalizing r i with
  | zero => exact h
  | succ m ih =>
    unfold RingBuf.takeLoop
    split
    · exact h
    · rename_i hne
      split
      · exact ih (h.pop hne)
      · exact h.pop hne

/-- What all elements allow to deliver leaves the ring in order. -/
theorem takeLoop_all (h : Bounded M M r) (hok : ∀ j, j < m → j < r.count M → ok (i + j) = true) :
    (r.takeLoop M ok i m).2 = i + min m (r.count M) ∧
      (r.takeLoop M ok i m).1.contents M N = (r.contents M N).drop (min m (r.count M)) := by
  induction m generalizing r i with
  | zero => simp [takeLoop]
  | succ m ih =>
    unfold takeLoop
    split
    · rename_i hempty
      simp [h.empty_iff.mp hempty]
    · rename_i hne
      have hcount := h.count_pop hne
      have hfirst : ok i = true := by simpa using hok 0 (by omega) (by omega)
      obtain ⟨htaken, hrest⟩ := ih (h.pop hne) (i := i + 1) fun j hj hjc => by
        rw [show i + 1 + j = i + (j + 1) by omega]
        exact hok (j + 1) (by omega) (by omega)
      rw [if_pos hfirst]
      refine ⟨?_, ?_⟩
      · rw [htaken]
        omega
      · rw [hrest, h.contents_pop hne, show min (m + 1) (r.count M) = min m ((r.pop M).count M) + 1 by omega,
          List.drop_succ_cons]

/-- An element that cannot be delivered is lost. -/
theorem takeLoop_lost (h : Bounded M M r) {j : Nat} (hjm : j < m) (hjc : j < r.count M) (hfail : ok (i + j) = false) :
    i ≤ (r.takeLoop M ok i m).2 ∧
      (r.takeLoop M ok i m).2 + (r.takeLoop M ok i m).1.count M + 1 = i + r.count M := by
  induction m generalizing r i j with
  | zero => omega
  | succ m ih =>
    unfold takeLoop
    split
    · rename_i hempty
      have := h.empty_iff.mp hempty
      omega
    · rename_i hne
      have hcount := h.count_pop hne
      split
      · rename_i hfirst
        obtain _ | j := j
        · rw [Nat.add_zero, hfirst] at hfail
          cases hfail
        · rw [show i + (j + 1) = i + 1 + j by omega] at hfail
          obtain ⟨hle, hsum⟩ := ih (h.pop hne) (by omega) (by omega) hfail
          omega
      · simp only [le_refl, true_and]
        omega

/-- The consumer takes from the ring what it delivers exactly if it can deliver all that it asks for. -/
theorem takeLoop_exact_iff (h : Bounded M M r) :
    ((r.takeLoop M ok 0 m).2 ≤ r.count M ∧
      (r.takeLoop M ok 0 m).1.contents M N = (r.contents M N).drop (r.takeLoop M ok 0 m).2) ↔
    ∀ j, j < m → j < r.count M → ok j = true := by
  constructor
  · rintro ⟨hle, heq⟩ j hjm hjc
    by_contra hfail
    have hno : ok (0 + j) = false := by simpa using hfail
    have hlost := takeLoop_lost h hjm hjc hno
    have hlen := congrArg List.length heq
    rw [length_contents, List.length_drop, length_contents] at hlen
    omega
  · intro hok
    obtain ⟨htaken, hrest⟩ := takeLoop_all h (i := 0) (m := m) (N := N) fun j hjm hjc => by
      simpa using hok j hjm hjc
    rw [Nat.zero_add] at htaken
    rw [htaken]
    exact ⟨Nat.min_le_right _ _, hrest⟩

end Take

/-! ## Putting elements

A producer that only looks at the number of elements writes to the cell of the next count. Counts that share a
cell, because one of them has wrapped, are in each other's way. -/

/-- Elements that share a cell are the same. -/
def Agree (M N rd : Nat) (xs : List α) : Prop :=
  ∀ j k (hj : j < xs.length) (hk : k < xs.length), (rd + j) % M % N = (rd + k) % M % N → xs[j] = xs[k]

/-- The ring with these elements put in. -/
def pushAll (M N : Nat) (r : RingBuf α) (xs : List α) : RingBuf α := xs.foldl (fun r x => r.push M N x) r

@[simp]
theorem pushAll_nil : r.pushAll M N [] = r := rfl

@[simp]
theorem pushAll_cons : r.pushAll M N (x :: xs) = (r.push M N x).pushAll M N xs := rfl

theorem getElem_contents {j : Nat} (h : j < (r.contents M N).length) :
    (r.contents M N)[j] = r.data ((r.rd + j) % M % N) := by
  simp [contents]

theorem agree_contents : Agree M N r.rd (r.contents M N) := by
  intro j k hj hk hcell
  rw [getElem_contents, getElem_contents, hcell]

section Put

theorem count_push (hroom : r.count M + 1 < M) : (r.push M N x).count M = r.count M + 1 := by
  have hcount : (r.push M N x).count M = (r.count M + 1) % M := by
    simp only [RingBuf.push, count]
    rw [Nat.mod_add_mod, Nat.mod_add_mod, show r.wr + 1 + (M - r.rd) = r.wr + (M - r.rd) + 1 by omega]
  rw [hcount, Nat.mod_eq_of_lt hroom]

theorem Bounded.push_any (h : Bounded M M r) : Bounded M M (r.push M N x) :=
  .any h.rd_lt (Nat.mod_lt _ (Nat.zero_lt_of_lt h.rd_lt))

/-- The count of the next element. -/
theorem Bounded.wr_eq (h : Bounded M M r) : r.wr = (r.rd + r.count M) % M := by
  have hwr := h.wr_lt
  rcases h.count_cases with heq | ⟨heq, -⟩
  · rw [heq, Nat.mod_eq_of_lt hwr]
  · rw [heq, Nat.add_mod_right, Nat.mod_eq_of_lt hwr]

/-- An element that is put in is behind the others, if it agrees with them. -/
theorem Bounded.contents_push (h : Bounded M M r) (hroom : r.count M + 1 < M)
    (hagree : Agree M N r.rd (r.contents M N ++ [x])) : (r.push M N x).contents M N = r.contents M N ++ [x] := by
  have hlen : (r.contents M N).length = r.count M := length_contents
  apply List.ext_getElem
  · rw [length_contents, count_push hroom, List.length_append, hlen]
    rfl
  · intro j hj hj'
    have hroomy : r.count M < (r.contents M N ++ [x]).length := by simp
    have hlast : (r.contents M N ++ [x])[r.count M] = x := by
      rw [List.getElem_append_right (by rw [hlen])]
      simp
    by_cases hcell : (r.rd + j) % M % N = r.wr % N
    · -- the cell that is written
      have hsame := hagree j (r.count M) hj' (by simp) (by rw [hcell, ← h.wr_eq])
      rw [hsame, hlast, getElem_contents]
      unfold RingBuf.push
      dsimp only
      rw [hcell, Function.update_self]
    · have hlt : j < r.count M := by
        rw [length_contents, count_push hroom] at hj
        have hne : j ≠ r.count M := by
          rintro rfl
          exact hcell (by rw [← h.wr_eq])
        omega
      rw [List.getElem_append_left (by rw [hlen]; exact hlt), getElem_contents, getElem_contents]
      unfold RingBuf.push
      exact Function.update_of_ne hcell _ _

/-- A ring without a free cell for each element keeps what it holds exactly if elements that share a cell
are the same. -/
theorem Bounded.contents_pushAll_iff (h : Bounded M M r) (hroom : r.count M + xs.length < M) :
    (r.pushAll M N xs).contents M N = r.contents M N ++ xs ↔ Agree M N r.rd (r.contents M N ++ xs) := by
  constructor
  · intro heq
    have hrd : ∀ (ys : List α) (r' : RingBuf α), (r'.pushAll M N ys).rd = r'.rd := by
      intro ys
      induction ys with
      | nil => exact fun _ => rfl
      | cons y ys ih => exact fun r' => ih _
    rw [← heq, ← hrd xs r]
    exact agree_contents
  · intro hagree
    induction xs generalizing r with
    | nil => simp
    | cons x xs ih =>
      rw [List.length_cons] at hroom
      have hsplit : r.contents M N ++ x :: xs = (r.contents M N ++ [x]) ++ xs := by simp
      have hfirst : Agree M N r.rd (r.contents M N ++ [x]) := by
        intro j k hj hk hcell
        have hall := hagree j k (by simp at hj ⊢; omega) (by simp at hk ⊢; omega) hcell
        simp only [hsplit] at hall
        rwa [List.getElem_append_left hj, List.getElem_append_left hk] at hall
      have hpush := h.contents_push (by omega) hfirst
      have hcount : (r.push M N x).count M = r.count M + 1 := count_push (by omega)
      rw [pushAll_cons, ih (r := r.push M N x) h.push_any (by omega), hpush, ← hsplit]
      rw [hpush, ← hsplit]
      exact hagree

end Put

end RingBuf
