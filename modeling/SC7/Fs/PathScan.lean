-- SUMMARY: The main loop of `cal_absolute_path`: reading the letters once, with the segments in front of the cursor on a stack.
import SC7.Fs.Path

/-!
# The main loop of path resolution

`cal_absolute_path` does not split the path. Its main loop deletes `./` and `../` where it meets them.
`scan` says what that leaves: it reads each letter once and keeps the segments in front of the cursor on
a stack. One lemma says what becomes of a piece between two slashes, by the dots at its end.
-/

namespace SC7.Path

open Exec (Str str)
open Components (spell)

/-- What `../` takes away from the segments in front of it. A name right before the dots goes alone. -/
def dropSegment : List Str → List Str
  | [] => []
  | u :: st => if u = [] then st.tail else st

/-- A letter that the cursor passes. -/
def pass (x : UInt8) (st : List Str) : List Str :=
  if x = slash then [] :: st
  else
    match st with
    | [] => [[x]]
    | u :: st => (u ++ [x]) :: st

/-- The segments that the main loop leaves of a string, with those in front of the cursor. The last
segment comes first. -/
def scan : List Str → Str → List Str
  | st, [] => st
  | st, x :: r =>
    if [dot, slash] <+: x :: r then scan st (r.drop 1)
    else if [dot, dot, slash] <+: x :: r then scan ([] :: dropSegment st) (r.drop 2)
    else scan (pass x st) r
termination_by _ r => r.length

variable {s t u c : Str} {st : List Str} {target : List Str} {x : UInt8} {k : Nat}

/-! ## The main loop leaves what `scan` says -/

section Loop

theorem getElem?_behind (a b : Str) (k : Nat) : (a ++ b)[a.length + k]? = b[k]? := by
  rw [List.getElem?_append_right (Nat.le_add_right _ _), Nat.add_sub_cancel_left]

theorem getElem?_at (a b : Str) : (a ++ b)[a.length]? = b[0]? := getElem?_behind a b 0

theorem drop_behind (a b : Str) (k : Nat) : (a ++ b).drop (a.length + k) = b.drop k := by
  rw [List.drop_append, List.drop_eq_nil_of_le (Nat.le_add_right _ _), Nat.add_sub_cancel_left, List.nil_append]

/-- Inside a segment, its start is found. -/
theorem segmentStart_inside (a t : Str) (hu : slash ∉ u) (hk : k ≤ u.length) :
    segmentStart (a ++ slash :: u ++ t) (a.length + 1 + k) = a.length + 1 := by
  induction k with
  | zero =>
    rw [Nat.add_zero, segmentStart, List.append_assoc, if_pos]
    exact getElem?_at a _
  | succ k ih =>
    rw [← Nat.add_assoc, segmentStart, if_neg]
    · exact ih (by omega)
    · rw [Nat.add_assoc, List.append_assoc, getElem?_behind, Nat.add_comm, List.cons_append,
        List.getElem?_cons_succ, List.getElem?_append_left (by omega)]
      intro hslash
      exact hu (List.mem_of_getElem? hslash)

/-- The cursor stands behind segments of which the rest of the string makes `target`. -/
def Follows (target : List Str) (c : Cursor) : Prop :=
  ∃ st rest, c = ⟨spell slash st ++ rest, (spell slash st).length⟩ ∧ (∀ u ∈ st, slash ∉ u) ∧
    (st = [] → rest[0]? = some slash) ∧ scan st rest = target

theorem atDot_iff {a rest : Str} : Cursor.AtDot ⟨a ++ rest, a.length⟩ ↔ [dot, slash] <+: rest := by
  unfold Cursor.AtDot
  simp only [getElem?_behind, getElem?_at]
  match rest with
  | [] => simp
  | [a] => simp
  | a :: b :: rest => simp [List.cons_prefix_cons, eq_comm]

theorem atDotdot_iff {a rest : Str} : Cursor.AtDotdot ⟨a ++ rest, a.length⟩ ↔ [dot, dot, slash] <+: rest := by
  unfold Cursor.AtDotdot
  simp only [getElem?_behind, getElem?_at]
  match rest with
  | [] => simp
  | [a] => simp
  | [a, b] => simp
  | a :: b :: c :: rest => simp [List.cons_prefix_cons, eq_comm]

/-- The cut that takes a segment away. -/
theorem cut_segment (w t r : Str) (hu : slash ∉ u) (hk : k ≤ u.length) :
    (match segmentStart (w ++ slash :: u ++ t) (w.length + 1 + k) with
      | 0 => none
      | start + 1 => some (⟨(w ++ slash :: u ++ t).take (start + 1) ++ r, start⟩ : Cursor)) =
      some ⟨w ++ slash :: r, w.length⟩ := by
  rw [segmentStart_inside w t hu hk]
  simp only
  rw [List.append_assoc, List.take_append, List.take_of_length_le (Nat.le_succ _), Nat.add_sub_cancel_left,
    List.cons_append, List.take_succ_cons, List.take_zero, List.append_assoc, List.singleton_append]

/-- `../` behind segments cuts the string in front of what `dropSegment` takes away. -/
theorem step_dotdot (hsegs : ∀ u ∈ st, slash ∉ u) (hne : st ≠ []) (r : Str) :
    Cursor.step ⟨spell slash st ++ ([dot, dot, slash] ++ r), (spell slash st).length⟩ =
      some ⟨spell slash (dropSegment st) ++ slash :: r, (spell slash (dropSegment st)).length⟩ := by
  have hdot : ¬[dot, slash] <+: [dot, dot, slash] ++ r := by simp [List.cons_prefix_cons, dot, slash]
  rw [Cursor.step, if_neg (mt atDot_iff.mp hdot), if_pos (atDotdot_iff.mpr (List.prefix_append _ r)), drop_behind]
  obtain ⟨u, st, rfl⟩ := List.exists_cons_of_ne_nil hne
  have hu := hsegs u List.mem_cons_self
  have hlen : (spell slash (u :: st)).length = (spell slash st).length + 1 + u.length := by
    rw [spell, List.length_append, List.length_cons]
    omega
  rw [hlen]
  split
  · rename_i hshort
    simp only at hshort
    obtain rfl : st = [] := by
      rw [← Components.spell_eq_nil slash, ← List.length_eq_zero_iff]
      omega
    obtain rfl : u = [] := List.length_eq_zero_iff.mp (by omega)
    rfl
  · rename_i hlong
    simp only at hlong ⊢
    by_cases hempty : u = []
    · subst hempty
      cases st with
      | nil =>
        exact absurd (Nat.lt_succ_self 1) hlong
      | cons v st =>
        -- the letter before the dots is the slash behind the segment
        have hp : (spell slash (v :: st)).length + 1 + ([] : Str).length - 1 =
            (spell slash st).length + 1 + v.length := by
          rw [spell, List.length_append, List.length_cons, List.length_nil]
          omega
        have hs : spell slash ([] :: v :: st) ++ ([dot, dot, slash] ++ r) =
            spell slash st ++ slash :: v ++ (slash :: ([dot, dot, slash] ++ r)) := by
          simp only [spell, List.append_assoc, List.cons_append, List.nil_append]
        rw [hp, hs, dropSegment, if_pos rfl, List.tail_cons]
        exact cut_segment _ _ _ (hsegs v (List.mem_cons_of_mem _ List.mem_cons_self)) le_rfl
    · have hpos := List.length_pos_iff.mpr hempty
      rw [dropSegment, if_neg hempty, spell, Nat.add_sub_assoc hpos]
      exact cut_segment _ _ _ hu (Nat.sub_le _ _)

theorem scan_slash (st : List Str) (r : Str) : scan st (slash :: r) = scan ([] :: st) r := by
  rw [scan, if_neg (by simp [List.cons_prefix_cons, dot, slash]), if_neg (by simp [List.cons_prefix_cons, dot, slash])]
  unfold pass
  rw [if_pos rfl]

theorem scan_dot_slash (st : List Str) (r : Str) : scan st (dot :: slash :: r) = scan st r := by
  rw [scan, if_pos ⟨r, rfl⟩]
  rfl

theorem scan_dotdot_slash (st : List Str) (r : Str) :
    scan st (dot :: dot :: slash :: r) = scan ([] :: dropSegment st) r := by
  rw [scan, if_neg (by simp [List.cons_prefix_cons, dot, slash]), if_pos ⟨r, rfl⟩]
  rfl

theorem mem_dropSegment (h : u ∈ dropSegment st) : u ∈ st := by
  cases st with
  | nil => exact h
  | cons v st =>
    rw [dropSegment] at h
    split at h
    · exact List.mem_cons_of_mem v (List.mem_of_mem_tail h)
    · exact List.mem_cons_of_mem v h

theorem spell_pass (hst : st = [] → x = slash) : spell slash (pass x st) = spell slash st ++ [x] := by
  unfold pass
  by_cases hx : x = slash
  · rw [if_pos hx, spell, hx]
  · rw [if_neg hx]
    cases st with
    | nil => exact absurd (hst rfl) hx
    | cons u st => simp [spell]

theorem pass_segments (hsegs : ∀ u ∈ st, slash ∉ u) : ∀ u ∈ pass x st, slash ∉ u := by
  intro u hu
  unfold pass at hu
  by_cases hx : x = slash
  · rw [if_pos hx] at hu
    rcases List.mem_cons.mp hu with rfl | hu
    · exact List.not_mem_nil
    · exact hsegs u hu
  · rw [if_neg hx] at hu
    have hnew : slash ∉ [x] := fun h => hx (List.mem_singleton.mp h).symm
    cases st with
    | nil =>
      rw [List.mem_singleton.mp hu]
      exact hnew
    | cons v st =>
      rcases List.mem_cons.mp hu with rfl | hu
      · rw [List.mem_append, not_or]
        exact ⟨hsegs v List.mem_cons_self, hnew⟩
      · exact hsegs u (List.mem_cons_of_mem v hu)

theorem pass_ne_nil : pass x st ≠ [] := by
  unfold pass
  split
  · exact List.cons_ne_nil _ _
  · split
    · exact List.cons_ne_nil _ _
    · exact List.cons_ne_nil _ _

/-- One round of the loop keeps what is left to be made of the string. -/
theorem Follows.step {c : Cursor} (h : Follows target c) (hmore : c.more = true) :
    ∃ c', c.step = some c' ∧ Follows target c' := by
  obtain ⟨st, rest, rfl, hsegs, hhead, hscan⟩ := h
  obtain ⟨x, r, rfl⟩ : ∃ x r, rest = x :: r := by
    refine List.exists_cons_of_ne_nil ?_
    rintro rfl
    simp [Cursor.more] at hmore
  rw [scan] at hscan
  by_cases hdot : [dot, slash] <+: x :: r
  · rw [if_pos hdot] at hscan
    have hne : st ≠ [] := by
      intro hst
      rw [← (List.cons_prefix_cons.mp hdot).1] at hhead
      cases hhead hst
    refine ⟨⟨spell slash st ++ r.drop 1, (spell slash st).length⟩, ?_, st, _, rfl, hsegs, fun h => absurd h hne, hscan⟩
    rw [Cursor.step, if_pos (atDot_iff.mpr hdot), drop_behind, List.take_left]
    rfl
  · rw [if_neg hdot] at hscan
    by_cases hdotdot : [dot, dot, slash] <+: x :: r
    · rw [if_pos hdotdot] at hscan
      obtain ⟨r', hr'⟩ := hdotdot
      obtain ⟨rfl, rfl⟩ := List.cons_eq_cons.mp hr'
      have hne : st ≠ [] := by
        intro hst
        cases hhead hst
      refine ⟨_, step_dotdot hsegs hne r', dropSegment st, slash :: r', rfl, ?_, fun _ => rfl, ?_⟩
      · exact fun u hu => hsegs u (mem_dropSegment hu)
      · exact (scan_slash _ r').trans hscan
    · rw [if_neg hdotdot] at hscan
      have hstep : Cursor.step ⟨spell slash st ++ x :: r, (spell slash st).length⟩ =
          some ⟨spell slash st ++ x :: r, (spell slash st).length + 1⟩ := by
        rw [Cursor.step, if_neg (mt atDot_iff.mp hdot), if_neg (mt atDotdot_iff.mp hdotdot)]
      have hpass : spell slash (pass x st) = spell slash st ++ [x] :=
        spell_pass fun hst => by simpa using hhead hst
      refine ⟨_, hstep, pass x st, r, ?_, pass_segments hsegs, fun h => absurd h pass_ne_nil, hscan⟩
      rw [hpass, List.append_assoc, List.length_append]
      rfl

/-- The main loop leaves the segments that `scan` says. -/
theorem rewriteDots_eq (hhead : s[0]? = some slash) : rewriteDots s = some (spell slash (scan [] s)) := by
  have hscanned : Scanned ⟨s, 0⟩ :=
    ⟨hhead, Nat.zero_le _, fun _ hi => absurd hi (Nat.not_lt_zero _), fun _ hi => absurd hi (Nat.succ_ne_zero _)⟩
  have hfollows : Follows (scan [] s) ⟨s, 0⟩ := ⟨[], s, rfl, by simp, fun _ => hhead, rfl⟩
  have hfuel : measure ⟨s, 0⟩ ≤ s.length * (s.length + 2) := by
    rw [measure, Nat.mul_add, Nat.mul_add]
    simp only
    omega
  obtain ⟨c, hrun, ⟨-, st, rest, rfl, -, -, htarget⟩, hend⟩ :=
    Loop.run_total (I := fun c => Scanned c ∧ Follows (scan [] s) c) measure (fun c hc hmore => by
        obtain ⟨c', hstep, hscanned', hlt⟩ := hc.1.step hmore
        obtain ⟨c'', hstep', hfollows'⟩ := hc.2.step hmore
        obtain rfl : c'' = c' := Option.some.inj (hstep'.symm.trans hstep)
        exact ⟨c'', hstep, ⟨hscanned', hfollows'⟩, hlt⟩)
      ⟨hscanned, hfollows⟩ hfuel
  have hrest : rest = [] := by
    have hlen : (spell slash st ++ rest).length ≤ (spell slash st).length := by simpa [Cursor.more] using hend
    rw [List.length_append] at hlen
    exact List.length_eq_zero_iff.mp (by omega)
  rw [hrest, scan] at htarget
  rw [rewriteDots, hrun, Option.map_some, hrest, htarget, List.append_nil]

end Loop

/-! ## One piece at a time -/

section Pieces

/-- The letters of a piece go to the segment in front, up to a `./` or `../` at its end. -/
theorem scan_letters (u : Str) (st : List Str) (t : Str) (hc : slash ∉ c) (hend : [dot] <:+ c → ¬[slash] <+: t ∧ ¬[dot, slash] <+: t) :
    scan (u :: st) (c ++ t) = scan ((u ++ c) :: st) t := by
  induction c generalizing u with
  | nil => rw [List.nil_append, List.append_nil]
  | cons x c ih =>
    obtain ⟨hx, hc⟩ := not_or.mp (mt List.mem_cons.mpr hc)
    have hdot : ¬[dot, slash] <+: x :: (c ++ t) := by
      intro hat
      obtain ⟨heq, hat⟩ := List.cons_prefix_cons.mp hat
      cases c with
      | nil => exact (hend (heq ▸ List.suffix_rfl)).1 hat
      | cons y c =>
        obtain ⟨heq', -⟩ := List.cons_prefix_cons.mp hat
        exact hc (heq' ▸ List.mem_cons_self)
    have hdotdot : ¬[dot, dot, slash] <+: x :: (c ++ t) := by
      intro hat
      obtain ⟨heq, hat⟩ := List.cons_prefix_cons.mp hat
      match c with
      | [] => exact (hend (heq ▸ List.suffix_rfl)).2 hat
      | [y] =>
        obtain ⟨heq', hat⟩ := List.cons_prefix_cons.mp hat
        exact (hend (heq' ▸ List.suffix_cons x [dot])).1 hat
      | y :: z :: c =>
        obtain ⟨-, hat⟩ := List.cons_prefix_cons.mp hat
        obtain ⟨heq', -⟩ := List.cons_prefix_cons.mp hat
        exact hc (List.mem_cons_of_mem y (heq' ▸ List.mem_cons_self))
    have hrest : [dot] <:+ c → ¬[slash] <+: t ∧ ¬[dot, slash] <+: t :=
      fun h => hend (h.trans (List.suffix_cons x c))
    have hpass : pass x (u :: st) = (u ++ [x]) :: st := by
      unfold pass
      rw [if_neg (Ne.symm hx)]
    rw [List.cons_append, scan, if_neg hdot, if_neg hdotdot, hpass, ih _ hc hrest, List.append_assoc,
      List.singleton_append]

/-- The last piece stays as it is. -/
theorem scan_last (hc : slash ∉ c) : scan (u :: st) c = (u ++ c) :: st := by
  have hletters := scan_letters u st [] hc (by simp)
  rwa [List.append_nil, scan] at hletters

/-- A piece that does not end in a dot becomes a segment. -/
theorem scan_name (hc : slash ∉ c) (hdot : ¬[dot] <:+ c) (r : Str) :
    scan (u :: st) (c ++ slash :: r) = scan ([] :: (u ++ c) :: st) r := by
  rw [scan_letters _ _ _ hc fun h => absurd h hdot, scan_slash]

/-- A dot at the end of a piece is lost together with the slash. -/
theorem scan_here (hc : slash ∉ c) (hdot : ¬[dot] <:+ c) (r : Str) :
    scan (u :: st) (c ++ [dot] ++ slash :: r) = scan ((u ++ c) :: st) r := by
  rw [List.append_assoc, scan_letters _ _ _ hc fun h => absurd h hdot]
  exact scan_dot_slash _ r

/-- Two dots at the end of a piece take the piece away, or a whole segment if they are all of it. -/
theorem scan_back (hc : slash ∉ c) (r u : Str) (st : List Str) :
    scan (u :: st) (c ++ [dot, dot] ++ slash :: r) = scan ([] :: dropSegment ((u ++ c) :: st)) r := by
  rw [List.append_assoc, scan_letters _ _ _ hc fun _ => by simp [List.cons_prefix_cons, dot, slash]]
  exact scan_dotdot_slash _ r

/-- If only `.` follows, the last of them ends the segment. -/
theorem scan_dots {ps : List Str} (hne : ps ≠ []) (hps : ∀ c ∈ ps, c = [dot]) :
    scan (u :: st) ([slash].intercalate ps) = (u ++ [dot]) :: st := by
  induction ps with
  | nil => exact absurd rfl hne
  | cons c ps ih =>
    obtain rfl := hps c List.mem_cons_self
    cases ps with
    | nil =>
      rw [List.intercalate_singleton]
      exact scan_last (by decide)
    | cons d ps =>
      have hhere : scan (u :: st) ([] ++ [dot] ++ slash :: [slash].intercalate (d :: ps)) = scan ((u ++ []) :: st) _ :=
        scan_here List.not_mem_nil (by decide) _
      rw [List.intercalate_cons_cons, List.append_assoc]
      rw [List.append_nil] at hhere
      exact hhere.trans (ih (List.cons_ne_nil d ps) fun c hc => hps c (List.mem_cons_of_mem _ hc))

end Pieces

end SC7.Path
