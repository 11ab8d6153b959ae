-- SUMMARY: Path resolution (`inode.c`): the in-place rewriting of `cal_absolute_path`, and the confinement of `get_absolute_path` to the root of a process.
import SC7.Base.Components
import SC7.Kernel.Exec

/-!
# Path resolution

`cal_absolute_path` puts the path behind the working directory and deletes `./` and `../` in place with
a cursor that also moves backwards. It looks for these letters anywhere, not only for whole components,
so `foo./bar` becomes `foobar`. `get_absolute_path` then compares the start of the result with the root
of the process.

The buffer is as long as it has to be. A read in front of its start is a failure (`none`).
-/

namespace SC7.Path

open Exec (Str str)

def slash : UInt8 := 47
def dot : UInt8 := 46

/-! ## `cal_absolute_path` -/

/-- The string that is rewritten: the path itself, or the path behind the working directory. -/
def joined (path : Option Str) (cwd : Str) : Str :=
  match path with
  | none => cwd
  | some [] => cwd
  | some (c :: path) =>
    if c = slash then c :: path
    else if cwd ≠ [] ∧ cwd.getLast? ≠ some slash then cwd ++ slash :: c :: path
    else cwd ++ c :: path

/-- `while (q > absolute_path && *(q - 1) != '/') q--`. -/
def segmentStart (s : Str) : Nat → Nat
  | 0 => 0
  | q + 1 => if s[q]? = some slash then q + 1 else segmentStart s q

/-- The string and the cursor `p` of the main loop. -/
structure Cursor where
  s : Str
  p : Nat
  deriving DecidableEq, Repr

namespace Cursor

variable (c : Cursor)

/-- `*p == '.' && *(p + 1) == '/'`. -/
def AtDot : Prop := c.s[c.p]? = some dot ∧ c.s[c.p + 1]? = some slash

/-- `*p == '.' && *(p + 1) == '.' && *(p + 2) == '/'`. -/
def AtDotdot : Prop := c.s[c.p]? = some dot ∧ c.s[c.p + 1]? = some dot ∧ c.s[c.p + 2]? = some slash

instance : Decidable c.AtDot := inferInstanceAs (Decidable (_ ∧ _))
instance : Decidable c.AtDotdot := inferInstanceAs (Decidable (_ ∧ _ ∧ _))

/-- The body of the main loop. -/
def step : Option Cursor :=
  if c.AtDot then some ⟨c.s.take c.p ++ c.s.drop (c.p + 2), c.p⟩
  else if c.AtDotdot then
    if c.p < 2 then
      -- otherwise the cursor would stand in front of the string
      if c.s[0]? = some slash then some ⟨c.s.take 1 ++ c.s.drop (c.p + 3), 0⟩ else none
    else
      -- the letter before `../` counts as the end of the segment to remove, whatever it is
      match segmentStart c.s (c.p - 1) with
      | 0 => none
      | start + 1 => some ⟨c.s.take (start + 1) ++ c.s.drop (c.p + 3), start⟩
  else some ⟨c.s, c.p + 1⟩

/-- `*p != '\0'`. -/
def more : Bool := c.p < c.s.length

end Cursor

/-- The main loop. Each deletion makes the string shorter, so it takes at most this many rounds. -/
def rewriteDots (s : Str) : Option Str :=
  (Loop.run Cursor.more Cursor.step (s.length * (s.length + 2)) ⟨s, 0⟩).map Cursor.s

/-- The tail `/.` or `/..`. -/
def trimTail (s : Str) : Str :=
  let n := s.length
  if 2 ≤ n then
    if s[n - 1]? = some dot ∧ s[n - 2]? = some slash then s.take (n - 2)
    else if s[n - 1]? = some dot ∧ 3 ≤ n ∧ s[n - 2]? = some dot ∧ s[n - 3]? = some slash then
      if n - 3 = 0 then s.take 1 else s.take (segmentStart s (n - 4))
    else s
  else if s = [dot] then []
  else s

/-- More than one slash at the start. -/
def trimHead : Str → Str
  | a :: b :: s => if a = slash ∧ b = slash then trimHead (b :: s) else a :: b :: s
  | s => s

/-- One slash at the end, unless it is all there is. -/
def trimEnd (s : Str) : Str := if 1 < s.length ∧ s.getLast? = some slash then s.dropLast else s

/-- The result is not empty and starts with a slash. -/
def rooted (s : Str) : Str :=
  match s with
  | [] => [slash]
  | c :: s => if c = slash then c :: s else slash :: c :: s

def calAbsolutePath (path : Option Str) (cwd : Str) : Option Str :=
  (rewriteDots (joined path cwd)).map fun s => rooted (trimEnd (trimHead (trimTail s)))

/-- `get_absolute_path` of a process with this `root.path`. -/
def getAbsolutePath (root : Str) (path : Option Str) (cwd : Str) : Option Str :=
  (calAbsolutePath path cwd).map fun abs =>
    if root = [slash] then abs
    else if abs.length < root.length ∨ root.isPrefixOf abs = false then root
    else if abs.length = root.length then abs
    else if abs[root.length]? ≠ some slash then root
    else abs

variable {root cwd s t u : Str} {path : Option Str} {c : Cursor} {i j k q : Nat}

/-! ## The main loop -/

section Loop

theorem getElem?_cut (hk : k < i) (hi : i ≤ s.length) : (s.take i ++ s.drop j)[k]? = s[k]? := by
  rw [List.getElem?_append_left (by rw [List.length_take]; omega), List.getElem?_take_of_lt hk]

/-- Behind the start of a segment there is a slash, at the latest the first one. -/
theorem segmentStart_spec (hhead : s[0]? = some slash) (hq : 0 < q) :
    ∃ start, segmentStart s q = start + 1 ∧ start < q ∧ s[start]? = some slash := by
  induction q with
  | zero => omega
  | succ q ih =>
    rw [segmentStart]
    split
    · rename_i hslash
      exact ⟨q, rfl, Nat.lt_succ_self q, hslash⟩
    · rename_i hslash
      have hpos : 0 < q := by
        rcases Nat.eq_zero_or_pos q with rfl | hpos
        · exact absurd hhead hslash
        · exact hpos
      obtain ⟨start, heq, hlt, hstart⟩ := ih hpos
      exact ⟨start, heq, by omega, hstart⟩

/-- What holds whenever the loop looks at a letter: there is no `./` before the cursor, and the letter
before the cursor does not make a `../` of a `./` at the cursor. -/
structure Scanned (c : Cursor) : Prop where
  head : c.s[0]? = some slash
  le : c.p ≤ c.s.length
  before : ∀ i < c.p, ¬(c.s[i]? = some dot ∧ c.s[i + 1]? = some slash)
  behind : ∀ i, i + 1 = c.p → c.s[i]? = some dot → ¬c.AtDot

/-- Deletions count for more than the way to the end. -/
def measure (c : Cursor) : Nat := c.s.length * (c.s.length + 1) + (c.s.length - c.p)

theorem measure_lt_of_length {c c' : Cursor} (h : c'.s.length < c.s.length) : measure c' < measure c := by
  have hmul : (c'.s.length + 1) * (c'.s.length + 2) ≤ c.s.length * (c.s.length + 1) :=
    Nat.mul_le_mul h (by omega)
  have hexpand : (c'.s.length + 1) * (c'.s.length + 2) = c'.s.length * (c'.s.length + 1) + 2 * (c'.s.length + 1) := by
    ring
  rw [measure, measure]
  omega

/-- A cut that ends behind the cursor and leaves the cursor on a slash. -/
theorem Scanned.jump (h : Scanned c) (start stop : Nat) (hstart : start < c.p) (hstop : start + 1 < stop)
    (hlen : stop ≤ c.s.length) (hslash : c.s[start]? = some slash) :
    Scanned ⟨c.s.take (start + 1) ++ c.s.drop stop, start⟩ ∧
      measure ⟨c.s.take (start + 1) ++ c.s.drop stop, start⟩ < measure c := by
  have hle := h.le
  have hget : ∀ k ≤ start, (c.s.take (start + 1) ++ c.s.drop stop)[k]? = c.s[k]? :=
    fun k hk => getElem?_cut (Nat.lt_succ_of_le hk) (by omega)
  have hlength : (c.s.take (start + 1) ++ c.s.drop stop).length = c.s.length - (stop - (start + 1)) := by
    rw [List.length_append, List.length_take, List.length_drop]
    omega
  refine ⟨⟨?_, ?_, fun i hi => ?_, fun i hi hdot hat => ?_⟩, measure_lt_of_length ?_⟩
  · exact (hget 0 (Nat.zero_le _)).trans h.head
  · simp only [hlength]
    omega
  · simp only at hi
    simp only [hget i (by omega), hget (i + 1) (by omega)]
    exact h.before i (by omega)
  · have hat := hat.1
    simp only [hget start le_rfl, hslash] at hat
    cases hat
  · simp only [hlength]
    omega

theorem Scanned.step (h : Scanned c) (hmore : c.more = true) :
    ∃ c', c.step = some c' ∧ Scanned c' ∧ measure c' < measure c := by
  have hlt : c.p < c.s.length := by simpa [Cursor.more] using hmore
  rw [Cursor.step]
  by_cases hdot : c.AtDot
  · rw [if_pos hdot]
    have hnext : c.p + 1 < c.s.length := (List.getElem?_eq_some_iff.mp hdot.2).1
    have hget : ∀ k < c.p, (c.s.take c.p ++ c.s.drop (c.p + 2))[k]? = c.s[k]? :=
      fun k hk => getElem?_cut hk h.le
    have hlength : (c.s.take c.p ++ c.s.drop (c.p + 2)).length = c.s.length - 2 := by
      rw [List.length_append, List.length_take, List.length_drop]
      omega
    have hpos : 0 < c.p := by
      rcases Nat.eq_zero_or_pos c.p with hzero | hpos
      · have hslash := h.head
        rw [← hzero, hdot.1] at hslash
        cases hslash
      · exact hpos
    refine ⟨_, rfl, ⟨?_, ?_, fun i hi => ?_, fun i hi hback => ?_⟩, measure_lt_of_length ?_⟩
    · exact (hget 0 hpos).trans h.head
    · simp only [hlength]
      omega
    · simp only at hi
      rintro ⟨hi1, hi2⟩
      simp only [hget i hi] at hi1
      rcases Nat.lt_or_ge (i + 1) c.p with hlt' | hge
      · simp only [hget (i + 1) hlt'] at hi2
        exact h.before i hi ⟨hi1, hi2⟩
      · exact h.behind i (by omega) hi1 hdot
    · simp only at hi
      simp only [hget i (by omega)] at hback
      exact absurd hdot (h.behind i hi hback)
    · simp only [hlength]
      omega
  · rw [if_neg hdot]
    by_cases hdotdot : c.AtDotdot
    · rw [if_pos hdotdot]
      have hnext : c.p + 2 < c.s.length := (List.getElem?_eq_some_iff.mp hdotdot.2.2).1
      have hpos : 0 < c.p := by
        rcases Nat.eq_zero_or_pos c.p with hzero | hpos
        · have hslash := h.head
          rw [← hzero, hdotdot.1] at hslash
          cases hslash
        · exact hpos
      split
      · rw [if_pos h.head]
        obtain ⟨hscanned, hmeasure⟩ := h.jump 0 (c.p + 3) hpos (by omega) (by omega) h.head
        exact ⟨_, rfl, hscanned, hmeasure⟩
      · obtain ⟨start, heq, hstart, hslash⟩ := segmentStart_spec (q := c.p - 1) h.head (by omega)
        rw [heq]
        obtain ⟨hscanned, hmeasure⟩ := h.jump start (c.p + 3) (by omega) (by omega) (by omega) hslash
        exact ⟨_, rfl, hscanned, hmeasure⟩
    · rw [if_neg hdotdot]
      refine ⟨_, rfl, ⟨h.head, hlt, fun i hi => ?_, fun i hi hback hat => ?_⟩, ?_⟩
      · simp only at hi
        rcases Nat.lt_or_ge i c.p with hlt' | hge
        · exact h.before i hlt'
        · rw [show i = c.p by omega]
          exact hdot
      · simp only at hi
        obtain rfl : i = c.p := by omega
        exact hdotdot ⟨hback, hat.1, hat.2⟩
      · rw [measure, measure]
        simp only
        omega

theorem infix_pair {a b : UInt8} (h : [a, b] <:+: s) : ∃ i, s[i]? = some a ∧ s[i + 1]? = some b := by
  obtain ⟨l, r, rfl⟩ := h
  exact ⟨l.length, by simp, by simp⟩

/-- The main loop ends, without a `./` left. -/
theorem rewriteDots_spec (hhead : s[0]? = some slash) :
    ∃ t, rewriteDots s = some t ∧ t[0]? = some slash ∧ ¬[dot, slash] <:+: t := by
  have hstart : Scanned ⟨s, 0⟩ :=
    ⟨hhead, Nat.zero_le _, fun _ hi => absurd hi (Nat.not_lt_zero _), fun _ hi => absurd hi (Nat.succ_ne_zero _)⟩
  have hfuel : measure ⟨s, 0⟩ ≤ s.length * (s.length + 2) := by
    rw [measure, Nat.mul_add, Nat.mul_add]
    simp only
    omega
  obtain ⟨c, hrun, hscanned, hend⟩ :=
    Loop.run_total measure (fun c hc hmore => Scanned.step hc hmore) hstart hfuel
  refine ⟨c.s, by rw [rewriteDots, hrun]; rfl, hscanned.head, fun hpair => ?_⟩
  obtain ⟨i, hi, hi'⟩ := infix_pair hpair
  have hlen := (List.getElem?_eq_some_iff.mp hi).1
  have hdone : c.s.length ≤ c.p := by simpa [Cursor.more] using hend
  exact hscanned.before i (by omega) ⟨hi, hi'⟩

end Loop

/-! ## The ends of the path -/

section Ends

/-- The path does not end with `/.` or `/..`. -/
structure EndsWell (s : Str) : Prop where
  here : ¬[slash, dot] <:+ s
  parent : ¬[slash, dot, dot] <:+ s

theorem EndsWell.of_last (h : ¬[dot] <:+ s) : EndsWell s where
  here := fun hend => h ((List.suffix_cons slash [dot]).trans hend)
  parent := fun hend => h (List.IsSuffix.trans ⟨[slash, dot], rfl⟩ hend)

theorem EndsWell.suffix (h : EndsWell s) (ht : t <:+ s) : EndsWell t where
  here := fun hend => h.here (hend.trans ht)
  parent := fun hend => h.parent (hend.trans ht)

/-- In front of a slash there is no dot. -/
theorem not_dot_of_slash (hno : ¬[dot, slash] <:+: s) (hs : t ++ [slash] <+: s) : ¬[dot] <:+ t := by
  rintro ⟨l, rfl⟩
  refine hno (List.IsInfix.trans ?_ hs.isInfix)
  exact ⟨l, [], by simp⟩

theorem prefix_take_succ (hslash : s[k]? = some slash) : s.take k ++ [slash] <+: s := by
  obtain ⟨hlt, heq⟩ := List.getElem?_eq_some_iff.mp hslash
  rw [← heq, List.take_concat_get']
  exact List.take_prefix _ _

theorem take_not_dot (hslash : s[k]? = some slash) : ¬[dot] <:+ s.take (k + 1) := by
  obtain ⟨hlt, heq⟩ := List.getElem?_eq_some_iff.mp hslash
  rw [← List.take_concat_get' s k hlt, heq]
  rintro ⟨l, hl⟩
  have hlast := congrArg List.getLast? hl
  simp only [List.getLast?_append, List.getLast?_singleton, Option.some_or] at hlast
  cases hlast

theorem head?_take (hhead : s[0]? = some slash) : s.take k = [] ∨ (s.take k)[0]? = some slash := by
  cases k with
  | zero => exact .inl (List.take_zero)
  | succ k => exact .inr ((List.getElem?_take_of_lt (Nat.succ_pos k)).trans hhead)

theorem trimTail_spec (hhead : s[0]? = some slash) (hno : ¬[dot, slash] <:+: s) :
    (trimTail s = [] ∨ (trimTail s)[0]? = some slash) ∧ ¬[dot, slash] <:+: trimTail s ∧
      EndsWell (trimTail s) := by
  have htake : ∀ k, ¬[dot, slash] <:+: s.take k := fun k h => hno (h.trans (List.take_prefix k s).isInfix)
  rw [trimTail]
  split
  · rename_i hlen
    split
    · rename_i hend
      exact ⟨head?_take hhead, htake _, .of_last (not_dot_of_slash hno (prefix_take_succ hend.2))⟩
    · rename_i hend
      split
      · rename_i hend2
        split
        · exact ⟨head?_take hhead, htake _, .of_last (take_not_dot hhead)⟩
        · rename_i hlong
          refine ⟨head?_take hhead, htake _, ?_⟩
          rcases Nat.eq_zero_or_pos (s.length - 4) with hzero | hpos
          · rw [hzero, segmentStart, List.take_zero]
            exact .of_last (by simp)
          · obtain ⟨start, heq, -, hslash⟩ := segmentStart_spec hhead hpos
            rw [heq]
            exact .of_last (take_not_dot hslash)
      · rename_i hend2
        refine ⟨.inr hhead, hno, ⟨?_, ?_⟩⟩
        · rintro ⟨l, rfl⟩
          exact hend (by simp)
        · rintro ⟨l, rfl⟩
          exact hend2 (by simp)
  · rename_i hlen
    obtain ⟨a, rfl⟩ : ∃ a, s = [a] := by
      have hpos := (List.getElem?_eq_some_iff.mp hhead).1
      exact List.length_eq_one_iff.mp (by omega)
    obtain rfl : a = slash := by simpa using hhead
    rw [if_neg (by decide)]
    exact ⟨.inr rfl, hno, .of_last (by decide)⟩

/-- Slashes at the start are taken off until one is left. -/
theorem trimHead_spec (hhead : s[0]? = some slash) :
    trimHead s <:+ s ∧ (trimHead s)[0]? = some slash ∧ (trimHead s)[1]? ≠ some slash := by
  induction s with
  | nil => cases hhead
  | cons a s ih =>
    obtain rfl : a = slash := by simpa using hhead
    cases s with
    | nil => exact ⟨List.suffix_rfl, rfl, by simp [trimHead]⟩
    | cons b s =>
      rw [trimHead]
      split
      · rename_i hboth
        obtain ⟨hsuffix, hrest⟩ := ih (by rw [hboth.2]; rfl)
        exact ⟨hsuffix.trans (List.suffix_cons slash _), hrest⟩
      · rename_i hboth
        refine ⟨List.suffix_rfl, rfl, fun hb => hboth ⟨rfl, ?_⟩⟩
        simpa using hb

/-- What path resolution returns. -/
structure Resolved (s : Str) : Prop where
  head : s[0]? = some slash
  second : s[1]? ≠ some slash
  noDot : ¬[dot, slash] <:+: s
  ends : EndsWell s

theorem resolved_root : Resolved [slash] := ⟨rfl, by decide, by decide, by decide, by decide⟩

theorem trimEnd_spec (h : Resolved s) : Resolved (trimEnd s) := by
  rw [trimEnd]
  split
  · rename_i hlast
    obtain ⟨t, rfl⟩ : ∃ t, s = t ++ [slash] := by
      obtain ⟨t, a, rfl⟩ := List.eq_nil_or_concat s |>.resolve_left (by rintro rfl; cases h.head)
      have ha : a = slash := by simpa using hlast.2
      exact ⟨t, by rw [ha, List.concat_eq_append]⟩
    have hlen : 0 < t.length := by
      have := hlast.1
      simp only [List.length_append, List.length_singleton] at this
      omega
    rw [List.dropLast_concat]
    refine ⟨?_, fun hsecond => h.second ?_, fun hno => h.noDot (hno.trans (List.prefix_append _ _).isInfix),
      .of_last (not_dot_of_slash h.noDot List.prefix_rfl)⟩
    · rw [← h.head, List.getElem?_append_left hlen]
    · have hlen' := (List.getElem?_eq_some_iff.mp hsecond).1
      rw [List.getElem?_append_left hlen', hsecond]
  · exact h

theorem rooted_spec (h : s = [] ∨ Resolved s) : Resolved (rooted s) := by
  rcases h with rfl | h
  · exact resolved_root
  · cases s with
    | nil => cases h.head
    | cons a s =>
      obtain rfl : a = slash := by simpa using h.head
      exact h

theorem joined_head (hcwd : cwd[0]? = some slash) : (joined path cwd)[0]? = some slash := by
  have hpos := (List.getElem?_eq_some_iff.mp hcwd).1
  match path with
  | none => exact hcwd
  | some [] => exact hcwd
  | some (c :: path) =>
    rw [joined]
    split
    · rename_i hc
      simpa using hc
    · split
      · rw [List.getElem?_append_left hpos, hcwd]
      · rw [List.getElem?_append_left hpos, hcwd]

/-- Path resolution ends, and what it returns has no `./` in it and does not end with `/.` or `/..`. -/
theorem calAbsolutePath_spec (hjoined : (joined path cwd)[0]? = some slash) :
    ∃ r, calAbsolutePath path cwd = some r ∧ Resolved r := by
  obtain ⟨t, hrun, hhead, hno⟩ := rewriteDots_spec hjoined
  refine ⟨_, by rw [calAbsolutePath, hrun]; rfl, rooted_spec ?_⟩
  obtain ⟨hempty | hslash, hno', hends⟩ := trimTail_spec hhead hno
  · rw [hempty]
    exact .inl (by decide)
  · obtain ⟨hsuffix, hfirst, hsecond⟩ := trimHead_spec hslash
    exact .inr (trimEnd_spec ⟨hfirst, hsecond, fun h => hno' (h.trans hsuffix.isInfix), hends.suffix hsuffix⟩)

theorem joined_absolute (hpath : s[0]? = some slash) : joined (some s) cwd = s := by
  cases s with
  | nil => cases hpath
  | cons a s => rw [joined, if_pos (by simpa using hpath)]

/-- An absolute path is resolved to one that is as it should be, if the root of the process is. -/
theorem getAbsolutePath_resolved (cwd : Str) (hroot : Resolved root) (hpath : s[0]? = some slash) :
    ∃ r, getAbsolutePath root (some s) cwd = some r ∧ Resolved r := by
  have hjoined : (joined (some s) cwd)[0]? = some slash := by rwa [joined_absolute hpath]
  obtain ⟨abs, habs, hresolved⟩ := calAbsolutePath_spec hjoined
  rw [getAbsolutePath, habs, Option.map_some]
  refine ⟨_, rfl, ?_⟩
  split
  · exact hresolved
  · split
    · exact hroot
    · split
      · exact hresolved
      · split
        · exact hroot
        · exact hresolved

/-- Without a `./` the main loop changes nothing. -/
theorem rewriteDots_self (hno : ¬[dot, slash] <:+: s) : rewriteDots s = some s := by
  have hpair : ∀ i, ¬(s[i]? = some dot ∧ s[i + 1]? = some slash) := by
    rintro i ⟨hi, hi'⟩
    obtain ⟨hlt, heq⟩ := List.getElem?_eq_some_iff.mp hi
    obtain ⟨hlt', heq'⟩ := List.getElem?_eq_some_iff.mp hi'
    refine hno ⟨s.take i, s.drop (i + 2), ?_⟩
    rw [← heq, ← heq', List.append_assoc, List.cons_append, List.singleton_append, List.getElem_cons_drop,
      List.getElem_cons_drop, List.take_append_drop]
  obtain ⟨c, hrun, hc, -⟩ := Loop.run_total (c := Cursor.more) (f := Cursor.step) (I := fun c => c.s = s)
    (fun c => c.s.length - c.p) (n := s.length * (s.length + 2)) (s := ⟨s, 0⟩)
    (fun c hc hmore => by
      have hlt : c.p < c.s.length := by simpa [Cursor.more] using hmore
      have hdot : ¬c.AtDot := fun h => hpair c.p (hc ▸ h)
      have hdotdot : ¬c.AtDotdot := fun h => hpair (c.p + 1) (hc ▸ h.2)
      refine ⟨⟨c.s, c.p + 1⟩, by rw [Cursor.step, if_neg hdot, if_neg hdotdot], hc, ?_⟩
      simp only
      omega)
    rfl (by
      simp only [Nat.sub_zero]
      exact Nat.le_mul_of_pos_right _ (by omega))
  rw [rewriteDots, hrun, Option.map_some, hc]

theorem trimHead_self (hsecond : s[1]? ≠ some slash) : trimHead s = s := by
  match s with
  | [] => rfl
  | [a] => rfl
  | a :: b :: s =>
    rw [trimHead, if_neg]
    rintro ⟨-, rfl⟩
    exact hsecond rfl

/-- A string that does not end with `/.` or `/..` keeps its end. -/
theorem trimTail_self (h : EndsWell s) (hne : s ≠ [dot]) : trimTail s = s := by
  have hpair : ∀ {k : Nat} {a b : UInt8}, k + 2 = s.length → s[k]? = some a → s[k + 1]? = some b → [a, b] <:+ s := by
    intro k a b hk ha hb
    obtain ⟨hlt, heq⟩ := List.getElem?_eq_some_iff.mp ha
    obtain ⟨hlt', heq'⟩ := List.getElem?_eq_some_iff.mp hb
    refine ⟨s.take k, ?_⟩
    rw [← heq, ← heq', show [s[k], s[k + 1]] = s.drop k by
      rw [← List.getElem_cons_drop hlt, ← List.getElem_cons_drop hlt', List.drop_eq_nil_of_le (by omega)],
      List.take_append_drop]
  rw [trimTail]
  split
  · rename_i hlen
    split
    · rename_i hend
      refine absurd (hpair (k := s.length - 2) (by omega) hend.2 ?_) h.here
      rw [show s.length - 2 + 1 = s.length - 1 by omega]
      exact hend.1
    · split
      · rename_i hend
        obtain ⟨hlast, hthree, hmid, hfirst⟩ := hend
        have htwo := hpair (k := s.length - 2) (by omega) hmid
          (by rw [show s.length - 2 + 1 = s.length - 1 by omega]; exact hlast)
        obtain ⟨l, hl⟩ := htwo
        have hlen' : l.length = s.length - 2 := by
          rw [← hl, List.length_append]
          simp
        refine absurd ?_ h.parent
        rw [← hl] at hfirst ⊢
        rw [List.getElem?_append_left (by simp; omega)] at hfirst
        obtain ⟨hlt, heq⟩ := List.getElem?_eq_some_iff.mp hfirst
        have hthird : l.length - 1 < l.length := by omega
        refine ⟨l.take (l.length - 1), ?_⟩
        rw [show ([slash, dot, dot] : Str) = [slash] ++ [dot, dot] by rfl, ← List.append_assoc]
        congr 1
        have hidx : l[l.length - 1] = slash := by
          rw [← heq]
          congr 1
          simp
        rw [← hidx, List.take_concat_get', Nat.sub_add_cancel (by omega), List.take_length]
      · rfl
  · rfl

/-- A path that is as it should be only loses a slash at the end. -/
theorem calAbsolutePath_self (h : Resolved s) : calAbsolutePath (some s) cwd = some (trimEnd s) := by
  have hne : s ≠ [dot] := by
    rintro rfl
    cases h.head
  have hroot : rooted (trimEnd s) = trimEnd s := by
    have hhead := (trimEnd_spec h).head
    cases hs : trimEnd s with
    | nil =>
      rw [hs] at hhead
      cases hhead
    | cons a t =>
      rw [hs] at hhead
      rw [rooted, if_pos (by simpa using hhead)]
  rw [calAbsolutePath, joined_absolute h.head, rewriteDots_self h.noDot, Option.map_some,
    trimTail_self h.ends hne, trimHead_self h.second, hroot]

end Ends

/-! ## Confinement -/

section Confinement

/-- The path is in the tree below `root`: it is the root, or it goes on behind a slash without a `..`. -/
def Confined (root r : Str) : Prop := r = root ∨ ∃ t, r = root ++ slash :: t ∧ [dot, dot] ∉ t.splitOn slash

/-- A `..` would stand before a slash or at the end. -/
theorem Resolved.not_mem_splitOn (h : Resolved (root ++ slash :: t)) : [dot, dot] ∉ t.splitOn slash := by
  intro hmem
  have hinfix := Components.infix_of_mem_splitOn hmem
  have hr : slash :: ([dot, dot] ++ [slash]) <:+: (root ++ slash :: t) ++ [slash] :=
    hinfix.trans ⟨root, [], by simp⟩
  rcases List.infix_concat_iff.mp hr with hsuffix | hinside
  · obtain ⟨l, hl⟩ := hsuffix
    refine h.ends.parent ⟨l, ?_⟩
    have hl' : (l ++ [slash, dot, dot]) ++ [slash] = (root ++ slash :: t) ++ [slash] := by
      rw [← hl]
      simp
    exact List.append_cancel_right hl'
  · exact h.noDot (List.IsInfix.trans ⟨[slash, dot], [], rfl⟩ hinside)

/-- Whatever the path is: with an absolute working directory and a root other than `/`, resolution ends
and stays inside the root. -/
theorem chroot_confined (hroot : root ≠ [slash]) (hcwd : cwd[0]? = some slash) :
    ∃ r, getAbsolutePath root path cwd = some r ∧ Confined root r := by
  have hjoined : (joined path cwd)[0]? = some slash := joined_head hcwd
  obtain ⟨abs, habs, hresolved⟩ := calAbsolutePath_spec hjoined
  rw [getAbsolutePath, habs, Option.map_some, if_neg hroot]
  refine ⟨_, rfl, ?_⟩
  split
  · exact .inl rfl
  · rename_i hprefix
    rw [not_or, Bool.not_eq_false, List.isPrefixOf_iff_prefix] at hprefix
    obtain ⟨-, u, rfl⟩ := hprefix
    split
    · rename_i hlen
      rw [List.length_append] at hlen
      rw [List.length_eq_zero_iff.mp (by omega : u.length = 0), List.append_nil]
      exact .inl rfl
    · split
      · exact .inl rfl
      · rename_i hsep
        rw [not_not, List.getElem?_append_right le_rfl, Nat.sub_self] at hsep
        obtain ⟨t, rfl⟩ : ∃ t, u = slash :: t := by
          cases u with
          | nil => cases hsep
          | cons a t => exact ⟨t, by rw [show a = slash by simpa using hsep]⟩
        exact .inr ⟨t, rfl, hresolved.not_mem_splitOn⟩

/-- From `/jail/a`, `../..//b/.././etc` leads into the jail. -/
theorem chroot_confined_jail :
    ∃ r, getAbsolutePath (str "/jail") (some (str "../..//b/.././etc")) (str "/jail/a") = some r ∧
      Confined (str "/jail") r :=
  chroot_confined (by decide) (by decide)

end Confinement

end SC7.Path
