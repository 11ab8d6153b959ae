-- SUMMARY: Which paths `cal_absolute_path` brings into their normal form: the pieces that its main loop reads as something else, and what they leave behind.
import SC7.Fs.PathScan

/-!
# Normal forms of paths

A path is split at its slashes. Empty pieces and `.` lead nowhere, `..` leads one component back, and
the normal form spells the components that are left with a slash before each.

The main loop reads some pieces as something else than a component: a name that ends in a dot, and an
empty piece behind a name. Other paths are brought into their normal form.
-/

namespace SC7.Path

open Exec (Str str)
open Components (advance resolve spell)

/-! ## The normal form -/

/-- The text to split: the path alone if it starts with a slash, otherwise `cwd/path`. -/
def wholePath (path : Option Str) (cwd : Str) : Str :=
  match path with
  | some (c :: path) => if c = slash then c :: path else cwd ++ slash :: c :: path
  | _ => cwd ++ [slash]

/-- The components of the path with single slashes, `/` if there are none. -/
def normalForm (path : Option Str) (cwd : Str) : Str :=
  slash :: [slash].intercalate (resolve [dot] [dot, dot] ((wholePath path cwd).splitOn slash)).reverse

/-- Resolution ends with the normal form, and resolving that again changes nothing. -/
def Normalises (path : Option Str) (cwd : Str) : Prop :=
  calAbsolutePath path cwd = some (normalForm path cwd) ∧
    ∀ cwd', calAbsolutePath (some (normalForm path cwd)) cwd' = some (normalForm path cwd)

variable {path : Option Str} {cwd s t u c : Str} {st : List Str} {x : UInt8} {k : Nat}

/-! ## Pieces that are read as what they are -/

section Pieces

/-- The piece is read as something else than it is: an empty piece behind a name, or a name that ends in
a dot. If only `.` follows, the last of these ends the path where it should, or is put in for the dot that
the name has lost. -/
def Offends (before : List Str) (c : Str) (after : List Str) : Prop :=
  (c = [] ∧ resolve [dot] [dot, dot] before ≠ [] ∧ ∃ d ∈ after, d ≠ [dot]) ∨
  (c ≠ [dot] ∧ c ≠ [dot, dot] ∧ after ≠ [] ∧ ([dot, dot] <:+ c ∨ [dot] <:+ c ∧ ∃ d ∈ after, d ≠ [dot]))

/-- Behind these pieces none is read as something else. -/
def PlainBehind (before ps : List Str) : Prop :=
  ∀ b c after, ps = b ++ c :: after → ¬Offends (before ++ b) c after

instance {before after : List Str} : Decidable (Offends before c after) := inferInstanceAs (Decidable (_ ∨ _))

theorem plainBehind_nil (before : List Str) : PlainBehind before [] := by
  intro b c after h
  simp at h

theorem plainBehind_cons {before ps : List Str} :
    PlainBehind before (c :: ps) ↔ ¬Offends before c ps ∧ PlainBehind (before ++ [c]) ps := by
  constructor
  · intro h
    refine ⟨?_, fun b d after heq => ?_⟩
    · have hfirst := h [] c ps rfl
      rwa [List.append_nil] at hfirst
    · rw [List.append_assoc]
      exact h (c :: b) d after (congrArg (c :: ·) heq)
  · rintro ⟨hhead, htail⟩ b d after heq
    cases b with
    | nil =>
      obtain ⟨rfl, rfl⟩ := List.cons_eq_cons.mp heq
      rwa [List.append_nil]
    | cons e b =>
      obtain ⟨rfl, rfl⟩ := List.cons_eq_cons.mp heq
      have hmore := htail b d after rfl
      rwa [List.append_assoc] at hmore

instance decidablePlainBehind : (before ps : List Str) → Decidable (PlainBehind before ps)
  | before, [] => .isTrue (plainBehind_nil before)
  | before, c :: ps =>
    haveI := decidablePlainBehind (before ++ [c]) ps
    decidable_of_iff _ plainBehind_cons.symm

/-- What is left of plain pieces: the components with empty segments in front of them, then the last
piece, or a slash and `.` at the end. -/
inductive Left (st : List Str) : List Str → Prop
  | last (k : Nat) (c : Str) (st' : List Str) (hc : slash ∉ c) (hst' : ∀ c ∈ st', c ≠ [] ∧ slash ∉ c)
      (h : advance [dot] [dot, dot] st' c = st) : Left st (c :: (st' ++ List.replicate k []))
  | here (k : Nat) (hst : ∀ c ∈ st, c ≠ [] ∧ slash ∉ c) : Left st ([dot] :: [] :: (st ++ List.replicate k []))

/-- A piece that is read as what it is. Slashes at the start of the path stay in front as empty segments. -/
theorem scan_step (hc : slash ∉ c) (hempty : c = [] → st = []) (hdot : [dot] <:+ c → c = [dot] ∨ c = [dot, dot])
    (k : Nat) (r : Str) :
    ∃ k', scan ([] :: (st ++ List.replicate k [])) (c ++ slash :: r) =
      scan ([] :: (advance [dot] [dot, dot] st c ++ List.replicate k' [])) r := by
  by_cases hnil : c = []
  · refine ⟨k + 1, ?_⟩
    rw [hempty hnil, hnil, Components.advance_nil]
    exact scan_slash _ r
  by_cases hhere : c = [dot]
  · refine ⟨k, ?_⟩
    rw [hhere, Components.advance_here]
    exact scan_dot_slash _ r
  by_cases hback : c = [dot, dot]
  · rw [hback, Components.advance_parent (by decide) (by decide)]
    have hdrop : scan ([] :: (st ++ List.replicate k [])) ([dot, dot] ++ slash :: r) =
        scan ([] :: (st ++ List.replicate k []).tail) r :=
      scan_dotdot_slash _ r
    rw [hdrop]
    cases st with
    | nil => exact ⟨k - 1, by rw [List.nil_append, List.tail_replicate]; rfl⟩
    | cons e st => exact ⟨k, rfl⟩
  · refine ⟨k, ?_⟩
    have hend : ¬[dot] <:+ c := fun h => (hdot h).elim hhere hback
    rw [scan_name hc hend, List.nil_append, Components.advance_name hnil hhere hback]
    rfl

/-- The components on the stack are names. -/
theorem names_resolve {before ps : List Str} (hsep : ∀ c ∈ before ++ ps, slash ∉ c) :
    ∀ d ∈ resolve [dot] [dot, dot] before, d ≠ [] ∧ slash ∉ d := by
  intro d hd
  obtain ⟨hmem, hd, -⟩ := Components.mem_resolve hd
  exact ⟨hd, hsep d (List.mem_append_left _ hmem)⟩

theorem scan_plain {before ps : List Str} (hne : ps ≠ []) (hsep : ∀ c ∈ before ++ ps, slash ∉ c)
    (hplain : PlainBehind before ps) (k : Nat) :
    Left (resolve [dot] [dot, dot] (before ++ ps))
      (scan ([] :: (resolve [dot] [dot, dot] before ++ List.replicate k [])) ([slash].intercalate ps)) := by
  induction ps generalizing before k with
  | nil => exact absurd rfl hne
  | cons c ps ih =>
    have hc : slash ∉ c := hsep c (by simp)
    have hnames := names_resolve hsep
    have hresolve : resolve [dot] [dot, dot] (before ++ [c]) =
        advance [dot] [dot, dot] (resolve [dot] [dot, dot] before) c :=
      Components.resolve_append before [c]
    cases ps with
    | nil =>
      rw [List.intercalate_singleton, scan_last hc, List.nil_append]
      exact .last k c _ hc hnames hresolve.symm
    | cons d ps =>
      have happend : before ++ c :: d :: ps = (before ++ [c]) ++ d :: ps := by simp
      have hrest := ih (List.cons_ne_nil d ps) (happend ▸ hsep) (plainBehind_cons.mp hplain).2
      have hhead := (plainBehind_cons.mp hplain).1
      rw [List.intercalate_cons_cons, List.append_assoc, List.singleton_append, happend]
      have hdots : (∀ e ∈ d :: ps, e = [dot]) →
          resolve [dot] [dot, dot] ((before ++ [c]) ++ d :: ps) = resolve [dot] [dot, dot] (before ++ [c]) := by
        intro hall
        rw [Components.resolve_append, Components.foldl_advance_here hall]
      rw [hresolve] at hrest hdots
      by_cases hempty : c = [] ∧ resolve [dot] [dot, dot] before ≠ []
      · obtain ⟨rfl, hroot⟩ := hempty
        have hall : ∀ e ∈ d :: ps, e = [dot] := by
          intro e he
          by_contra hne
          exact hhead (.inl ⟨rfl, hroot, e, he, hne⟩)
        rw [Components.advance_nil] at hdots
        rw [List.nil_append, scan_slash, scan_dots (List.cons_ne_nil d ps) hall, hdots hall]
        exact .here k hnames
      by_cases hdot : [dot] <:+ c ∧ c ≠ [dot] ∧ c ≠ [dot, dot]
      · obtain ⟨hdot, hhere, hback⟩ := hdot
        have hall : ¬[dot, dot] <:+ c ∧ ∀ e ∈ d :: ps, e = [dot] := by
          constructor
          · intro htwo
            exact hhead (.inr ⟨hhere, hback, List.cons_ne_nil d ps, .inl htwo⟩)
          · intro e he
            by_contra hne
            exact hhead (.inr ⟨hhere, hback, List.cons_ne_nil d ps, .inr ⟨hdot, e, he, hne⟩⟩)
        obtain ⟨b, rfl⟩ := hdot
        have hb : ¬[dot] <:+ b := by
          rintro ⟨a, rfl⟩
          exact hall.1 ⟨a, by simp⟩
        have hbsep : slash ∉ b := fun h => hc (List.mem_append_left _ h)
        rw [scan_here hbsep hb, scan_dots (List.cons_ne_nil d ps) hall.2, List.nil_append, hdots hall.2]
        exact .last k _ _ hc hnames rfl
      · obtain ⟨k', hstep⟩ := scan_step hc (fun h => by_contra fun hroot => hempty ⟨h, hroot⟩)
          (fun h => by_contra fun hname => hdot ⟨h, not_or.mp hname⟩) k ([slash].intercalate (d :: ps))
        rw [hstep]
        exact hrest k'

end Pieces

/-! ## The ends of the string -/

section Ends

theorem trimHead_slashes (k : Nat) (hs : s[0]? ≠ some slash) :
    trimHead (List.replicate (k + 1) slash ++ s) = slash :: s := by
  induction k with
  | zero =>
    apply trimHead_self
    rwa [List.replicate_one, List.singleton_append, List.getElem?_cons_succ]
  | succ k ih =>
    rw [List.replicate_succ, List.replicate_succ, List.cons_append, List.cons_append, trimHead, if_pos ⟨rfl, rfl⟩]
    rw [List.replicate_succ, List.cons_append] at ih
    exact ih

/-- Behind the first slash a name starts. -/
theorem spell_start (hne : st ≠ []) (hnames : ∀ c ∈ st, c ≠ [] ∧ slash ∉ c) :
    ∃ y r, spell slash st = slash :: y :: r ∧ y ≠ slash := by
  induction st with
  | nil => exact absurd rfl hne
  | cons c st ih =>
    obtain ⟨hc, hsep⟩ := hnames c List.mem_cons_self
    cases st with
    | nil =>
      obtain ⟨y, r, rfl⟩ := List.exists_cons_of_ne_nil hc
      exact ⟨y, r, rfl, fun h => hsep (h ▸ List.mem_cons_self)⟩
    | cons d st =>
      obtain ⟨y, r, heq, hy⟩ := ih (List.cons_ne_nil d st) fun c hc => hnames c (List.mem_cons_of_mem _ hc)
      exact ⟨y, r ++ slash :: c, by rw [spell, heq]; rfl, hy⟩

theorem spell_last (hne : st ≠ []) (hnames : ∀ c ∈ st, c ≠ [] ∧ slash ∉ c) :
    (spell slash st).getLast? ≠ some slash := by
  obtain ⟨c, st, rfl⟩ := List.exists_cons_of_ne_nil hne
  obtain ⟨hc, hsep⟩ := hnames c List.mem_cons_self
  obtain ⟨y, r, rfl⟩ := List.exists_cons_of_ne_nil hc
  rw [spell, List.getLast?_append, List.getLast?_cons_cons]
  cases hlast : (y :: r).getLast? with
  | none => simp at hlast
  | some z =>
    rw [Option.some_or]
    rintro heq
    exact hsep (Option.some.inj heq ▸ List.mem_of_getLast? hlast)

/-- One slash at the end. -/
def cutSlash (z : Str) : Str := if z.getLast? = some slash then z.dropLast else z

/-- Slashes in front of the components go, and one slash at the end. -/
theorem trims_behind (hne : st ≠ []) (hnames : ∀ c ∈ st, c ≠ [] ∧ slash ∉ c) (k : Nat) (z : Str) :
    rooted (trimEnd (trimHead (List.replicate k slash ++ spell slash st ++ z))) =
      spell slash st ++ cutSlash z := by
  obtain ⟨y, r, heq, hy⟩ := spell_start hne hnames
  have hhead : trimHead (List.replicate k slash ++ spell slash st ++ z) = spell slash st ++ z := by
    have hslashes := trimHead_slashes k (s := y :: r ++ z) (by simpa using hy)
    rw [List.replicate_succ', List.append_assoc, List.singleton_append] at hslashes
    rw [heq, List.append_assoc]
    exact hslashes
  have hend : trimEnd (spell slash st ++ z) = spell slash st ++ cutSlash z := by
    unfold trimEnd cutSlash
    by_cases hz : z = []
    · subst hz
      rw [List.append_nil, if_neg fun h => spell_last hne hnames h.2]
      simp
    · have hlong : 1 < (spell slash st ++ z).length := by
        rw [heq]
        simp
      obtain ⟨w, x, rfl⟩ := List.eq_nil_or_concat z |>.resolve_left hz
      rw [List.concat_eq_append, ← List.append_assoc, List.getLast?_concat, List.getLast?_concat, List.dropLast_concat,
        List.dropLast_concat]
      by_cases hx : x = slash
      · rw [List.append_assoc, ← List.concat_eq_append, hx, if_pos ⟨by simpa [hx] using hlong, rfl⟩, if_pos rfl]
      · rw [if_neg fun h => hx (Option.some.inj h.2), if_neg fun h => hx (Option.some.inj h), List.append_assoc]
  rw [hhead, hend, heq]
  rfl

theorem trims_slashes (n : Nat) : rooted (trimEnd (trimHead (List.replicate n slash))) = [slash] := by
  cases n with
  | zero => rfl
  | succ n =>
    have hslashes := trimHead_slashes n (s := []) (by simp)
    rw [List.append_nil] at hslashes
    rw [hslashes]
    rfl

/-- Slashes at the ends go, the components between them stay. -/
theorem trims_spell (hnames : ∀ c ∈ st, c ≠ [] ∧ slash ∉ c) (k j : Nat) (hj : j ≤ 1) :
    rooted (trimEnd (trimHead (List.replicate k slash ++ spell slash st ++ List.replicate j slash))) =
      slash :: [slash].intercalate st.reverse := by
  by_cases hne : st = []
  · subst hne
    rw [spell, List.append_nil, List.replicate_append_replicate, trims_slashes]
    rfl
  · rw [trims_behind hne hnames, ← Components.spell_eq_intercalate slash hne]
    unfold cutSlash
    rcases Nat.le_one_iff_eq_zero_or_eq_one.mp hj with rfl | rfl
    · simp
    · simp

/-- A last piece that is a name, or is empty, is no tail. -/
theorem trimTail_name (w : Str) (hc : slash ∉ c) (hhere : c ≠ [dot]) (hback : c ≠ [dot, dot]) :
    trimTail (w ++ slash :: c) = w ++ slash :: c := by
  apply trimTail_self
  · constructor
    · intro h
      exact hhere (Components.last_piece_eq hc (by decide) h).symm
    · intro h
      exact hback (Components.last_piece_eq hc (by decide) h).symm
  · intro h
    have hmem : slash ∈ ([dot] : Str) := h ▸ List.mem_append_right w List.mem_cons_self
    exact absurd hmem (by decide)

theorem trimTail_here (w : Str) : trimTail (w ++ [slash, dot]) = w := by
  have hlen : (w ++ [slash, dot]).length = w.length + 2 := by
    rw [List.length_append]
    rfl
  unfold trimTail
  simp only [hlen]
  rw [if_pos (by omega), if_pos, Nat.add_sub_cancel, List.take_left]
  exact ⟨getElem?_behind w _ 1, getElem?_at w _⟩

/-- A slash and `..` at the end take the segment in front with them. -/
theorem trimTail_back (w : Str) : trimTail (w ++ [slash, dot, dot]) =
    if w = [] then [slash] else (w ++ [slash, dot, dot]).take (segmentStart (w ++ [slash, dot, dot]) (w.length - 1)) := by
  have hlen : (w ++ [slash, dot, dot]).length = w.length + 3 := by
    rw [List.length_append]
    rfl
  have hfirst : (w ++ [slash, dot, dot])[w.length]? = some slash := getElem?_at w _
  have hmid : (w ++ [slash, dot, dot])[w.length + 1]? = some dot := getElem?_behind w _ 1
  have hlast : (w ++ [slash, dot, dot])[w.length + 2]? = some dot := getElem?_behind w _ 2
  unfold trimTail
  simp only [hlen]
  rw [if_pos (by omega), show w.length + 3 - 1 = w.length + 2 by omega, show w.length + 3 - 2 = w.length + 1 by omega,
    show w.length + 3 - 3 = w.length by omega, show w.length + 3 - 4 = w.length - 1 by omega, hfirst, hmid, hlast,
    if_neg (by decide), if_pos ⟨rfl, by omega, rfl, rfl⟩]
  by_cases hw : w = []
  · subst hw
    rfl
  · rw [if_neg (mt List.length_eq_zero_iff.mp hw), if_neg hw]

theorem segmentStart_slashes (k : Nat) (t : Str) : segmentStart (List.replicate k slash ++ t) k = k := by
  cases k with
  | zero => rfl
  | succ k =>
    rw [segmentStart, if_pos]
    rw [List.getElem?_append_left (by simp), List.getElem?_replicate_of_lt (Nat.lt_succ_self k)]

theorem trimTail_back_slashes (k : Nat) :
    ∃ n, trimTail (List.replicate k slash ++ [slash, dot, dot]) = List.replicate n slash := by
  rw [trimTail_back]
  cases k with
  | zero => exact ⟨1, rfl⟩
  | succ k =>
    refine ⟨k, ?_⟩
    have hstart := segmentStart_slashes k (slash :: [slash, dot, dot])
    rw [if_neg (by simp), List.length_replicate, Nat.add_sub_cancel, List.replicate_succ', List.append_assoc,
      List.singleton_append, hstart, List.take_left' List.length_replicate]

theorem trimTail_back_name (w : Str) (hc : slash ∉ c) (hne : c ≠ []) :
    trimTail (w ++ slash :: c ++ [slash, dot, dot]) = w ++ [slash] := by
  have hpos := List.length_pos_iff.mpr hne
  have hlen : (w ++ slash :: c).length - 1 = w.length + 1 + (c.length - 1) := by
    rw [List.length_append, List.length_cons]
    omega
  rw [trimTail_back, if_neg (by simp), hlen, segmentStart_inside w _ hc (Nat.sub_le _ _), List.append_assoc,
    List.take_append, List.take_of_length_le (Nat.le_succ _), Nat.add_sub_cancel_left]
  rfl

/-- Whatever is left of plain pieces, the components make the result. -/
theorem Left.finish {segs : List Str} (h : Left st segs) :
    rooted (trimEnd (trimHead (trimTail (spell slash segs)))) = slash :: [slash].intercalate st.reverse := by
  have hspell : ∀ (k : Nat) (st : List Str),
      spell slash (st ++ List.replicate k []) = List.replicate k slash ++ spell slash st := by
    intro k st
    rw [Components.spell_append, Components.spell_replicate]
  cases h with
  | here k hst =>
    rw [spell, spell, hspell, trimTail_here]
    exact trims_spell hst k 1 le_rfl
  | last k c st' hc hst' h =>
    rw [spell, hspell]
    subst h
    by_cases hhere : c = [dot]
    · rw [hhere, trimTail_here, Components.advance_here, ← List.append_nil (_ ++ _)]
      exact trims_spell hst' k 0 (Nat.zero_le 1)
    by_cases hback : c = [dot, dot]
    · rw [hback, Components.advance_parent (by decide) (by decide)]
      cases st' with
      | nil =>
        obtain ⟨n, hn⟩ := trimTail_back_slashes k
        have hslashes := trims_spell hst' n 0 (Nat.zero_le 1)
        rw [spell, List.append_nil, hn, List.tail_nil]
        rwa [spell, List.append_nil, List.replicate_zero, List.append_nil] at hslashes
      | cons d st' =>
        obtain ⟨hd, hsep⟩ := hst' d List.mem_cons_self
        rw [spell, ← List.append_assoc, trimTail_back_name _ hsep hd, List.tail_cons]
        exact trims_spell (fun c hc => hst' c (List.mem_cons_of_mem d hc)) k 1 le_rfl
    rw [trimTail_name _ hc hhere hback]
    by_cases hempty : c = []
    · rw [hempty, Components.advance_nil]
      exact trims_spell hst' k 1 le_rfl
    · have hnames : ∀ d ∈ c :: st', d ≠ [] ∧ slash ∉ d := by
        intro d hd
        rcases List.mem_cons.mp hd with rfl | hd
        · exact ⟨hempty, hc⟩
        · exact hst' d hd
      have hresult := trims_spell hnames k 0 (Nat.zero_le 1)
      rw [Components.advance_name hempty hhere hback]
      rwa [spell, List.replicate_zero, List.append_nil, ← List.append_assoc] at hresult

end Ends

/-! ## What an offence leaves behind -/

section Offence

variable {base ps : List Str}

/-- Pieces that lead nowhere leave slashes, at least one if there is an empty piece. -/
theorem blank_tail (base : List Str) (hne : ps ≠ []) (hps : ∀ c ∈ ps, c = [] ∨ c = [dot]) :
    ∃ m, trimTail (spell slash (scan ([] :: base) ([slash].intercalate ps))) =
      spell slash base ++ List.replicate m slash ∧ ([] ∈ ps → 0 < m) := by
  induction ps generalizing base with
  | nil => exact absurd rfl hne
  | cons c ps ih =>
    cases ps with
    | nil =>
      rw [List.intercalate_singleton]
      rcases hps c List.mem_cons_self with rfl | rfl
      · refine ⟨1, ?_, fun _ => Nat.one_pos⟩
        rw [scan]
        exact trimTail_name _ List.not_mem_nil (by decide) (by decide)
      · refine ⟨0, ?_, fun h => absurd h (by decide)⟩
        rw [scan_last (by decide), List.replicate_zero, List.append_nil]
        exact trimTail_here _
    | cons d ps =>
      have hrest : ∀ c ∈ d :: ps, c = [] ∨ c = [dot] := fun e he => hps e (List.mem_cons_of_mem c he)
      rw [List.intercalate_cons_cons, List.append_assoc, List.singleton_append]
      rcases hps c List.mem_cons_self with rfl | rfl
      · obtain ⟨m, heq, -⟩ := ih ([] :: base) (List.cons_ne_nil d ps) hrest
        refine ⟨m + 1, ?_, fun _ => Nat.succ_pos m⟩
        rw [List.nil_append, scan_slash, heq, spell, List.append_assoc]
        rfl
      · obtain ⟨m, heq, hm⟩ := ih base (List.cons_ne_nil d ps) hrest
        refine ⟨m, ?_, fun hmem => hm ?_⟩
        · rw [← heq]
          exact congrArg (fun st => trimTail (spell slash st)) (scan_dot_slash _ _)
        · exact (List.mem_cons.mp hmem).resolve_left (by decide)

/-- An empty piece ends a name that has lost its dot. -/
theorem blank_tail_name (base : List Str) (hu : slash ∉ u) (hdot : ¬[dot] <:+ u)
    (hps : ∀ c ∈ ps, c = [] ∨ c = [dot]) (hempty : [] ∈ ps) :
    ∃ m, trimTail (spell slash (scan (u :: base) ([slash].intercalate ps))) =
      spell slash (u :: base) ++ List.replicate m slash := by
  induction ps with
  | nil => exact absurd hempty List.not_mem_nil
  | cons c ps ih =>
    have hrest : ∀ c ∈ ps, c = [] ∨ c = [dot] := fun e he => hps e (List.mem_cons_of_mem c he)
    cases ps with
    | nil =>
      obtain rfl : [] = c := List.mem_singleton.mp hempty
      refine ⟨0, ?_⟩
      rw [List.intercalate_singleton, scan, List.replicate_zero, List.append_nil]
      exact trimTail_name _ hu (fun h => hdot (h ▸ List.suffix_rfl)) fun h => hdot (h ▸ List.suffix_cons dot [dot])
    | cons d ps =>
      rw [List.intercalate_cons_cons, List.append_assoc, List.singleton_append]
      rcases hps c List.mem_cons_self with rfl | rfl
      · obtain ⟨m, heq, -⟩ := blank_tail (u :: base) (List.cons_ne_nil d ps) hrest
        exact ⟨m, by rw [List.nil_append, scan_slash, heq]⟩
      · obtain ⟨m, heq⟩ := ih hrest ((List.mem_cons.mp hempty).resolve_left (by decide))
        refine ⟨m, ?_⟩
        rw [← heq]
        exact congrArg (fun st => trimTail (spell slash st)) (scan_dot_slash _ _)

theorem dot_suffix_append (h : [dot] <:+ u ++ c) : [dot] <:+ u ∨ [dot] <:+ c := by
  rcases List.eq_nil_or_concat c with rfl | ⟨b, x, rfl⟩
  · rw [List.append_nil] at h
    exact .inl h
  · obtain ⟨l, hl⟩ := h
    rw [List.concat_eq_append, ← List.append_assoc] at hl
    obtain ⟨-, hx⟩ := List.append_inj' hl rfl
    exact .inr ⟨b, by rw [hx, List.concat_eq_append]⟩

/-- Without a `..`, the segments below the last one stay, and the last one does not become `..`. -/
theorem scan_keeps (base : List Str) (hne : ps ≠ []) (hsep : ∀ c ∈ ps, slash ∉ c) (hback : [dot, dot] ∉ ps)
    (hu : slash ∉ u) (hdot : ¬[dot] <:+ u) :
    ∃ y l, scan (u :: base) ([slash].intercalate ps) = y :: (l ++ base) ∧ slash ∉ y ∧ y ≠ [dot, dot] := by
  induction ps generalizing u base with
  | nil => exact absurd rfl hne
  | cons c ps ih =>
    have hc := hsep c List.mem_cons_self
    obtain ⟨hcback, hrestback⟩ := not_or.mp (mt List.mem_cons.mpr hback)
    cases ps with
    | nil =>
      refine ⟨u ++ c, [], ?_, ?_, fun h => ?_⟩
      · rw [List.intercalate_singleton, scan_last hc, List.nil_append]
      · rw [List.mem_append, not_or]
        exact ⟨hu, hc⟩
      · match u with
        | [] => exact hcback h.symm
        | [x] => exact hdot ((List.cons_eq_cons.mp h).1 ▸ List.suffix_rfl)
        | [x, y] => exact hdot ((List.cons_eq_cons.mp (List.cons_eq_cons.mp h).2).1 ▸ List.suffix_cons x [dot])
        | x :: y :: z :: u => simp at h
    | cons d ps =>
      have hrest : ∀ c ∈ d :: ps, slash ∉ c := fun e he => hsep e (List.mem_cons_of_mem c he)
      rw [List.intercalate_cons_cons, List.append_assoc, List.singleton_append]
      by_cases hend : [dot] <:+ c
      · obtain ⟨b, rfl⟩ := hend
        have hb : slash ∉ b := fun h => hc (List.mem_append_left _ h)
        by_cases htwo : [dot] <:+ b
        · obtain ⟨a, rfl⟩ := htwo
          have ha : a ≠ [] := by
            rintro rfl
            exact hcback rfl
          have hasep : slash ∉ a := fun h => hb (List.mem_append_left _ h)
          have hscan := scan_back hasep ([slash].intercalate (d :: ps)) u base
          rw [dropSegment, if_neg (List.append_ne_nil_of_right_ne_nil u ha)] at hscan
          rw [List.append_assoc a]
          exact hscan.symm ▸ ih base (List.cons_ne_nil d ps) hrest hrestback List.not_mem_nil (by decide)
        · rw [scan_here hb htwo]
          refine ih base (List.cons_ne_nil d ps) hrest hrestback ?_ ?_
          · rw [List.mem_append, not_or]
            exact ⟨hu, hb⟩
          · exact fun h => (dot_suffix_append h).elim hdot htwo
      · rw [scan_name hc hend]
        obtain ⟨y, l, heq, hy⟩ :=
          ih ((u ++ c) :: base) (List.cons_ne_nil d ps) hrest hrestback List.not_mem_nil (by decide)
        exact ⟨y, l ++ [u ++ c], by rw [heq, List.append_assoc]; rfl, hy⟩

theorem spell_head (st : List Str) (h : (spell slash st)[0]? = some x) : x = slash := by
  by_cases hst : st = []
  · subst hst
    cases h
  · rw [Components.spell_eq_intercalate slash hst] at h
    exact (Option.some.inj h).symm

/-- What the end of the string loses is at most a slash. -/
theorem mem_cutSlash {z : Str} (h : x ∈ cutSlash z) : x ∈ z := by
  unfold cutSlash at h
  split at h
  · exact List.mem_of_mem_dropLast h
  · exact h

theorem cutSlash_replicate (m : Nat) : cutSlash (List.replicate (m + 1) slash) = List.replicate m slash := by
  unfold cutSlash
  rw [List.replicate_succ', List.getLast?_concat, if_pos rfl, List.dropLast_concat]

/-- A double slash does not go. -/
theorem cutSlash_ne {z : Str} (hz : ∀ x, z[0]? = some x → x = slash) (hne : st ≠ [])
    (hnames : ∀ c ∈ st, c ≠ [] ∧ slash ∉ c) :
    cutSlash (slash :: z) ≠ spell slash st := by
  obtain ⟨y, r, heq, hy⟩ := spell_start hne hnames
  rw [heq]
  intro h
  have hget : (slash :: z)[1]? = some y := by
    unfold cutSlash at h
    split at h
    · have hlen : 1 < (slash :: z).dropLast.length := by
        rw [h]
        simp
      have hy' : (slash :: z).dropLast[1]? = some y := by rw [h]; rfl
      rw [List.getElem?_dropLast] at hy'
      split at hy'
      · exact hy'
      · cases hy'
    · rw [h]
      rfl
  exact hy (hz y hget)

/-- An offence that no `..` undoes spoils the result. -/
theorem offence_spoils (hnames : ∀ c ∈ st, c ≠ [] ∧ slash ∉ c) (hc : slash ∉ c) (hsep : ∀ c ∈ ps, slash ∉ c)
    (hback : [dot, dot] ∉ ps)
    (hoff : c = [] ∧ st ≠ [] ∧ (∃ d ∈ ps, d ≠ [dot]) ∨
      c ≠ [dot] ∧ c ≠ [dot, dot] ∧ ps ≠ [] ∧ ([dot, dot] <:+ c ∨ [dot] <:+ c ∧ ∃ d ∈ ps, d ≠ [dot])) (k : Nat)
    (hres : Resolved (slash :: [slash].intercalate (ps.foldl (advance [dot] [dot, dot])
      (advance [dot] [dot, dot] st c)).reverse)) :
    rooted (trimEnd (trimHead (trimTail (spell slash
        (scan ([] :: (st ++ List.replicate k [])) (c ++ slash :: [slash].intercalate ps)))))) ≠
      slash :: [slash].intercalate (ps.foldl (advance [dot] [dot, dot])
        (advance [dot] [dot, dot] st c)).reverse := by
  have hspell : spell slash (st ++ List.replicate k []) = List.replicate k slash ++ spell slash st := by
    rw [Components.spell_append, Components.spell_replicate]
  obtain ⟨l, hl, hlnames, hlnil⟩ :=
    Components.foldl_advance_climbs [dot] hback (advance [dot] [dot, dot] st c)
  rw [hl] at hres ⊢
  have hslashes : ∀ m, ∀ x ∈ cutSlash (List.replicate m slash), x = slash :=
    fun m x hx => List.eq_of_mem_replicate (mem_cutSlash hx)
  have hempty : l = [] → (∃ d ∈ ps, d ≠ [dot]) → [] ∈ ps := by
    rintro hl ⟨d, hd, hddot⟩
    exact (hlnil hl d hd).resolve_right hddot ▸ hd
  rcases hoff with ⟨rfl, hne, hd⟩ | ⟨hhere, hcback, hpsne, hdots⟩
  · have hpsne : ps ≠ [] := by
      rintro rfl
      exact absurd hd (by simp)
    rw [Components.advance_nil, ← Components.spell_eq_intercalate slash (List.append_ne_nil_of_right_ne_nil l hne),
      Components.spell_append, List.nil_append, scan_slash]
    by_cases hlne : l = []
    · obtain ⟨m, htail, hm⟩ := blank_tail ([] :: (st ++ List.replicate k [])) hpsne (hlnil hlne)
      have hpos := hm (hempty hlne hd)
      rw [htail, spell, hspell, List.append_assoc, List.singleton_append, trims_behind hne hnames, hlne, spell,
        ← List.replicate_succ, cutSlash_replicate]
      intro h
      have hnil := congrArg List.length (List.append_cancel_left h)
      rw [List.length_replicate] at hnil
      exact absurd hnil (Nat.ne_of_gt hpos)
    · obtain ⟨y, l', hscan, hy, hyback⟩ := scan_keeps ([] :: (st ++ List.replicate k [])) hpsne hsep hback
        List.not_mem_nil (u := []) (by decide)
      have hlist : ∀ d ∈ l, d ≠ [] ∧ slash ∉ d := fun d hd => ⟨(hlnames d hd).2, hsep d (hlnames d hd).1⟩
      have hdouble : ∀ z : Str, (∀ x, z[0]? = some x → x = slash) →
          rooted (trimEnd (trimHead (List.replicate k slash ++ spell slash st ++ slash :: z))) ≠
            spell slash st ++ spell slash l := by
        intro z hz h
        rw [trims_behind hne hnames] at h
        exact cutSlash_ne hz hlne hlist (List.append_cancel_left h)
      rw [hscan, spell, Components.spell_append, spell, hspell]
      by_cases hyhere : y = [dot]
      · rw [hyhere, trimTail_here, List.append_assoc, List.singleton_append]
        exact hdouble _ fun x => spell_head l'
      · rw [trimTail_name _ hy hyhere hyback, List.append_assoc, List.append_assoc, List.singleton_append]
        refine hdouble _ fun x hx => spell_head (y :: l') hx
  · have hcne : c ≠ [] := by
      rintro rfl
      rcases hdots with h | ⟨h, -⟩
      · exact absurd h (by decide)
      · exact absurd h (by decide)
    have hcdot : [dot] <:+ c := by
      rcases hdots with h | ⟨h, -⟩
      · exact (List.suffix_cons dot [dot]).trans h
      · exact h
    rw [Components.advance_name hcne hhere hcback] at hres ⊢
    have hspellc : slash :: [slash].intercalate (l ++ c :: st).reverse = spell slash (l ++ c :: st) :=
      (Components.spell_eq_intercalate slash (by simp)).symm
    rw [hspellc] at hres ⊢
    by_cases hlne : l = []
    · have hall := hlnil hlne
      rw [hlne, List.nil_append, spell]
      by_cases htwo : [dot, dot] <:+ c
      · obtain ⟨b, rfl⟩ := htwo
        have hbne : b ≠ [] := by
          rintro rfl
          exact hcback rfl
        have hb : slash ∉ b := fun h => hc (List.mem_append_left _ h)
        obtain ⟨m, htail, -⟩ := blank_tail (st ++ List.replicate k []) hpsne hall
        rw [scan_back hb, List.nil_append, dropSegment, if_neg hbne, htail, hspell]
        intro h
        by_cases hst : st = []
        · rw [hst, spell, List.append_nil, List.replicate_append_replicate, trims_slashes] at h
          simp at h
        · rw [trims_behind hst hnames] at h
          have hdot : dot ∈ cutSlash (List.replicate m slash) := by
            rw [List.append_cancel_left h]
            simp
          exact absurd (hslashes m dot hdot) (by decide)
      · have hmem := hempty hlne (hdots.resolve_left htwo).2
        obtain ⟨b, rfl⟩ := hcdot
        have hbne : b ≠ [] := by
          rintro rfl
          exact hhere rfl
        have hb : slash ∉ b := fun h => hc (List.mem_append_left _ h)
        have hbdot : ¬[dot] <:+ b := by
          rintro ⟨a, rfl⟩
          exact htwo ⟨a, by simp⟩
        obtain ⟨m, htail⟩ := blank_tail_name (st ++ List.replicate k []) hb hbdot hall hmem
        have hbnames : ∀ d ∈ b :: st, d ≠ [] ∧ slash ∉ d := by
          intro d hd
          rcases List.mem_cons.mp hd with rfl | hd
          · exact ⟨hbne, hb⟩
          · exact hnames d hd
        have hresult := trims_behind (List.cons_ne_nil b st) hbnames k (List.replicate m slash)
        rw [spell, ← List.append_assoc (List.replicate k slash)] at hresult
        rw [scan_here hb hbdot, List.nil_append, htail, spell, hspell, hresult, List.append_assoc]
        intro h
        have hdot : dot ∈ cutSlash (List.replicate m slash) := by
          rw [List.append_cancel_left (List.append_cancel_left h : slash :: b ++ _ = slash :: b ++ [dot])]
          simp
        exact absurd (hslashes m dot hdot) (by decide)
    · -- the dot would stand before a slash
      exfalso
      obtain ⟨b, rfl⟩ := hcdot
      refine hres.noDot ?_
      rw [Components.spell_append, Components.spell_eq_intercalate slash hlne, spell]
      exact ⟨spell slash st ++ slash :: b, [slash].intercalate l.reverse, by simp⟩

end Offence

/-! ## Normal forms -/

section Normal

/-- The pieces of the string that is rewritten. -/
def pieces (path : Option Str) (cwd : Str) : List Str := (joined path cwd).splitOn slash

/-- None of the pieces is read as something else. -/
def Plain (path : Option Str) (cwd : Str) : Prop := PlainBehind [] (pieces path cwd)

instance : Decidable (Plain path cwd) := decidablePlainBehind [] (pieces path cwd)

/-- The two ways to put the path behind the working directory lead to the same components. -/
theorem resolve_wholePath (hcwd : cwd[0]? = some slash) :
    resolve [dot] [dot, dot] ((wholePath path cwd).splitOn slash) = resolve [dot] [dot, dot] (pieces path cwd) := by
  have hempty : resolve [dot] [dot, dot] ((cwd ++ [slash]).splitOn slash) =
      resolve [dot] [dot, dot] (cwd.splitOn slash) := by
    rw [List.splitOn_append_cons_self, Components.resolve_append, List.splitOn_nil, List.foldl_cons, List.foldl_nil,
      Components.advance_nil]
  unfold pieces
  match path with
  | none => exact hempty
  | some [] => exact hempty
  | some (x :: path) =>
    rw [wholePath, joined]
    by_cases hx : x = slash
    · rw [if_pos hx, if_pos hx]
    · rw [if_neg hx, if_neg hx]
      split
      · rfl
      · rename_i hlast
        have hne : cwd ≠ [] := by
          rintro rfl
          cases hcwd
        obtain ⟨w, rfl⟩ : ∃ w, cwd = w ++ [slash] := by
          have hslash : cwd.getLast? = some slash := by
            by_contra h
            exact hlast ⟨hne, h⟩
          obtain ⟨w, y, rfl⟩ := List.eq_nil_or_concat cwd |>.resolve_left hne
          rw [List.concat_eq_append, List.getLast?_concat] at hslash
          exact ⟨w, by rw [List.concat_eq_append, Option.some.inj hslash]⟩
        rw [List.append_assoc, List.append_assoc, List.singleton_append, List.singleton_append,
          List.splitOn_append_cons_self, List.splitOn_append_cons_self, Components.resolve_append,
          Components.resolve_append]
        have hskip : (slash :: x :: path).splitOn slash = [] :: (x :: path).splitOn slash :=
          List.splitOn_append_cons_self [] (x :: path)
        rw [hskip, List.foldl_cons, Components.advance_nil]

/-- The main loop, over the pieces behind the first slash. -/
theorem calAbsolutePath_eq (path : Option Str) (hcwd : cwd[0]? = some slash) :
    ∃ ps, pieces path cwd = [] :: ps ∧ ps ≠ [] ∧ (∀ c ∈ [[]] ++ ps, slash ∉ c) ∧
      calAbsolutePath path cwd =
        some (rooted (trimEnd (trimHead (trimTail (spell slash (scan [[]] ([slash].intercalate ps))))))) := by
  have hhead : (joined path cwd)[0]? = some slash := joined_head hcwd
  obtain ⟨s, hs⟩ : ∃ s, joined path cwd = slash :: s := by
    cases hj : joined path cwd with
    | nil =>
      rw [hj] at hhead
      cases hhead
    | cons x s =>
      rw [hj] at hhead
      exact ⟨s, by rw [Option.some.inj hhead]⟩
  have hsplit : pieces path cwd = [] :: s.splitOn slash := by
    unfold pieces
    rw [hs]
    exact List.splitOn_append_cons_self [] s
  refine ⟨_, hsplit, List.splitOn_ne_nil slash s, fun c hc => ?_, ?_⟩
  · rw [List.singleton_append, ← hsplit] at hc
    exact Components.not_mem_of_mem_splitOn hc
  · rw [calAbsolutePath, rewriteDots_eq hhead, hs, scan_slash, List.intercalate_splitOn]
    rfl

theorem calAbsolutePath_of_plain (hcwd : cwd[0]? = some slash) (hplain : Plain path cwd) :
    calAbsolutePath path cwd = some (normalForm path cwd) := by
  obtain ⟨ps, hpieces, hne, hsep, hcal⟩ := calAbsolutePath_eq path hcwd
  unfold Plain at hplain
  rw [hpieces] at hplain
  have hleft := scan_plain hne hsep (plainBehind_cons.mp hplain).2 0
  rw [hcal, normalForm, resolve_wholePath hcwd, hpieces]
  exact congrArg some hleft.finish

/-- Pieces that are all `.` are plain. -/
theorem plainBehind_dots {before ps : List Str} (h : ∀ c ∈ ps, c = [dot]) : PlainBehind before ps := by
  rintro b c after rfl (⟨rfl, -⟩ | ⟨hc, -⟩)
  · exact absurd (h [] (by simp)) (by decide)
  · exact hc (h c (by simp))

/-- The first offence is met with the components before it on the stack. -/
theorem scan_offence {before ps : List Str} (hne : ps ≠ []) (hsep : ∀ c ∈ before ++ ps, slash ∉ c)
    (hback : ∀ b c after, ps = b ++ c :: after → Offends (before ++ b) c after → [dot, dot] ∉ after)
    (hplain : ¬PlainBehind before ps) (k : Nat)
    (hres : Resolved (slash :: [slash].intercalate (resolve [dot] [dot, dot] (before ++ ps)).reverse)) :
    rooted (trimEnd (trimHead (trimTail (spell slash
        (scan ([] :: (resolve [dot] [dot, dot] before ++ List.replicate k [])) ([slash].intercalate ps)))))) ≠
      slash :: [slash].intercalate (resolve [dot] [dot, dot] (before ++ ps)).reverse := by
  induction ps generalizing before k with
  | nil => exact absurd rfl hne
  | cons c ps ih =>
    have hc : slash ∉ c := hsep c (by simp)
    have hnames := names_resolve hsep
    by_cases hoff : Offends before c ps
    · have hps : ps ≠ [] := by
        rintro rfl
        rcases hoff with ⟨-, -, d, hd, -⟩ | ⟨-, -, hps, -⟩
        · exact absurd hd List.not_mem_nil
        · exact hps rfl
      have hundone : [dot, dot] ∉ ps := hback [] c ps rfl (by rwa [List.append_nil])
      rw [Components.resolve_append, List.foldl_cons] at hres ⊢
      rw [List.intercalate_cons_of_ne_nil hps, List.append_assoc, List.singleton_append]
      exact offence_spoils hnames hc (fun d hd => hsep d (by simp [hd])) hundone hoff k hres
    · have hrest : ¬PlainBehind (before ++ [c]) ps := fun h => hplain (plainBehind_cons.mpr ⟨hoff, h⟩)
      have hps : ps ≠ [] := by
        rintro rfl
        exact hrest (plainBehind_nil _)
      have hnot : ∃ d ∈ ps, d ≠ [dot] := by
        by_contra h
        refine hrest (plainBehind_dots fun d hd => ?_)
        by_contra hd'
        exact h ⟨d, hd, hd'⟩
      have hempty : c = [] → resolve [dot] [dot, dot] before = [] := fun h =>
        by_contra fun hroot => hoff (.inl ⟨h, hroot, hnot⟩)
      have hdot : [dot] <:+ c → c = [dot] ∨ c = [dot, dot] := by
        intro h
        by_contra hname
        obtain ⟨hhere, hcback⟩ := not_or.mp hname
        exact hoff (.inr ⟨hhere, hcback, hps, .inr ⟨h, hnot⟩⟩)
      obtain ⟨k', hstep⟩ := scan_step hc hempty hdot k ([slash].intercalate ps)
      have hresolve : resolve [dot] [dot, dot] (before ++ [c]) =
          advance [dot] [dot, dot] (resolve [dot] [dot, dot] before) c :=
        Components.resolve_append before [c]
      have happend : before ++ c :: ps = (before ++ [c]) ++ ps := by simp
      rw [List.intercalate_cons_of_ne_nil hps, List.append_assoc, List.singleton_append, hstep, ← hresolve, happend]
      rw [happend] at hres
      refine ih hps (happend ▸ hsep) (fun b d after heq hbad => ?_) hrest k' hres
      rw [List.append_assoc] at hbad
      exact hback (c :: b) d after (congrArg (c :: ·) heq) hbad

theorem normalForm_resolved (hcwd : cwd[0]? = some slash)
    (h : calAbsolutePath path cwd = some (normalForm path cwd)) : Resolved (normalForm path cwd) := by
  obtain ⟨r, hr, hresolved⟩ := calAbsolutePath_spec (joined_head hcwd : (joined path cwd)[0]? = some slash)
  rwa [← Option.some.inj (h.symm.trans hr)] at hresolved

/-- A normal form that is reached is a fixed point. -/
theorem normalises_iff (hcwd : cwd[0]? = some slash) :
    Normalises path cwd ↔ calAbsolutePath path cwd = some (normalForm path cwd) := by
  refine ⟨And.left, fun h => ⟨h, fun cwd' => ?_⟩⟩
  have hnames : ∀ c ∈ resolve [dot] [dot, dot] ((wholePath path cwd).splitOn slash), c ≠ [] ∧ slash ∉ c := by
    intro c hc
    obtain ⟨hmem, hc, -⟩ := Components.mem_resolve hc
    exact ⟨hc, Components.not_mem_of_mem_splitOn hmem⟩
  have hend : trimEnd (normalForm path cwd) = normalForm path cwd := by
    unfold normalForm
    by_cases hroot : resolve [dot] [dot, dot] ((wholePath path cwd).splitOn slash) = []
    · rw [hroot]
      rfl
    · unfold trimEnd
      rw [← Components.spell_eq_intercalate slash hroot, if_neg fun h => spell_last hroot hnames h.2]
  rw [calAbsolutePath_self (normalForm_resolved hcwd h), hend]

/-- No `..` stands behind a piece that is read as something else, so that none of these is undone. -/
def NoneUndone (path : Option Str) (cwd : Str) : Prop :=
  ∀ b c after, pieces path cwd = b ++ c :: after → Offends b c after → [dot, dot] ∉ after

/-- Resolution always ends. Of plain pieces it makes the normal form, and of others it does not, as far as
no `..` undoes the damage. -/
theorem calAbsolutePath_normalises (path : Option Str) (hcwd : cwd[0]? = some slash) :
    (∃ r, calAbsolutePath path cwd = some r) ∧ (Plain path cwd → Normalises path cwd) ∧
      (NoneUndone path cwd → (Normalises path cwd ↔ Plain path cwd)) := by
  have hplain : Plain path cwd → Normalises path cwd := fun h =>
    (normalises_iff hcwd).mpr (calAbsolutePath_of_plain hcwd h)
  refine ⟨?_, hplain, fun hback => ⟨fun h => ?_, hplain⟩⟩
  · obtain ⟨r, hr, -⟩ := calAbsolutePath_spec (joined_head hcwd : (joined path cwd)[0]? = some slash)
    exact ⟨r, hr⟩
  · by_contra hbad
    obtain ⟨ps, hpieces, hne, hsep, hcal⟩ := calAbsolutePath_eq path hcwd
    have hnormal := (normalises_iff hcwd).mp h
    have hform : normalForm path cwd =
        slash :: [slash].intercalate (resolve [dot] [dot, dot] ([[]] ++ ps)).reverse := by
      rw [normalForm, resolve_wholePath hcwd, hpieces]
      rfl
    have hres := normalForm_resolved hcwd hnormal
    rw [hcal, hform] at hnormal
    rw [hform] at hres
    unfold Plain at hbad
    rw [hpieces] at hbad
    have hrest : ¬PlainBehind [[]] ps := by
      refine fun hps => hbad (plainBehind_cons.mpr ⟨?_, hps⟩)
      rintro (⟨-, hroot, -⟩ | ⟨-, -, -, hdots⟩)
      · exact hroot rfl
      · exact absurd hdots (by simp)
    refine scan_offence hne hsep (fun b c after heq hoff => ?_) hrest 0 hres (Option.some.inj hnormal)
    exact hback ([] :: b) c after (by rw [hpieces, heq]; rfl) hoff

/-- From `/a/`, the path `b/.././c/../d..` leads to `/a/d..`. -/
theorem calAbsolutePath_normalises_dots : Normalises (some (str "b/.././c/../d..")) (str "/a/") :=
  (calAbsolutePath_normalises (some (str "b/.././c/../d..")) (by decide : (str "/a/")[0]? = some slash)).2.1 (by decide)

/-- At the root, the path `foo./bar` is read as `foobar`. -/
theorem calAbsolutePath_joins :
    ¬∀ (path : Option Str) (cwd : Str), cwd[0]? = some slash → Normalises path cwd := by
  intro h
  have hjoins : calAbsolutePath (some (str "foo./bar")) (str "/") ≠ some (normalForm (some (str "foo./bar")) (str "/")) := by
    decide
  exact hjoins (h (some (str "foo./bar")) (str "/") (by decide)).1

end Normal

end SC7.Path
