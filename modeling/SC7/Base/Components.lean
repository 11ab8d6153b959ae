-- SUMMARY: Strings that are cut at a separator: their pieces and non-empty components, and the components that are left when some stand for "here" and "one back".
import Mathlib.Data.List.Infix

/-!
# Components

A string is a list of letters. `splitOn` cuts it at each separator; the components are the pieces that
are not empty. A piece is best seen between two separators, so the rules are about the string with one
put at each end.
-/

namespace Components

variable {α : Type*} [DecidableEq α] {sep a b : α} {s t c : List α}

/-! ## Pieces -/

/-- The first piece is at the start, the others stand behind a separator. -/
theorem splitOn_pieces (sep : α) (s : List α) :
    ∃ h l, s.splitOn sep = h :: l ∧ h ++ [sep] <+: s ++ [sep] ∧
      ∀ c ∈ l, sep :: (c ++ [sep]) <:+: s ++ [sep] := by
  induction s with
  | nil => exact ⟨[], [], rfl, List.prefix_rfl, by simp⟩
  | cons x s ih =>
    obtain ⟨h, l, hsplit, hfirst, hrest⟩ := ih
    rw [List.splitOn_cons_eq_if_modifyHead]
    have hmore : ∀ c ∈ l, sep :: (c ++ [sep]) <:+: x :: s ++ [sep] := fun c hc =>
      (hrest c hc).trans (List.suffix_cons x _).isInfix
    by_cases hx : x = sep
    · rw [if_pos (by simpa using hx), hsplit, hx]
      refine ⟨[], h :: l, rfl, ⟨s ++ [sep], by simp⟩, fun c hc => ?_⟩
      rcases List.mem_cons.mp hc with rfl | hc
      · exact (List.cons_prefix_cons.mpr ⟨rfl, hfirst⟩).isInfix
      · rw [← hx]
        exact hx ▸ hmore c hc
    · rw [if_neg (by simpa using hx), hsplit, List.modifyHead_cons]
      exact ⟨x :: h, l, rfl, List.cons_prefix_cons.mpr ⟨rfl, hfirst⟩, hmore⟩

/-- A piece stands between two separators. -/
theorem infix_of_mem_splitOn (hc : c ∈ s.splitOn sep) : sep :: (c ++ [sep]) <:+: sep :: (s ++ [sep]) := by
  obtain ⟨h, l, hsplit, hfirst, hrest⟩ := splitOn_pieces sep s
  rw [hsplit] at hc
  rcases List.mem_cons.mp hc with rfl | hc
  · exact (List.cons_prefix_cons.mpr ⟨rfl, hfirst⟩).isInfix
  · exact (hrest c hc).trans (List.suffix_cons sep _).isInfix

/-! ## Components -/

/-- The pieces that are not empty. -/
def components (sep : α) (s : List α) : List (List α) := (s.splitOn sep).filter (· ≠ [])

@[simp] theorem components_nil : components sep [] = [] := rfl

theorem components_append_sep (sep : α) (s t : List α) :
    components sep (s ++ sep :: t) = components sep s ++ components sep t := by
  rw [components, List.splitOn_append_cons_self, List.filter_append]
  rfl

theorem components_cons_sep (sep : α) (s : List α) : components sep (sep :: s) = components sep s :=
  components_append_sep sep [] s

theorem components_single (hsep : sep ∉ c) (hne : c ≠ []) : components sep c = [c] := by
  rw [components, List.splitOn_eq_singleton hsep, List.filter_cons_of_pos (by simpa using hne), List.filter_nil]

/-- There is no separator in a piece. -/
theorem not_mem_of_mem_splitOn (hc : c ∈ s.splitOn sep) : sep ∉ c := by
  induction s generalizing c with
  | nil =>
    rw [List.splitOn_nil, List.mem_singleton] at hc
    exact hc ▸ List.not_mem_nil
  | cons x s ih =>
    rw [List.splitOn_cons_eq_if_modifyHead] at hc
    split at hc
    · rcases List.mem_cons.mp hc with rfl | hc
      · exact List.not_mem_nil
      · exact ih hc
    · rename_i hx
      obtain ⟨h, l, hsplit⟩ := List.exists_cons_of_ne_nil (List.splitOn_ne_nil sep s)
      rw [hsplit, List.modifyHead_cons] at hc
      rcases List.mem_cons.mp hc with rfl | hc
      · rw [List.mem_cons, not_or]
        exact ⟨fun heq => hx (by simpa using heq.symm), ih (hsplit ▸ List.mem_cons_self)⟩
      · exact ih (hsplit ▸ List.mem_cons_of_mem h hc)

/-- What stands behind the last separator. -/
theorem last_piece_eq {d l : List α} (hc : sep ∉ c) (hd : sep ∉ d) (h : sep :: d <:+ l ++ sep :: c) : d = c := by
  obtain ⟨m, hm⟩ := h
  have hlast := congrArg (fun s => (s.splitOn sep).getLast?) hm
  simpa [List.splitOn_append_cons_self, List.splitOn_eq_singleton hc, List.splitOn_eq_singleton hd] using hlast

/-- Everything up to the first separator. -/
theorem exists_first (sep : α) (s : List α) : ∃ c r, s = c ++ r ∧ sep ∉ c ∧ (r = [] ∨ ∃ t, r = sep :: t) := by
  induction s with
  | nil => exact ⟨[], [], rfl, List.not_mem_nil, .inl rfl⟩
  | cons x s ih =>
    by_cases hx : x = sep
    · exact ⟨[], x :: s, rfl, List.not_mem_nil, .inr ⟨s, by rw [hx]⟩⟩
    · obtain ⟨c, r, rfl, hc, hr⟩ := ih
      refine ⟨x :: c, r, rfl, ?_, hr⟩
      rw [List.mem_cons, not_or]
      exact ⟨Ne.symm hx, hc⟩

/-- Separators in front make no difference. -/
theorem components_seps_append {v : List α} (hv : ∀ a ∈ v, a = sep) (s : List α) :
    components sep (v ++ s) = components sep s := by
  induction v with
  | nil => rfl
  | cons a v ih =>
    rw [List.forall_mem_cons] at hv
    rw [List.cons_append, hv.1, components_cons_sep, ih hv.2]

/-- A string starts with separators, and behind them it ends or has its first component. -/
theorem exists_component (sep : α) (s : List α) :
    ∃ v w, s = v ++ w ∧ (∀ a ∈ v, a = sep) ∧
      (w = [] ∨ ∃ c r, w = c ++ r ∧ sep ∉ c ∧ c ≠ [] ∧ (r = [] ∨ ∃ t, r = sep :: t)) := by
  induction s with
  | nil => exact ⟨[], [], rfl, by simp, .inl rfl⟩
  | cons x s ih =>
    by_cases hx : x = sep
    · obtain ⟨v, w, rfl, hv, hw⟩ := ih
      exact ⟨x :: v, w, rfl, List.forall_mem_cons.mpr ⟨hx, hv⟩, hw⟩
    · obtain ⟨c, r, rfl, hc, hr⟩ := exists_first sep s
      have hcons : sep ∉ x :: c := by
        rw [List.mem_cons, not_or]
        exact ⟨Ne.symm hx, hc⟩
      exact ⟨[], x :: (c ++ r), rfl, by simp, .inr ⟨x :: c, r, rfl, hcons, List.cons_ne_nil x c, hr⟩⟩

/-- The first component is what stands before the first separator. -/
theorem components_first (hsep : sep ∉ c) (hne : c ≠ []) {r : List α} (hr : r = [] ∨ ∃ t, r = sep :: t) :
    components sep (c ++ r) = c :: components sep r := by
  rcases hr with rfl | ⟨t, rfl⟩
  · rw [List.append_nil, components_single hsep hne, components_nil]
  · rw [components_append_sep, components_single hsep hne, components_cons_sep, List.singleton_append]

/-! ## Components that lead here and back -/

section Resolve

variable (here parent : List α)

/-- One more piece behind the components so far, of which the last comes first. -/
def advance (st : List (List α)) (c : List α) : List (List α) :=
  if c = [] ∨ c = here then st else if c = parent then st.tail else c :: st

/-- The components that are left of these pieces, the last one first. -/
def resolve (ps : List (List α)) : List (List α) := ps.foldl (advance here parent) []

variable {here parent} {st : List (List α)} {ps : List (List α)}

@[simp] theorem advance_nil (st : List (List α)) : advance here parent st [] = st := by
  unfold advance
  rw [if_pos (.inl rfl)]

@[simp] theorem advance_here (st : List (List α)) : advance here parent st here = st := by
  unfold advance
  rw [if_pos (.inr rfl)]

theorem advance_parent (hne : parent ≠ []) (hhere : parent ≠ here) (st : List (List α)) :
    advance here parent st parent = st.tail := by
  unfold advance
  rw [if_neg (not_or.mpr ⟨hne, hhere⟩), if_pos rfl]

theorem advance_name (hne : c ≠ []) (hhere : c ≠ here) (hparent : c ≠ parent) (st : List (List α)) :
    advance here parent st c = c :: st := by
  unfold advance
  rw [if_neg (not_or.mpr ⟨hne, hhere⟩), if_neg hparent]

theorem foldl_advance_here (h : ∀ c ∈ ps, c = here) : ps.foldl (advance here parent) st = st := by
  induction ps with
  | nil => rfl
  | cons c ps ih =>
    rw [List.foldl_cons, h c List.mem_cons_self, advance_here]
    exact ih fun d hd => h d (List.mem_cons_of_mem c hd)

theorem mem_advance {d : List α} (hd : d ∈ advance here parent st c) :
    d ∈ st ∨ d = c ∧ c ≠ [] ∧ c ≠ here ∧ c ≠ parent := by
  unfold advance at hd
  split at hd
  · exact .inl hd
  · rename_i hskip
    split at hd
    · exact .inl (List.mem_of_mem_tail hd)
    · rename_i hparent
      rcases List.mem_cons.mp hd with hd | hd
      · exact .inr ⟨hd, fun h => hskip (.inl h), fun h => hskip (.inr h), hparent⟩
      · exact .inl hd

theorem mem_foldl_advance {d : List α} (hd : d ∈ ps.foldl (advance here parent) st) :
    d ∈ st ∨ d ∈ ps ∧ d ≠ [] ∧ d ≠ here ∧ d ≠ parent := by
  induction ps generalizing st with
  | nil => exact .inl hd
  | cons c ps ih =>
    rcases ih hd with hd | ⟨hmem, hname⟩
    · rcases mem_advance hd with hd | ⟨rfl, hname⟩
      · exact .inl hd
      · exact .inr ⟨List.mem_cons_self, hname⟩
    · exact .inr ⟨List.mem_cons_of_mem c hmem, hname⟩

/-- Without a piece that leads back, the names come in front of what there was. -/
theorem foldl_advance_climbs (here : List α) (h : parent ∉ ps) (st : List (List α)) :
    ∃ l, ps.foldl (advance here parent) st = l ++ st ∧ (∀ d ∈ l, d ∈ ps ∧ d ≠ []) ∧
      (l = [] → ∀ c ∈ ps, c = [] ∨ c = here) := by
  induction ps generalizing st with
  | nil => exact ⟨[], rfl, by simp, by simp⟩
  | cons c ps ih =>
    obtain ⟨hc, hps⟩ := not_or.mp (mt List.mem_cons.mpr h)
    obtain ⟨l, heq, hnames, hall⟩ := ih hps (advance here parent st c)
    rw [List.foldl_cons, heq]
    by_cases hskip : c = [] ∨ c = here
    · refine ⟨l, ?_, fun d hd => ⟨List.mem_cons_of_mem c (hnames d hd).1, (hnames d hd).2⟩, fun hl d hd => ?_⟩
      · unfold advance
        rw [if_pos hskip]
      · rcases List.mem_cons.mp hd with rfl | hd
        · exact hskip
        · exact hall hl d hd
    · obtain ⟨hne, hhere⟩ := not_or.mp hskip
      refine ⟨l ++ [c], ?_, fun d hd => ?_, fun hl => ?_⟩
      · rw [advance_name hne hhere (Ne.symm hc), List.append_assoc, List.singleton_append]
      · rcases List.mem_append.mp hd with hd | hd
        · exact ⟨List.mem_cons_of_mem c (hnames d hd).1, (hnames d hd).2⟩
        · rw [List.mem_singleton.mp hd]
          exact ⟨List.mem_cons_self, hne⟩
      · exact absurd hl (by simp)

/-- What is left is a name. -/
theorem mem_resolve {d : List α} (hd : d ∈ resolve here parent ps) :
    d ∈ ps ∧ d ≠ [] ∧ d ≠ here ∧ d ≠ parent :=
  (mem_foldl_advance hd).resolve_left List.not_mem_nil

theorem resolve_append (ps qs : List (List α)) :
    resolve here parent (ps ++ qs) = qs.foldl (advance here parent) (resolve here parent ps) :=
  List.foldl_append

/-- The components with a separator before each, the last one first in the list. -/
def spell (sep : α) : List (List α) → List α
  | [] => []
  | c :: st => spell sep st ++ sep :: c

omit [DecidableEq α] in
theorem spell_append (sep : α) (st st' : List (List α)) : spell sep (st ++ st') = spell sep st' ++ spell sep st := by
  induction st with
  | nil => rw [List.nil_append, spell, List.append_nil]
  | cons c st ih => rw [List.cons_append, spell, spell, ih, List.append_assoc]

omit [DecidableEq α] in
theorem spell_replicate (sep : α) (k : Nat) : spell sep (List.replicate k []) = List.replicate k sep := by
  induction k with
  | zero => rfl
  | succ k ih => rw [List.replicate_succ, spell, ih, List.replicate_succ']

omit [DecidableEq α] in
theorem spell_eq_nil (sep : α) : spell sep st = [] ↔ st = [] := by
  cases st with
  | nil => exact ⟨fun _ => rfl, fun _ => rfl⟩
  | cons c st => simp [spell]

omit [DecidableEq α] in
theorem intercalate_concat (sep : α) (h : ps ≠ []) (c : List α) :
    [sep].intercalate (ps ++ [c]) = [sep].intercalate ps ++ sep :: c := by
  induction ps with
  | nil => exact absurd rfl h
  | cons d ps ih =>
    rw [List.cons_append, List.intercalate_cons_of_ne_nil (List.append_ne_nil_of_right_ne_nil ps (List.cons_ne_nil c []))]
    cases ps with
    | nil => simp
    | cons e ps =>
      rw [ih (List.cons_ne_nil e ps), List.intercalate_cons_cons, List.append_assoc, List.append_assoc,
        List.append_assoc]

omit [DecidableEq α] in
/-- A path that is not empty starts with a separator and its first component. -/
theorem spell_eq_intercalate (sep : α) (h : st ≠ []) : spell sep st = sep :: [sep].intercalate st.reverse := by
  induction st with
  | nil => exact absurd rfl h
  | cons c st ih =>
    rw [spell]
    cases st with
    | nil => simp [spell]
    | cons d st =>
      have hne : (d :: st).reverse ≠ [] := by simp
      have hrev : (c :: d :: st).reverse = (d :: st).reverse ++ [c] := List.reverse_cons
      rw [ih (List.cons_ne_nil d st), hrev, intercalate_concat sep hne, List.cons_append]

end Resolve

end Components
