-- SUMMARY: The symbolic-link loop check (`check_symlink_loop` in `vfs_ext4.c`): for which file systems, paths and limits it is safe and right.
import SC7.Base.Walk
import SC7.Kernel.Exec

/-!
# Symbolic links

`check_symlink_loop` follows the links from a path with three buffers on its stack: the path it has reached,
the target of the link there, and the table of the paths it has come through. A write outside of a buffer is a
failure (`none`). The file system says what a path is; how its path lookup works is left open.
-/

namespace SC7.Symlink

open Exec (Str)

abbrev MAXPATH : Nat := 1024

abbrev ENOENT : Int := 2
abbrev EIO : Int := 5
abbrev ELOOP : Int := 40

def slash : UInt8 := 47

/-- What a path is. The target of a link is `none` if `ext4_readlink` fails. -/
inductive Entry where
  | missing
  | file
  | link (target : Option Str)
  deriving DecidableEq

abbrev FileSystem := Str → Entry

/-- The string in `link_target` after `ext4_readlink`: the buffer ends with a terminator. -/
def readLink (target : Str) : Str := target.take (MAXPATH - 1)

/-- The number of bytes in front of the last slash, that one included. -/
def dirLength (path : Str) : Nat := (path.reverse.dropWhile (· ≠ slash)).length

/-- The path that a link leads to: relative targets are appended to the directory of the link. -/
def resolve (path target : Str) : Str :=
  match target with
  | c :: rest => if c = slash then c :: rest else path.take (dirLength path) ++ c :: rest
  | [] => path.take (dirLength path)

/-- The loop with `visited_paths` as it is filled; the argument counts the turns that are left. -/
def followLoop (fs : FileSystem) (resolvedPath : Str) (visited : List Str) : Nat → Option Int
  | 0 => some (-ELOOP)
  | turns + 1 =>
    match fs resolvedPath with
    | .missing => some (-ENOENT)
    | .file => some 0
    | .link none => some (- EIO)
    | .link (some target) =>
      if resolvedPath ∈ visited then some (-ELOOP)
      -- the table has ten rows, and the test in front of the copy allows forty
      else if visited.length < 40 ∧ ¬visited.length < 10 then none
      else
        let visited := if visited.length < 40 then visited ++ [resolvedPath] else visited
        let resolvedPath := resolve resolvedPath (readLink target)
        if resolvedPath.length < MAXPATH then followLoop fs resolvedPath visited turns else none

/-- `check_symlink_loop(path, max_links)`. -/
def checkSymlinkLoop (fs : FileSystem) (path : Str) (maxLinks : Int) : Option Int :=
  if path.length < MAXPATH then followLoop fs path [] maxLinks.toNat else none

/-! ## Following links -/

/-- The path behind a link. -/
def next (fs : FileSystem) (path : Str) : Option Str :=
  match fs path with
  | .link (some target) => some (resolve path (readLink target))
  | _ => none

/-- At most `maxLinks` links, none of them twice, lead from the path to something that is no link. -/
def Resolves (fs : FileSystem) (path : Str) (maxLinks : Int) : Prop :=
  ∃ l q, Walk (next fs) path l q ∧ fs q = .file ∧ (l.length : Int) ≤ maxLinks ∧ (l ++ [q]).Nodup

/-- The check returns without a write outside of its buffers, with success exactly if the path resolves. -/
def Correct (fs : FileSystem) (path : Str) (maxLinks : Int) : Prop :=
  ∃ r, checkSymlinkLoop fs path maxLinks = some r ∧ (r = 0 ↔ Resolves fs path maxLinks)

/-- When it does. -/
structure Bounded (fs : FileSystem) (path : Str) (maxLinks : Int) : Prop where
  /-- The paths that it comes to are shorter than the buffer. -/
  short : ∀ l q, Walk (next fs) path l q → l.length ≤ maxLinks.toNat → l.Nodup → q.length < MAXPATH
  /-- It does not come through more than ten links. -/
  few : ∀ l q, Walk (next fs) path l q → l.length ≤ maxLinks.toNat → l.Nodup → l.length ≤ 10
  /-- What is as many links away as it may follow is no file. -/
  spare : ∀ l q, Walk (next fs) path l q → fs q = .file → (l.length : Int) ≠ maxLinks

variable {fs : FileSystem} {path p q : Str} {visited l : List Str} {turns : Nat} {maxLinks : Int}

/-- The links to come, behind those that were visited, fit the buffer and the table. -/
def Safe (fs : FileSystem) (p : Str) (visited : List Str) (turns : Nat) : Prop :=
  ∀ l q, Walk (next fs) p l q → l.length ≤ turns → (visited ++ l).Nodup →
    q.length < MAXPATH ∧ visited.length + l.length ≤ 10

/-- They lead to a file before the turns are over. -/
def Succeeds (fs : FileSystem) (p : Str) (visited : List Str) (turns : Nat) : Prop :=
  ∃ l q, Walk (next fs) p l q ∧ fs q = .file ∧ l.length < turns ∧ (visited ++ l).Nodup

theorem next_file (h : fs q = .file) : next fs q = none := by
  rw [next, h]

/-- Where there is no link, only the empty walk is left. -/
theorem safe_of_end (hend : next fs p = none) (hp : p.length < MAXPATH) (hlen : visited.length ≤ 10) :
    Safe fs p visited turns := by
  intro l q hwalk _ _
  obtain ⟨rfl, rfl⟩ := (Walk.end_iff hend).mp hwalk
  exact ⟨hp, hlen⟩

theorem not_succeeds_of_end (hend : next fs p = none) (hfile : fs p ≠ .file) : ¬Succeeds fs p visited turns := by
  rintro ⟨l, q, hwalk, hq, -⟩
  obtain ⟨rfl, rfl⟩ := (Walk.end_iff hend).mp hwalk
  exact hfile hq

/-- One link more. -/
theorem safe_step (hnext : next fs p = some q) (hp : p.length < MAXPATH) (hlen : visited.length ≤ 10) :
    Safe fs p visited (turns + 1) ↔ (p ∉ visited → visited.Nodup → Safe fs q (visited ++ [p]) turns) := by
  constructor
  · intro h _ _ l r hwalk hturns hnodup
    have := h (p :: l) r (.cons hnext hwalk) (Nat.succ_le_succ hturns) (by simpa using hnodup)
    rw [List.length_cons] at this
    rw [List.length_append, List.length_singleton]
    omega
  · intro h l r hwalk hturns hnodup
    obtain ⟨rfl, rfl⟩ | ⟨l, rfl, hrest⟩ := (Walk.step_iff hnext).mp hwalk
    · exact ⟨hp, hlen⟩
    · have hmem : p ∉ visited := fun hmem => (List.nodup_append.mp hnodup).2.2 p hmem p List.mem_cons_self rfl
      have := h hmem (List.nodup_append.mp hnodup).1 l r hrest (Nat.le_of_succ_le_succ hturns) (by simpa using hnodup)
      rw [List.length_append, List.length_singleton] at this
      rw [List.length_cons]
      omega

theorem succeeds_step (hnext : next fs p = some q) :
    Succeeds fs p visited (turns + 1) ↔ Succeeds fs q (visited ++ [p]) turns := by
  constructor
  · rintro ⟨l, r, hwalk, hfile, hturns, hnodup⟩
    obtain ⟨rfl, rfl⟩ | ⟨l, rfl, hrest⟩ := (Walk.step_iff hnext).mp hwalk
    · rw [next_file hfile] at hnext
      cases hnext
    · exact ⟨l, r, hrest, hfile, Nat.lt_of_succ_lt_succ hturns, by simpa using hnodup⟩
  · rintro ⟨l, r, hwalk, hfile, hturns, hnodup⟩
    exact ⟨p :: l, r, .cons hnext hwalk, hfile, Nat.succ_lt_succ hturns, by simpa using hnodup⟩

theorem nodup_visit (hnodup : visited.Nodup) (hmem : p ∉ visited) : (visited ++ [p]).Nodup := by
  refine List.nodup_append.mpr ⟨hnodup, List.nodup_singleton p, ?_⟩
  rintro a ha b hb rfl
  exact hmem (List.mem_singleton.mp hb ▸ ha)

/-- What the loop does is right: it fails if it is not safe, and otherwise finds the file if there is one. -/
def Follows (fs : FileSystem) (p : Str) (visited : List Str) (turns : Nat) (result : Option Int) : Prop :=
  (Safe fs p visited turns → ∃ r, result = some r ∧ (r = 0 ↔ Succeeds fs p visited turns)) ∧
    (¬Safe fs p visited turns → result = none)

/-- It stops with an error where the walk ends at something that is no file. -/
theorem follows_end {e : Int} (hend : next fs p = none) (hfile : fs p ≠ .file) (he : e ≠ 0) (hp : p.length < MAXPATH)
    (hlen : visited.length ≤ 10) : Follows fs p visited turns (some e) := by
  constructor
  · exact fun _ => ⟨e, rfl, iff_of_false he (not_succeeds_of_end hend hfile)⟩
  · exact fun h => absurd (safe_of_end hend hp hlen) h

/-- One turn at a link that was not visited before. -/
theorem follows_link (hnext : next fs p = some q) (hmem : p ∉ visited) (hnodup : visited.Nodup)
    (hp : p.length < MAXPATH) (hlen : visited.length ≤ 10)
    (ih : visited.length < 10 → q.length < MAXPATH →
      Follows fs q (visited ++ [p]) turns (followLoop fs q (visited ++ [p]) turns)) :
    Follows fs p visited (turns + 1)
      (if visited.length < 40 ∧ ¬visited.length < 10 then none
      else if q.length < MAXPATH then followLoop fs q (if visited.length < 40 then visited ++ [p] else visited) turns
      else none) := by
  have hsafe : Safe fs p visited (turns + 1) ↔ Safe fs q (visited ++ [p]) turns := by
    rw [safe_step hnext hp hlen]
    exact ⟨fun h => h hmem hnodup, fun h _ _ => h⟩
  have hhere : ([] : List Str).length ≤ turns ∧ (visited ++ [p] ++ []).Nodup := by
    rw [List.append_nil]
    exact ⟨Nat.zero_le _, nodup_visit hnodup hmem⟩
  rw [Follows, hsafe, succeeds_step hnext]
  by_cases htable : visited.length < 10
  · have h40 : visited.length < 40 := by omega
    rw [if_neg (fun h => h.2 htable), if_pos h40]
    by_cases hq : q.length < MAXPATH
    · rw [if_pos hq]
      exact ih htable hq
    · rw [if_neg hq]
      exact ⟨fun h => absurd (h [] q .nil hhere.1 hhere.2).1 hq, fun _ => rfl⟩
  · rw [if_pos ⟨by omega, htable⟩]
    refine ⟨fun h => ?_, fun _ => rfl⟩
    have hfew := (h [] q .nil hhere.1 hhere.2).2
    rw [List.length_append, List.length_singleton, List.length_nil] at hfew
    omega

theorem followLoop_follows (fs : FileSystem) (turns : Nat) (hnodup : visited.Nodup) (hlen : visited.length ≤ 10)
    (hp : p.length < MAXPATH) : Follows fs p visited turns (followLoop fs p visited turns) := by
  induction turns generalizing p visited with
  | zero =>
    have hsafe : Safe fs p visited 0 := by
      intro l q hwalk hturns _
      obtain rfl := List.length_eq_zero_iff.mp (Nat.le_zero.mp hturns)
      cases hwalk
      exact ⟨hp, hlen⟩
    refine ⟨fun _ => ⟨_, rfl, iff_of_false (by decide) ?_⟩, fun h => absurd hsafe h⟩
    rintro ⟨l, q, -, -, hturns, -⟩
    exact absurd hturns (Nat.not_lt_zero _)
  | succ turns ih =>
    unfold followLoop
    cases hentry : fs p with
    | missing => exact follows_end (by rw [next, hentry]) (by rw [hentry]; decide) (by decide) hp hlen
    | file =>
      refine ⟨fun _ => ⟨_, rfl, iff_of_true rfl ?_⟩, fun h => absurd (safe_of_end (next_file hentry) hp hlen) h⟩
      exact ⟨[], p, .nil, hentry, Nat.succ_pos _, by rwa [List.append_nil]⟩
    | link target =>
      cases target with
      | none => exact follows_end (by rw [next, hentry]) (by rw [hentry]; simp) (by decide) hp hlen
      | some target =>
        have hnext : next fs p = some (resolve p (readLink target)) := by rw [next, hentry]
        dsimp only
        by_cases hmem : p ∈ visited
        · rw [if_pos hmem]
          have hsafe : Safe fs p visited (turns + 1) := (safe_step hnext hp hlen).mpr fun hno => absurd hmem hno
          refine ⟨fun _ => ⟨_, rfl, iff_of_false (by decide) ?_⟩, fun h => absurd hsafe h⟩
          rw [succeeds_step hnext]
          rintro ⟨l, q, -, -, -, hno⟩
          rw [List.append_assoc, List.nodup_append] at hno
          exact hno.2.2 p hmem p (by simp) rfl
        · rw [if_neg hmem]
          refine follows_link hnext hmem hnodup hp hlen fun htable hq => ih (nodup_visit hnodup hmem) ?_ hq
          rw [List.length_append, List.length_singleton]
          omega

theorem safe_iff : Safe fs path [] turns ↔
    (∀ l q, Walk (next fs) path l q → l.length ≤ turns → l.Nodup → q.length < MAXPATH) ∧
    ∀ l q, Walk (next fs) path l q → l.length ≤ turns → l.Nodup → l.length ≤ 10 := by
  simp only [Safe, List.nil_append, List.length_nil, Nat.zero_add]
  constructor
  · intro h
    exact ⟨fun l q hwalk hturns hl => (h l q hwalk hturns hl).1, fun l q hwalk hturns hl => (h l q hwalk hturns hl).2⟩
  · intro h l q hwalk hturns hl
    exact ⟨h.1 l q hwalk hturns hl, h.2 l q hwalk hturns hl⟩

/-- The loop succeeds for the paths that resolve, but for those with as many links as it may follow. -/
theorem succeeds_iff_resolves :
    (Succeeds fs path [] maxLinks.toNat ↔ Resolves fs path maxLinks) ↔
      ∀ l q, Walk (next fs) path l q → fs q = .file → (l.length : Int) ≠ maxLinks := by
  constructor
  · intro hiff l q hwalk hfile heq
    obtain ⟨l', q', hwalk', hfile', hlt, -⟩ :=
      hiff.mpr ⟨l, q, hwalk, hfile, le_of_eq heq, hwalk.nodup (next_file hfile)⟩
    obtain ⟨rfl, -⟩ := hwalk.unique (next_file hfile) hwalk' (next_file hfile')
    omega
  · intro hspare
    constructor
    · rintro ⟨l, q, hwalk, hfile, hlt, -⟩
      exact ⟨l, q, hwalk, hfile, by omega, hwalk.nodup (next_file hfile)⟩
    · rintro ⟨l, q, hwalk, hfile, hle, hl⟩
      have hne := hspare l q hwalk hfile
      exact ⟨l, q, hwalk, hfile, by omega, hl.of_append_left⟩

/-- The check is safe and right exactly for bounded walks. -/
theorem checkSymlinkLoop_correct_iff (fs : FileSystem) (path : Str) (maxLinks : Int) :
    Correct fs path maxLinks ↔ Bounded fs path maxLinks := by
  unfold Correct checkSymlinkLoop
  by_cases hpath : path.length < MAXPATH
  · rw [if_pos hpath]
    obtain ⟨hgood, hbad⟩ := followLoop_follows fs maxLinks.toNat List.nodup_nil (Nat.zero_le 10) hpath
    by_cases hsafe : Safe fs path [] maxLinks.toNat
    · obtain ⟨r, hr, hiff⟩ := hgood hsafe
      obtain ⟨hshort, hfew⟩ := safe_iff.mp hsafe
      rw [hr]
      constructor
      · rintro ⟨r', hr', hright⟩
        cases hr'
        exact ⟨hshort, hfew, succeeds_iff_resolves.mp (hiff.symm.trans hright)⟩
      · intro h
        exact ⟨r, rfl, hiff.trans (succeeds_iff_resolves.mpr h.spare)⟩
    · rw [hbad hsafe]
      refine iff_of_false ?_ fun h => hsafe (safe_iff.mpr ⟨h.short, h.few⟩)
      rintro ⟨r, hr, -⟩
      cases hr
  · rw [if_neg hpath]
    refine iff_of_false ?_ fun h => hpath (h.short [] path .nil (Nat.zero_le _) List.nodup_nil)
    rintro ⟨r, hr, -⟩
    cases hr

/-- A chain of links `/1`, `/2`, ..., each to the next, with a file behind `n` of them. -/
def chainOf (n : Nat) : FileSystem
  | [47, k] => if k.toNat < n then .link (some [47, k + 1]) else .file
  | _ => .missing

/-- Eleven links are one more than the table has rows for. -/
theorem not_correct_chain : ¬Correct (chainOf 11) [47, 0] 40 := by
  rintro ⟨r, hr, -⟩
  have hnone : checkSymlinkLoop (chainOf 11) [47, 0] 40 = none := by decide
  rw [hnone] at hr
  cases hr

end SC7.Symlink
