-- SUMMARY: `vfs_check_len` (`file.c`): its loops over a path, and that they measure the whole path and each of its components.
import SC7.Base.CString
import SC7.Fs.Unlink

/-!
# The length of a path

`vfs_check_len` measures the path with `strlen` and then walks over it once: in each round over slashes, and over
the component behind them. A read behind the terminator is a failure, and so is a count that does not fit its `int`.
-/

namespace SC7.PathLength

open Exec (Str)
open Path (slash)
open Unlink (MAXPATH NAME_MAX ENAMETOOLONG)
open Components (components)
open CString (read strlen skip)

/-- A path in the memory of the kernel: its bytes in front of the terminator. The memory has less than 2 GiB. -/
structure PathString where
  bytes : Str
  nonzero : 0 ∉ bytes
  fits : bytes.length < 2 ^ 31

/-- The loop over the components. -/
def checkLoop (path : Str) (pathPtr : Nat) : Nat → Option Int
  | 0 => none
  | turns + 1 => do
      if (← read path pathPtr) = 0 then return 0
      let componentStart ← skip (fun a => a = slash) path pathPtr
      if (← read path componentStart) = 0 then return 0
      let pathPtr ← skip (fun a => a ≠ 0 ∧ a ≠ slash) path componentStart
      let componentLen := Int.bmod ((pathPtr : Int) - componentStart) (2 ^ 32)
      if componentLen > NAME_MAX then return -ENAMETOOLONG
      checkLoop path pathPtr turns

def vfsCheckLen (path : Str) : Option Int := do
  if (← strlen path) ≥ MAXPATH then return -ENAMETOOLONG
  checkLoop path 0 (path.length + 1)

/-! ## The components -/

variable {p u v w c r path : Str} {i turns : Nat}

/-- No component is too long. -/
def Short (u : Str) : Prop := ∀ c ∈ components slash u, c.length ≤ NAME_MAX

theorem short_slashes (hv : ∀ a ∈ v, a = slash) : Short (v ++ w) ↔ Short w := by
  unfold Short
  rw [Components.components_seps_append hv]

theorem short_component (hc : slash ∉ c) (hne : c ≠ []) (hr : r = [] ∨ ∃ t, r = slash :: t) :
    Short (c ++ r) ↔ c.length ≤ NAME_MAX ∧ Short r := by
  unfold Short
  rw [Components.components_first hc hne hr, List.forall_mem_cons]

/-- The empty pieces between two slashes are not too long either. -/
theorem short_iff : Short u ↔ ∀ c ∈ u.splitOn slash, c.length ≤ NAME_MAX := by
  unfold Short components
  simp only [List.mem_filter, decide_eq_true_eq]
  constructor
  · intro h c hc
    by_cases hne : c = []
    · rw [hne]
      exact Nat.zero_le _
    · exact h c ⟨hc, hne⟩
  · intro h c hc
    exact h c hc.1

/-! ## The loop -/

/-- The difference of two pointers into a short path fits an `int`. -/
theorem componentLen_eq {start len : Nat} (h : len < MAXPATH) :
    Int.bmod (((start + len : Nat) : Int) - start) (2 ^ 32) = len := by
  rw [Nat.cast_add, add_sub_cancel_left]
  apply Int.bmod_eq_of_le_mul_two <;> unfold MAXPATH at h <;> omega

/-- A read at the start of a rest of the path. -/
theorem read_rest (hpath : path = p ++ u) (hi : i = p.length) : read path i = read u 0 := by
  subst hpath hi
  exact CString.read_append p u 0

theorem read_first (a : UInt8) (u : Str) : read (a :: u) 0 = some a := CString.read_cons [] u a

/-- The byte at the start of a component is no slash and no terminator. -/
theorem read_component (hc : slash ∉ c) (hne : c ≠ []) (h0 : 0 ∉ c) (r : Str) :
    ∃ a, read (c ++ r) 0 = some a ∧ a ≠ 0 ∧ a ≠ slash := by
  obtain ⟨a, c, rfl⟩ := List.exists_cons_of_ne_nil hne
  rw [List.mem_cons, not_or] at hc h0
  exact ⟨a, read_first a _, Ne.symm h0.1, Ne.symm hc.1⟩

/-- The byte behind a component is a slash or the terminator. -/
theorem read_behind (hr : r = [] ∨ ∃ t, r = slash :: t) : ∃ a, read r 0 = some a ∧ (a = 0 ∨ a = slash) := by
  rcases hr with rfl | ⟨t, rfl⟩
  · exact ⟨0, rfl, .inl rfl⟩
  · exact ⟨slash, read_first slash t, .inr rfl⟩

/-- The byte at a rest that starts with slashes, or with what comes behind them. -/
theorem read_slashes (hv : ∀ a ∈ v, a = slash) (hw : ∃ a, read w 0 = some a ∧ a ≠ slash) :
    ∃ a, read (v ++ w) 0 = some a ∧ (a = 0 → v = [] ∧ read w 0 = some 0) := by
  match v with
  | [] =>
    obtain ⟨a, ha, -⟩ := hw
    exact ⟨a, ha, fun h0 => ⟨rfl, h0 ▸ ha⟩⟩
  | b :: v =>
    rw [List.forall_mem_cons] at hv
    refine ⟨b, read_first b _, fun h0 => ?_⟩
    rw [hv.1] at h0
    cases h0

/-- A round goes over the slashes first. -/
theorem checkLoop_slashes (hpath : path = p ++ (v ++ w)) (hi : i = p.length) (hv : ∀ a ∈ v, a = slash)
    (hw : ∃ a, read w 0 = some a ∧ a ≠ slash) :
    checkLoop path i (turns + 1) = (do
      if (← read w 0) = 0 then return 0
      let pathPtr ← skip (fun a => a ≠ 0 ∧ a ≠ slash) path (i + v.length)
      if Int.bmod ((pathPtr : Int) - (i + v.length : Nat)) (2 ^ 32) > NAME_MAX then return -ENAMETOOLONG
      checkLoop path pathPtr turns) := by
  have hskip : skip (fun a => a = slash) path i = some (i + v.length) := by
    apply CString.skip_eq hpath hi
    · intro a ha
      exact decide_eq_true (hv a ha)
    · obtain ⟨a, ha, hne⟩ := hw
      exact ⟨a, ha, decide_eq_false hne⟩
  obtain ⟨hpath', hi'⟩ := CString.behind hpath hi
  obtain ⟨a, ha, h0⟩ := read_slashes hv hw
  rw [checkLoop, read_rest hpath hi, ha, hskip]
  simp only [Option.bind_eq_bind, Option.bind_some]
  rw [read_rest hpath' hi']
  split
  · rename_i hzero
    obtain ⟨-, hend⟩ := h0 hzero
    rw [hend]
    rfl
  · rfl

/-- One round at a component. -/
theorem checkLoop_component (hpath : path = p ++ (v ++ (c ++ r))) (hi : i = p.length) (hlen : path.length < MAXPATH)
    (h0 : 0 ∉ c) (hv : ∀ a ∈ v, a = slash) (hc : slash ∉ c) (hne : c ≠ []) (hr : r = [] ∨ ∃ t, r = slash :: t) :
    checkLoop path i (turns + 1) =
      if c.length ≤ NAME_MAX then checkLoop path (i + v.length + c.length) turns else some (-ENAMETOOLONG) := by
  obtain ⟨a, ha, ha0, haslash⟩ := read_component hc hne h0 r
  obtain ⟨hpath', hi'⟩ := CString.behind hpath hi
  have hskip : skip (fun a => a ≠ 0 ∧ a ≠ slash) path (i + v.length) = some (i + v.length + c.length) := by
    apply CString.skip_eq hpath' hi'
    · intro b hb
      exact decide_eq_true ⟨fun h => h0 (h ▸ hb), fun h => hc (h ▸ hb)⟩
    · obtain ⟨b, hb, hstop⟩ := read_behind hr
      exact ⟨b, hb, decide_eq_false fun h => hstop.elim h.1 h.2⟩
  have hclen : c.length < MAXPATH := by
    rw [hpath] at hlen
    simp only [List.length_append] at hlen
    omega
  rw [checkLoop_slashes hpath hi hv ⟨a, ha, haslash⟩, ha]
  simp only [Option.bind_eq_bind, Option.bind_some, ha0, if_false, hskip, componentLen_eq hclen]
  by_cases hshort : c.length ≤ NAME_MAX
  · rw [if_neg (by omega), if_pos hshort]
  · rw [if_pos (by omega), if_neg hshort]
    rfl

/-- The loop tells whether the components of the rest are short. Each round takes at least one byte. -/
theorem checkLoop_eq (hpath : path = p ++ u) (hi : i = p.length) (hlen : path.length < MAXPATH) (h0 : 0 ∉ path)
    (hturns : u.length < turns) :
    ∃ ret, checkLoop path i turns = some ret ∧ (Short u ∧ ret = 0 ∨ ¬Short u ∧ ret = -ENAMETOOLONG) := by
  induction turns generalizing p u i with
  | zero => omega
  | succ turns ih =>
    obtain ⟨v, w, rfl, hv, hw⟩ := Components.exists_component slash u
    rw [short_slashes hv]
    rcases hw with rfl | ⟨c, r, rfl, hc, hne, hr⟩
    · rw [checkLoop_slashes hpath hi hv ⟨0, rfl, by decide⟩]
      exact ⟨0, rfl, .inl ⟨by simp [Short], rfl⟩⟩
    · have hc0 : 0 ∉ c := fun h => h0 (by rw [hpath]; simp [h])
      rw [checkLoop_component hpath hi hlen hc0 hv hc hne hr, short_component hc hne hr]
      by_cases hshort : c.length ≤ NAME_MAX
      · rw [if_pos hshort]
        obtain ⟨hpath', hi'⟩ := CString.behind hpath hi
        obtain ⟨hpath'', hi''⟩ := CString.behind hpath' hi'
        have hpos := List.length_pos_iff.mpr hne
        obtain ⟨ret, hret, hcase⟩ := ih hpath'' hi'' (by simp only [List.length_append] at hturns; omega)
        exact ⟨ret, hret, by simpa [hshort] using hcase⟩
      · rw [if_neg hshort]
        exact ⟨-ENAMETOOLONG, rfl, .inr ⟨fun h => hshort h.1, rfl⟩⟩

/-! ## The whole path -/

/-- The path is short enough, and so is each of its components. -/
def FitsLimits (path : Str) : Prop := path.length < MAXPATH ∧ ∀ c ∈ path.splitOn slash, c.length ≤ NAME_MAX

theorem vfsCheckLen_cases (path : PathString) :
    ∃ ret, vfsCheckLen path.bytes = some ret ∧
      (FitsLimits path.bytes ∧ ret = 0 ∨ ¬FitsLimits path.bytes ∧ ret = -ENAMETOOLONG) := by
  unfold vfsCheckLen FitsLimits
  rw [CString.strlen_eq path.nonzero path.fits, ← short_iff]
  simp only [Option.bind_eq_bind, Option.bind_some]
  by_cases hlen : path.bytes.length < MAXPATH
  · rw [if_neg (by omega)]
    obtain ⟨ret, hret, hcase⟩ :=
      checkLoop_eq (p := []) (u := path.bytes) rfl rfl hlen path.nonzero (Nat.lt_succ_self _)
    exact ⟨ret, hret, by simpa [hlen] using hcase⟩
  · rw [if_pos (by omega)]
    exact ⟨-ENAMETOOLONG, rfl, .inr ⟨fun h => hlen h.1, rfl⟩⟩

/-- This is what `unlinkat` relies on. -/
theorem vfsCheckLen_eq_unlink (path : PathString) : vfsCheckLen path.bytes = some (Unlink.vfsCheckLen path.bytes) := by
  obtain ⟨ret, hret, hcase⟩ := vfsCheckLen_cases path
  rw [hret, Unlink.vfsCheckLen]
  grind [FitsLimits]

/-- `vfs_check_len` accepts a path if and only if it and its components are short enough, and reads nothing behind
its terminator. -/
theorem vfsCheckLen_exact (path : PathString) :
    ∃ ret, vfsCheckLen path.bytes = some ret ∧
      (ret = 0 ↔ path.bytes.length < MAXPATH ∧ ∀ c ∈ path.bytes.splitOn slash, c.length ≤ NAME_MAX) ∧
      (ret ≠ 0 → ret = -ENAMETOOLONG) := by
  obtain ⟨ret, hret, ⟨hfits, rfl⟩ | ⟨hnot, rfl⟩⟩ := vfsCheckLen_cases path
  · exact ⟨0, hret, iff_of_true rfl hfits, fun h => absurd rfl h⟩
  · exact ⟨-ENAMETOOLONG, hret, iff_of_false (by decide) hnot, fun _ => rfl⟩

end SC7.PathLength
