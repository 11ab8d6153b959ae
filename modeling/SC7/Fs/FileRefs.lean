-- SUMMARY: Along every run of calls that avoid the slips of the code, `f_count` is the number of references.
import SC7.Fs.File

/-!
# References to open files

`Counted` says that every `f_count` is the number of descriptors of live
processes and of VMAs that refer to the file. Each call changes both sides by
the same amount, unless it comes to one of the places listed in `Meets`.
-/

namespace SC7.Files

open Function (update update_eq_self update_idem update_of_ne update_self)
open Tally (one one_none one_nonneg one_self one_of_ne)

/-! ## Counting references -/

/-- The references of the VMAs in a list. -/
def areaRefs (areas : List Area) (f : FileId) : Int := (areas.map fun a => one a.file f).sum

/-- The references of a process: its descriptors and its VMAs. -/
def Proc.refs (pr : Proc) (f : FileId) : Int := ∑ fd, one (pr.ofile fd) f + areaRefs pr.areas f

/-- The references of a slot of the process table. -/
def slotRefs (f : FileId) : Option Proc → Int
  | none => 0
  | some pr => pr.refs f

namespace State

/-- All references to a file. -/
def refs (s : State) (f : FileId) : Int := ∑ p, slotRefs f (s.proc p)

/-- Every `f_count` is the number of references. -/
def Counted (s : State) : Prop := ∀ f, s.count f = s.refs f

end State

variable {s s' : State} {p : Slot} {pr pr' : Proc} {f g : FileId} {fd fd' : Fin NOFILE} {n : Int} {v : Option FileId}

section Refs

@[simp] theorem areaRefs_nil : areaRefs [] f = 0 := rfl

@[simp] theorem areaRefs_cons {a : Area} {areas : List Area} :
    areaRefs (a :: areas) f = one a.file f + areaRefs areas f := by
  simp [areaRefs]

@[simp] theorem areaRefs_append {l l' : List Area} : areaRefs (l ++ l') f = areaRefs l f + areaRefs l' f := by
  simp [areaRefs]

theorem areaRefs_nonneg {areas : List Area} : 0 ≤ areaRefs areas f := by
  induction areas with
  | nil => exact le_rfl
  | cons a areas ih =>
    have hone : 0 ≤ one a.file f := one_nonneg
    rw [areaRefs_cons]
    omega

theorem areaRefs_eq_zero {areas : List Area} (h : ∀ a ∈ areas, a.file = none) : areaRefs areas f = 0 := by
  induction areas with
  | nil => rfl
  | cons a areas ih =>
    rw [areaRefs_cons, h a (List.mem_cons_self ..), one_none,
      ih fun b hb => h b (List.mem_cons_of_mem _ hb), Int.add_zero]

theorem refs_set (v : Option FileId) : (pr.set fd v).refs f = pr.refs f - one (pr.ofile fd) f + one v f := by
  have h := Tally.sum_update (fun e => one e f) pr.ofile fd v
  simp only [Proc.refs, Proc.set] at h ⊢
  omega

/-- A free descriptor is filled. -/
theorem refs_fill (hfree : pr.ofile fd = none) : (pr.set fd (some f)).refs g = pr.refs g + one (some f) g := by
  rw [refs_set, hfree, one_none]
  omega

theorem refs_areas {areas : List Area} :
    ({ pr with areas } : Proc).refs f = pr.refs f - areaRefs pr.areas f + areaRefs areas f := by
  simp only [Proc.refs]
  omega

theorem refs_nonneg : 0 ≤ pr.refs f := by
  have hslots : 0 ≤ ∑ fd, one (pr.ofile fd) f := Finset.sum_nonneg fun _ _ => one_nonneg
  have hareas : 0 ≤ areaRefs pr.areas f := areaRefs_nonneg
  rw [Proc.refs]
  omega

theorem one_le_refs : one (pr.ofile fd) f ≤ pr.refs f := by
  have hslot := Tally.le_sum (w := fun fd => one (pr.ofile fd) f) (fun _ => one_nonneg) fd
  have hareas : 0 ≤ areaRefs pr.areas f := areaRefs_nonneg
  rw [Proc.refs]
  omega

theorem refs_put (h : s.proc p = some pr) : (s.put p pr').refs f = s.refs f - pr.refs f + pr'.refs f := by
  have hsum := Tally.sum_update (slotRefs f) s.proc p (some pr')
  rw [h] at hsum
  exact hsum

theorem refs_put_new (h : s.proc p = none) : (s.put p pr').refs f = s.refs f + pr'.refs f := by
  have hsum := Tally.sum_update (slotRefs f) s.proc p (some pr')
  rw [h] at hsum
  simpa [slotRefs, State.refs, State.put] using hsum

@[simp] theorem refs_setCount {n : Int} : (s.setCount f n).refs g = s.refs g := rfl

@[simp] theorem count_put : (s.put p pr).count = s.count := rfl

theorem proc_put : (s.put p pr).proc p = some pr := update_self ..

/-- `f_count` moves by `d`. -/
theorem count_add {d : Int} : (s.setCount f (s.count f + d)).count g = s.count g + d * one (some f) g :=
  Tally.update_add ..

theorem le_refs (h : s.proc p = some pr) : pr.refs f ≤ s.refs f := by
  have hle := Tally.le_sum (w := fun q => slotRefs f (s.proc q)) ?_ p
  · rw [h] at hle
    exact hle
  · intro q
    cases s.proc q with
    | none => exact le_rfl
    | some pr => exact refs_nonneg

end Refs

/-! ## References are live -/

namespace State.Counted

/-- A descriptor refers to a file that is in use. -/
theorem pos (h : s.Counted) (hp : s.proc p = some pr) (hfd : pr.ofile fd = some f) : 1 ≤ s.count f := by
  have hone : one (pr.ofile fd) f ≤ pr.refs f := one_le_refs
  rw [hfd, one_self] at hone
  have hle := le_refs (f := f) hp
  rw [h f]
  omega

/-- So does a VMA. -/
theorem area_pos (h : s.Counted) (hp : s.proc p = some pr) {a : Area} (ha : a ∈ pr.areas)
    (hfile : a.file = some f) : 1 ≤ s.count f := by
  obtain ⟨l, l', hsplit⟩ := List.append_of_mem ha
  have hslots : 0 ≤ ∑ fd, one (pr.ofile fd) f := Finset.sum_nonneg fun _ _ => one_nonneg
  have hone : 1 ≤ areaRefs pr.areas f := by
    rw [hsplit, areaRefs_append, areaRefs_cons, hfile, one_self]
    have hl : 0 ≤ areaRefs l f := areaRefs_nonneg
    have hl' : 0 ≤ areaRefs l' f := areaRefs_nonneg
    omega
  have hle := le_refs (f := f) hp
  rw [h f]
  rw [Proc.refs] at hle
  omega

end State.Counted

theorem slot_eq_some (h : pr.slot n = some f) : ∃ fd, Proc.index n = some fd ∧ pr.ofile fd = some f :=
  Option.bind_eq_some_iff.mp h

theorem index_inj {m : Int} (hn : Proc.index n = some fd) (hm : Proc.index m = some fd) : n = m := by
  rw [Proc.index] at hn hm
  split at hn
  · split at hm
    · have hval := congrArg Fin.val (Option.some.inj (hn.trans hm.symm))
      dsimp only at hval
      omega
    · cases hm
  · cases hn

theorem fdalloc_free (h : pr.fdalloc = some fd) : pr.ofile fd = none := by
  have hfound := List.find?_some h
  simp only [decide_eq_true_eq] at hfound
  exact hfound.2

theorem fdalloc2_free {n : Nat} (h : pr.fdalloc2 n = some fd) : pr.ofile fd = none := by
  have hfound := List.find?_some h
  simp only [decide_eq_true_eq] at hfound
  exact hfound.2

theorem filealloc_eq (h : s.filealloc = some (f, s')) :
    s.count f = 0 ∧ s' = s.setCount f (s.count f + 1) := by
  obtain ⟨f', hfind, heq⟩ := Option.map_eq_some_iff.mp h
  cases heq
  have hzero : s.count f = 0 := by simpa using List.find?_some hfind
  rw [hzero]
  exact ⟨rfl, rfl⟩

/-- Giving the reference of a new file structure back. -/
theorem setCount_back (hzero : s.count f = 0) : (s.setCount f n).setCount f 0 = s := by
  cases s with
  | mk count proc =>
    simp only [State.setCount, update_idem]
    rw [← hzero, update_eq_self]

theorem set_back (hfree : pr.ofile fd = none) : (pr.set fd v).set fd none = pr := by
  cases pr with
  | mk ofile ofn rlim areas =>
    simp only [Proc.set, update_idem]
    rw [← hfree, update_eq_self]

theorem set_free (hfree : pr.ofile fd = none) : pr.set fd none = pr := by
  cases pr with
  | mk ofile ofn rlim areas =>
    simp only [Proc.set]
    rw [← hfree, update_eq_self]

/-- A descriptor that is free beside one that was filled was free before. -/
theorem free_beside (hfree : (pr.set fd (some f)).ofile fd' = none) : fd ≠ fd' ∧ pr.ofile fd' = none := by
  have hdiff : fd ≠ fd' := by
    rintro rfl
    have hfilled : (pr.set fd (some f)).ofile fd = some f := update_self ..
    rw [hfilled] at hfree
    cases hfree
  refine ⟨hdiff, ?_⟩
  rw [← hfree]
  exact (update_of_ne hdiff.symm ..).symm

/-- The two descriptors of a pipe are taken out again. -/
theorem set_two_back (hfree : pr.ofile fd = none) (hfree' : (pr.set fd (some f)).ofile fd' = none) :
    (((pr.set fd (some f)).set fd' v).set fd none).set fd' none = pr := by
  obtain ⟨hdiff, hfree''⟩ := free_beside hfree'
  cases pr with
  | mk ofile ofn rlim areas =>
    simp only [Proc.set] at hfree hfree'' ⊢
    rw [Function.update_comm hdiff.symm, update_idem, update_idem, ← hfree,
      update_eq_self, hfree, ← hfree'', update_eq_self]

theorem put_same (hp : s.proc p = some pr) : s.put p pr = s := by
  cases s with
  | mk count proc =>
    simp only [State.put]
    rw [← hp, update_eq_self]

theorem put_back (hp : s.proc p = some pr) : (s.put p pr').put p pr = s := by
  cases s with
  | mk count proc =>
    simp only [State.put, update_idem]
    rw [← hp, update_eq_self]

/-! ## Descriptors -/

section Descriptors

/-- A descriptor is filled and the reference counted. -/
theorem State.Counted.fill (h : s.Counted) (hp : s.proc p = some pr) (hfree : pr.ofile fd = none) :
    ((s.setCount f (s.count f + 1)).put p (pr.set fd (some f))).Counted := by
  intro g
  have hput : ((s.setCount f (s.count f + 1)).put p (pr.set fd (some f))).refs g =
      s.refs g - pr.refs g + (pr.set fd (some f)).refs g := refs_put hp
  rw [count_put, count_add, hput, refs_fill hfree, h g]
  omega

/-- A descriptor is cleared and the reference dropped. -/
theorem State.Counted.clear (h : s.Counted) (hp : s.proc p = some pr) (hfd : pr.ofile fd = some f) :
    ((s.setCount f (s.count f - 1)).put p (pr.set fd none)).Counted := by
  intro g
  have hput : ((s.setCount f (s.count f - 1)).put p (pr.set fd none)).refs g =
      s.refs g - pr.refs g + (pr.set fd none).refs g := refs_put hp
  have hcount : (s.setCount f (s.count f - 1)).count g = s.count g + -1 * one (some f) g := count_add
  rw [count_put, hcount, hput, refs_set, hfd, one_none, h g]
  omega

theorem fileclose_eq (h : s.Counted) (hp : s.proc p = some pr) (hfd : pr.ofile fd = some f) :
    s.fileclose f = some (s.setCount f (s.count f - 1)) :=
  if_neg (Int.not_lt.mpr (h.pos hp hfd))

/-- The exits of `openat` that keep a file structure are not taken. -/
def OpenMeets (pr : Proc) (s : State) : OpenPath → Prop
  | .procfs => s.filealloc = none ∨ pr.fdalloc ≠ none
  | .regular symlink opened =>
    s.filealloc = none ∨ (pr.fdalloc ≠ none ∧ symlink = none ∧ 0 ≤ opened)
  | _ => True

/-- `openat` either opens a file or leaves everything as it was. -/
theorem sysOpenat_counted (h : s.Counted) (hp : s.proc p = some pr) {path : OpenPath}
    (hm : OpenMeets pr s path) :
    (sysOpenat p pr s path).2.Counted ∧ ((sysOpenat p pr s path).1 < 0 → (sysOpenat p pr s path).2 = s) := by
  -- the two ways out that all kinds of paths share
  have hopened : ∀ {f : FileId} {t : State} {fd : Fin NOFILE}, s.filealloc = some (f, t) →
      pr.fdalloc = some fd → (t.put p (pr.set fd (some f))).Counted := by
    intro f t fd halloc hfd
    obtain ⟨-, rfl⟩ := filealloc_eq halloc
    exact h.fill hp (fdalloc_free hfd)
  have hnonneg : ∀ fd : Fin NOFILE, ¬((fd.val : Int) < 0) := fun fd => by omega
  cases path with
  | fails e =>
    dsimp only [sysOpenat]
    exact ⟨h, fun _ => rfl⟩
  | special =>
    dsimp only [sysOpenat]
    cases halloc : s.filealloc with
    | none => exact ⟨h, fun _ => rfl⟩
    | some r =>
      obtain ⟨f, t⟩ := r
      obtain ⟨hzero, rfl⟩ := filealloc_eq halloc
      cases hfd : pr.fdalloc with
      | none =>
        dsimp only
        rw [setCount_back hzero]
        exact ⟨h, fun _ => rfl⟩
      | some fd => exact ⟨hopened halloc hfd, fun hneg => absurd hneg (hnonneg fd)⟩
  | procfs =>
    dsimp only [sysOpenat]
    cases halloc : s.filealloc with
    | none => exact ⟨h, fun _ => rfl⟩
    | some r =>
      cases hfd : pr.fdalloc with
      | none => exact absurd hfd (hm.resolve_left (by rw [halloc]; nofun))
      | some fd => exact ⟨hopened halloc hfd, fun hneg => absurd hneg (hnonneg fd)⟩
  | tmpfile opened =>
    dsimp only [sysOpenat, vfsTmpfile]
    cases halloc : s.filealloc with
    | none => exact ⟨h, fun _ => rfl⟩
    | some r =>
      obtain ⟨f, t⟩ := r
      obtain ⟨hzero, rfl⟩ := filealloc_eq halloc
      cases hfd : pr.fdalloc with
      | none =>
        dsimp only
        rw [setCount_back hzero]
        exact ⟨h, fun _ => rfl⟩
      | some fd =>
        dsimp only
        split
        · have hsame : (((s.setCount f (s.count f + 1)).put p (pr.set fd (some f))).put p
              (pr.set fd none)).setCount f 0 = s := by
            have hp' : (s.setCount f (s.count f + 1)).proc p = some pr := hp
            rw [set_free (fdalloc_free hfd), put_back hp', setCount_back hzero]
          rw [hsame]
          exact ⟨h, fun _ => rfl⟩
        · exact ⟨hopened halloc hfd, fun hneg => absurd hneg (hnonneg fd)⟩
  | regular symlink opened =>
    dsimp only [sysOpenat]
    cases halloc : s.filealloc with
    | none => exact ⟨h, fun _ => rfl⟩
    | some r =>
      obtain ⟨hsome, rfl, hok⟩ := hm.resolve_left (by rw [halloc]; nofun)
      cases hfd : pr.fdalloc with
      | none => exact absurd hfd hsome
      | some fd =>
        dsimp only
        rw [if_neg (Int.not_lt.mpr hok)]
        exact ⟨hopened halloc hfd, fun hneg => absurd hneg (hnonneg fd)⟩

theorem sysDup_counted (h : s.Counted) (hp : s.proc p = some pr) (n : Int) :
    ∃ r s', sysDup p pr s n = some (r, s') ∧ s'.Counted := by
  rw [sysDup]
  cases hslot : pr.slot n with
  | none => exact ⟨_, s, rfl, h⟩
  | some f =>
    obtain ⟨fd, -, hf⟩ := slot_eq_some hslot
    dsimp only
    split
    · exact ⟨_, s, rfl, h⟩
    cases hfd : pr.fdalloc with
    | none => exact ⟨_, s, rfl, h⟩
    | some newFd =>
      have hdup : (s.put p (pr.set newFd (some f))).filedup f =
          some ((s.put p (pr.set newFd (some f))).setCount f (s.count f + 1)) :=
        if_neg (Int.not_lt.mpr (h.pos hp hf))
      dsimp only
      rw [hdup]
      exact ⟨_, _, rfl, h.fill hp (fdalloc_free hfd)⟩

/-- The descriptor 0 is not what `F_DUPFD_CLOEXEC` finds, and the number to start from is one. -/
def DupfdMeets (pr : Proc) (fd : Int) (cloexec : Bool) (arg : Nat) : Prop :=
  pr.slot fd ≠ none →
    0 ≤ toInt32 arg ∧ (cloexec = true → ∀ new, pr.fdalloc2 (toInt32 arg).toNat = some new → new.val ≠ 0)

theorem dupfd_counted (h : s.Counted) (hp : s.proc p = some pr) (hf : pr.ofile fd = some f)
    {cloexec : Bool} {begin_ : Int} (hbegin : 0 ≤ begin_)
    (hnew : cloexec = true → ∀ new, pr.fdalloc2 begin_.toNat = some new → new.val ≠ 0) :
    ∃ r s', dupfd p pr s f cloexec begin_ = some (r, s') ∧ s'.Counted := by
  rw [dupfd, if_neg (Int.not_lt.mpr hbegin)]
  cases hfd : pr.fdalloc2 begin_.toNat with
  | none => exact ⟨_, s, rfl, h⟩
  | some newFd =>
    have hdup : (s.put p (pr.set newFd (some f))).filedup f =
        some ((s.put p (pr.set newFd (some f))).setCount f (s.count f + 1)) :=
      if_neg (Int.not_lt.mpr (h.pos hp hf))
    dsimp only
    rw [if_neg fun hzero => hnew hzero.1 newFd hfd hzero.2, hdup]
    exact ⟨_, _, rfl, h.fill hp (fdalloc2_free hfd)⟩

theorem sysFcntl_counted (h : s.Counted) (hp : s.proc p = some pr) {n : Int} {cloexec : Bool} {arg : Nat}
    (hm : DupfdMeets pr n cloexec arg) :
    ∃ r s', sysFcntl p pr s n cloexec arg = some (r, s') ∧ s'.Counted := by
  rw [sysFcntl]
  cases hslot : pr.slot n with
  | none => exact ⟨_, s, rfl, h⟩
  | some f =>
    obtain ⟨fd, -, hf⟩ := slot_eq_some hslot
    obtain ⟨hbegin, hnew⟩ := hm (by rw [hslot]; nofun)
    exact dupfd_counted h hp hf hbegin hnew

theorem sysClose_counted (h : s.Counted) (hp : s.proc p = some pr) (n : Int) :
    ∃ r s', sysClose p pr s n = some (r, s') ∧ s'.Counted := by
  rw [sysClose]
  split
  · exact ⟨_, s, rfl, h⟩
  cases hidx : Proc.index n with
  | none => exact ⟨_, s, rfl, h⟩
  | some fd =>
    dsimp only
    cases hfd : pr.ofile fd with
    | none => exact ⟨_, s, rfl, h⟩
    | some f =>
      have hclose : (s.put p (pr.set fd none)).fileclose f =
          some ((s.put p (pr.set fd none)).setCount f (s.count f - 1)) :=
        if_neg (Int.not_lt.mpr (h.pos hp hfd))
      dsimp only
      rw [hclose]
      exact ⟨_, _, rfl, h.clear hp hfd⟩

theorem sysDup3_counted (h : s.Counted) (hp : s.proc p = some pr) (oldfd newfd : Int) :
    ∃ r s', sysDup3 p pr s oldfd newfd = some (r, s') ∧ s'.Counted := by
  rw [sysDup3]
  cases hslot : pr.slot oldfd with
  | none => exact ⟨_, s, rfl, h⟩
  | some f =>
    obtain ⟨old, hold, hf⟩ := slot_eq_some hslot
    dsimp only
    split
    · exact ⟨_, s, rfl, h⟩
    rename_i hne
    cases hidx : Proc.index newfd with
    | none => exact ⟨_, s, rfl, h⟩
    | some new =>
      dsimp only
      split
      · exact ⟨_, s, rfl, h⟩
      cases hnew : pr.ofile new with
      | none =>
        have hdup : (s.put p (pr.set new (some f))).filedup f =
            some ((s.put p (pr.set new (some f))).setCount f (s.count f + 1)) :=
          if_neg (Int.not_lt.mpr (h.pos hp hf))
        dsimp only [Option.bind]
        rw [hdup]
        exact ⟨_, _, rfl, h.fill hp hnew⟩
      | some g =>
        -- the old descriptor is another one, so the file survives if it is the same
        have hne' : old ≠ new := by
          rintro rfl
          exact hne (index_inj hold hidx)
        have hclosed := h.clear hp hnew
        have hp' : ((s.setCount g (s.count g - 1)).put p (pr.set new none)).proc p =
            some (pr.set new none) := proc_put
        have hf' : (pr.set new none).ofile old = some f := by
          rw [← hf]
          exact update_of_ne hne' ..
        have hpos := hclosed.pos hp' hf'
        have hfilled := hclosed.fill hp' (show (pr.set new none).ofile new = none from
          update_self ..) (f := f)
        dsimp only
        rw [fileclose_eq h hp hnew, Option.bind_some]
        have hdup : ((s.setCount g (s.count g - 1)).put p (pr.set new (some f))).filedup f =
            some (((s.setCount g (s.count g - 1)).put p (pr.set new (some f))).setCount f
              ((s.setCount g (s.count g - 1)).count f + 1)) := if_neg (Int.not_lt.mpr hpos)
        rw [hdup]
        refine ⟨_, _, rfl, ?_⟩
        convert hfilled using 1
        simp only [State.put, State.setCount, Proc.set, update_idem]

/-- Two new file structures are different ones, with one reference each. -/
theorem filealloc_two {wf : FileId} {t : State} (hrf : s.filealloc = some (f, s'))
    (hwf : s'.filealloc = some (wf, t)) :
    t.proc = s.proc ∧ t.count f = 1 ∧ t.count wf = 1 ∧ f ≠ wf ∧
      ∀ g, t.count g = s.count g + one (some f) g + one (some wf) g := by
  obtain ⟨hzero, rfl⟩ := filealloc_eq hrf
  obtain ⟨hzero', rfl⟩ := filealloc_eq hwf
  have hcount : ∀ g, (((s.setCount f (s.count f + 1)).setCount wf
      ((s.setCount f (s.count f + 1)).count wf + 1))).count g =
        s.count g + one (some f) g + one (some wf) g := by
    intro g
    rw [count_add, count_add]
    omega
  have hne : f ≠ wf := by
    rintro rfl
    rw [count_add, hzero, one_self] at hzero'
    exact absurd hzero' (by decide)
  refine ⟨rfl, ?_, ?_, hne, hcount⟩
  · rw [hcount, hzero, one_self, one_of_ne hne.symm]
    rfl
  · rw [count_add, one_of_ne hne] at hzero'
    rw [hcount, one_self, one_of_ne hne]
    omega

/-- Both ends of a new pipe are closed again, with no descriptor for either. -/
theorem closeBoth_counted {wf : FileId} {t : State} (h : s.Counted) (hne : f ≠ wf) (hf : t.count f = 1)
    (hwf : t.count wf = 1) (hcount : ∀ g, t.count g = s.count g + one (some f) g + one (some wf) g)
    (hrefs : ∀ g, t.refs g = s.refs g) {r : Int} :
    ∃ s', ((t.fileclose f).bind fun t => (t.fileclose wf).map fun t => (r, t)) = some (r, s') ∧
      s'.Counted := by
  have hclose : t.fileclose f = some (t.setCount f (t.count f + -1)) := if_neg (by omega)
  have hwf' : (t.setCount f (t.count f + -1)).count wf = 1 := by
    rw [count_add, hwf, one_of_ne hne]
    rfl
  have hclose' : (t.setCount f (t.count f + -1)).fileclose wf =
      some ((t.setCount f (t.count f + -1)).setCount wf ((t.setCount f (t.count f + -1)).count wf + -1)) :=
    if_neg (by omega)
  rw [hclose, Option.bind_some, hclose', Option.map_some]
  refine ⟨_, rfl, fun g => ?_⟩
  rw [count_add, count_add, refs_setCount, refs_setCount, hcount, hrefs, h g]
  omega

theorem sysPipe2_counted (h : s.Counted) (hp : s.proc p = some pr) (checked copied : Bool) :
    ∃ r s', sysPipe2 p pr s checked copied = some (r, s') ∧ s'.Counted := by
  rw [sysPipe2]
  split
  · exact ⟨_, s, rfl, h⟩
  cases hrf : s.filealloc with
  | none => exact ⟨_, s, rfl, h⟩
  | some r =>
    obtain ⟨rf, t⟩ := r
    dsimp only
    cases hwf : t.filealloc with
    | none =>
      obtain ⟨hzero, rfl⟩ := filealloc_eq hrf
      have hone : (s.setCount rf (s.count rf + 1)).count rf = 1 := by
        rw [count_add, hzero, one_self]
        rfl
      have hclose : (s.setCount rf (s.count rf + 1)).fileclose rf = some s := by
        rw [State.fileclose, if_neg (by omega), hone, Int.sub_self, setCount_back hzero]
      dsimp only
      rw [hclose]
      exact ⟨_, s, rfl, h⟩
    | some r =>
      obtain ⟨wf, u⟩ := r
      obtain ⟨hproc, hone, hone', hne, hcount⟩ := filealloc_two hrf hwf
      have hpu : u.proc p = some pr := by rw [hproc, hp]
      have hrefs : ∀ g, u.refs g = s.refs g := by
        intro g
        rw [State.refs, State.refs, hproc]
      -- a process whose descriptors are as before
      have hback : ∀ r : Int, ∃ s', ((u.put p pr).fileclose rf).bind
          (fun t => (t.fileclose wf).map fun t => (r, t)) = some (r, s') ∧ s'.Counted := by
        intro r
        have hsame : u.put p pr = u := put_same hpu
        rw [hsame]
        exact closeBoth_counted h hne hone hone' hcount hrefs
      dsimp only
      cases hread : pr.fdalloc with
      | none =>
        obtain ⟨s', hs', hc⟩ := closeBoth_counted h hne hone hone' hcount hrefs (r := -EMFILE)
        exact ⟨_, s', hs', hc⟩
      | some fdread =>
        have hfree := fdalloc_free hread
        dsimp only
        cases hwrite : (pr.set fdread (some rf)).fdalloc with
        | none =>
          dsimp only
          rw [set_back hfree]
          obtain ⟨s', hs', hc⟩ := hback (-EMFILE)
          exact ⟨_, s', hs', hc⟩
        | some fdwrite =>
          have hfree' := fdalloc_free hwrite
          dsimp only
          split
          · refine ⟨_, _, rfl, fun g => ?_⟩
            rw [count_put, hcount, refs_put hpu, refs_fill hfree', refs_fill hfree, hrefs, h g]
            omega
          · rw [set_two_back hfree hfree']
            obtain ⟨s', hs', hc⟩ := hback (-1)
            exact ⟨_, s', hs', hc⟩

end Descriptors

/-! ## Processes -/

section Processes

variable {np : Slot} {child : Proc} {fds : List (Fin NOFILE)}

/-- `vma_copy` looks the descriptors up in a child that has none yet. -/
theorem vmaCopy_eq {areas : List Area} (hnone : ∀ fd, child.ofile fd = none) :
    vmaCopy child areas s = some s := by
  induction areas with
  | nil => rfl
  | cons a areas ih =>
    have hslot : child.slot a.fd = none := by
      rw [Proc.slot]
      cases Proc.index a.fd with
      | none => rfl
      | some i => exact hnone i
    rw [vmaCopy, hslot]
    dsimp only
    rw [ite_self, Option.bind_some, ih]

theorem copyFiles_counted (h : s.Counted) (hp : s.proc p = some pr)
    (hnp : s.proc np = some child) (hne : p ≠ np) (hnodup : fds.Nodup)
    (hfree : ∀ fd ∈ fds, child.ofile fd = none) :
    ∃ child' s', copyFiles pr np fds child s = some (child', s') ∧ s'.Counted := by
  induction fds generalizing s child with
  | nil => exact ⟨child, s, rfl, h⟩
  | cons fd fds ih =>
    have hfd := hfree fd (List.mem_cons_self ..)
    obtain ⟨hnot, hnodup'⟩ := List.nodup_cons.mp hnodup
    have hrest : ∀ (v : Option FileId), ∀ fd' ∈ fds, (child.set fd v).ofile fd' = none := by
      intro v fd' hmem
      rw [← hfree fd' (List.mem_cons_of_mem _ hmem)]
      refine update_of_ne ?_ ..
      rintro rfl
      exact hnot hmem
    rw [copyFiles]
    cases hf : pr.ofile fd with
    | none =>
      dsimp only
      rw [set_free hfd]
      rw [put_same hnp]
      exact ih h hp hnp hnodup' fun fd' hmem => hfree fd' (List.mem_cons_of_mem _ hmem)
    | some f =>
      have hpos := h.pos hp hf
      have hdup : s.filedup f = some (s.setCount f (s.count f + 1)) := if_neg (by omega)
      dsimp only
      rw [if_pos (by omega), hdup, Option.bind_some]
      refine ih (h.fill hnp hfd) ?_ proc_put hnodup' (hrest _)
      rw [← hp]
      exact update_of_ne hne ..

/-- No VMA maps a file: the child of a `fork` would map it too, without a reference, and `exit` does
not drop the reference. -/
def Proc.NoFileAreas (pr : Proc) : Prop := ∀ a ∈ pr.areas, a.file = none

theorem fork_counted (h : s.Counted) (hp : s.proc p = some pr) {np : Option Slot}
    (hfree : ∀ q, np = some q → s.proc q = none) (hareas : np ≠ none → pr.NoFileAreas) :
    ∃ r s', fork pr s np = some (r, s') ∧ s'.Counted := by
  cases np with
  | none => exact ⟨_, s, rfl, h⟩
  | some np =>
    replace hfree := hfree np rfl
    replace hareas := hareas nofun
    have hne : p ≠ np := by
      rintro rfl
      rw [hp] at hfree
      cases hfree
    have hstart : (s.put np ⟨fun _ => none, pr.ofn, pr.rlimNofile, pr.areas⟩).Counted := by
      intro g
      rw [count_put, refs_put_new hfree, h g, Proc.refs, areaRefs_eq_zero hareas]
      simp
    have hp' : (s.put np ⟨fun _ => none, pr.ofn, pr.rlimNofile, pr.areas⟩).proc p = some pr := by
      rw [← hp]
      exact update_of_ne hne ..
    obtain ⟨child, s', hcopy, hc⟩ := copyFiles_counted hstart hp' proc_put hne (List.nodup_finRange _)
      (fun _ _ => rfl)
    rw [fork, vmaCopy_eq fun _ => rfl, Option.bind_some, hcopy]
    exact ⟨_, s', rfl, hc⟩

theorem closeFiles_counted (h : s.Counted) (hp : s.proc p = some pr) (hrest : ∀ fd, fd ∉ fds → pr.ofile fd = none) :
    ∃ s' pr', closeFiles p fds pr s = some s' ∧ s'.Counted ∧ s'.proc p = some pr' ∧
      (∀ fd, pr'.ofile fd = none) ∧ pr'.areas = pr.areas := by
  induction fds generalizing s pr with
  | nil => exact ⟨s, pr, rfl, h, hp, fun fd => hrest fd List.not_mem_nil, rfl⟩
  | cons fd fds ih =>
    rw [closeFiles]
    cases hfd : pr.ofile fd with
    | none =>
      refine ih h hp fun fd' hnot => ?_
      by_cases heq : fd' = fd
      · rw [heq, hfd]
      · exact hrest fd' fun hmem => (List.mem_cons.mp hmem).elim heq hnot
    | some f =>
      dsimp only
      rw [fileclose_eq h hp hfd, Option.bind_some]
      refine ih (h.clear hp hfd) proc_put fun fd' hnot => ?_
      by_cases heq : fd' = fd
      · rw [heq]
        exact update_self ..
      · rw [← hrest fd' fun hmem => (List.mem_cons.mp hmem).elim heq hnot]
        exact update_of_ne heq ..

theorem exit_counted (h : s.Counted) (hp : s.proc p = some pr) (hareas : pr.NoFileAreas) :
    ∃ r s', exit p pr s = some (r, s') ∧ s'.Counted := by
  obtain ⟨t, pr', hclose, hc, hp', hnone, hsame⟩ := closeFiles_counted h hp
    (fun fd hnot => absurd (List.mem_finRange fd) hnot)
  rw [exit, hclose]
  refine ⟨_, _, rfl, fun g => ?_⟩
  have hsum := Tally.sum_update (slotRefs g) t.proc p none
  have hzero : slotRefs g (t.proc p) = 0 := by
    rw [hp', slotRefs, Proc.refs, hsame, areaRefs_eq_zero hareas]
    simp [hnone]
  rw [hzero] at hsum
  change t.count g = ∑ q, slotRefs g (update t.proc p none q)
  rw [hsum, hc g, State.refs, slotRefs]
  omega

end Processes

end SC7.Files
