-- SUMMARY: Which descriptor a call allocates: the lowest free one below the limit, when `fcntl` takes another one, and that descriptors stay below their limits along every run.
import SC7.Fs.FileRun

/-!
# Allocation of descriptors

`fdalloc` stops at the limit `p->ofn`, `fdalloc2` at the end of the table. The third argument of `fcntl` is a 64-bit
word that comes to `fdalloc2` as an `int`.

The limit at which a descriptor was allocated is a ghost of the runs.
-/

namespace SC7.Files

open Function (update update_eq_self update_of_ne update_self)

/-- A word as a signed number. -/
def toInt64 (n : Nat) : Int := Int.bmod n (2 ^ 64)

/-- The descriptor is free, not below the minimum, and below the limit. -/
def Proc.Available (pr : Proc) (min : Int) (fd : Fin NOFILE) : Prop := min ≤ fd.val ∧ fd.val < pr.ofn ∧ pr.ofile fd = none

/-- The lowest descriptor that is available is installed, and nothing else. -/
structure Takes (pr : Proc) (min : Int) (f : FileId) (fd : Fin NOFILE) (pr' : Proc) : Prop where
  least : IsLeast {k | pr.Available min k} fd
  installs : pr' = pr.set fd (some f)

/-- A call that returns `r` has allocated what it should. -/
def Succeeds (pr : Proc) (r : Int) (pr' : Proc) : Op → Prop
  | .openat _ => ∃ f fd, r = fd.val ∧ Takes pr 0 f fd pr'
  | .dup n => ∃ f fd, r = fd.val ∧ pr.slot n = some f ∧ Takes pr 0 f fd pr'
  | .dupfd n _ arg => ∃ f fd, r = fd.val ∧ pr.slot n = some f ∧ Takes pr (toInt64 arg) f fd pr'
  | .pipe2 _ _ => ∃ rf wf fdread fdwrite pr₁, Takes pr 0 rf fdread pr₁ ∧ Takes pr₁ 0 wf fdwrite pr'
  | _ => True

/-- There is no descriptor for the call. -/
def NoRoom (pr : Proc) : Op → Prop
  | .openat _ | .dup _ => ∀ k, ¬pr.Available 0 k
  | .dupfd _ _ arg => toInt64 arg < 0 ∨ ∀ k, ¬pr.Available (toInt64 arg) k
  | .pipe2 _ _ => ∀ j k, pr.Available 0 j → pr.Available 0 k → j = k
  | _ => False

/-- The numbers with which a call comes to the table without comparing them with its bounds. -/
def Op.Unchecked (pr : Proc) (i : Int) : Op → Prop
  | .dupfd n _ arg => pr.slot n ≠ none ∧ toInt32 arg ≤ i ∧ i < NOFILE
  | .mmap args => args.ofFile = true ∧ i = args.fd ∧ 0 ≤ i
  | _ => False

/-- The call stays within the table. -/
def Op.InBounds (pr : Proc) (op : Op) : Prop := ∀ i, op.Unchecked pr i → 0 ≤ i ∧ i < NOFILE

/-- What is asked of a call that allocates. -/
structure Right (p : Slot) (pr : Proc) (s : State) (op : Op) : Prop where
  inBounds : op.InBounds pr
  refuses : NoRoom pr op → ∃ r s', call p pr s op = some (r, s') ∧ r < 0 ∧ s'.proc = s.proc
  returns : ∀ r s', call p pr s op = some (r, s') → ∃ pr', s'.proc = update s.proc p (some pr') ∧
    (0 ≤ r → Succeeds pr r pr' op) ∧ ∀ fd, pr'.ofile fd = pr.ofile fd ∨ fd.val < pr.ofn

/-- The minimum of `fcntl` is not negative as an `int`, and the lowest free descriptor from there on is not below the
minimum itself and is below the limit. The number that a mapping gets is below the end of the table. -/
def Op.Fits (pr : Proc) : Op → Prop
  | .dupfd n _ arg => pr.slot n ≠ none → 0 ≤ toInt32 arg ∧
      ∀ k : Fin NOFILE, IsLeast {k | toInt32 arg ≤ k.val ∧ pr.ofile k = none} k →
        0 ≤ toInt64 arg ∧ toInt64 arg ≤ k.val ∧ k.val < pr.ofn
  | .mmap args => args.ofFile = true → args.fd < NOFILE
  | _ => True

/-- The calls that allocate. -/
def Op.Allocates : Op → Prop
  | .openat _ | .dup _ | .dupfd _ _ _ | .pipe2 _ _ => True
  | _ => False

/-- The errors that an `openat` meets on its way are negative numbers. -/
def Op.Answered : Op → Prop
  | .openat (.fails e) | .openat (.regular (some e) _) => e < 0
  | _ => True

variable {p q : Slot} {pr pr' : Proc} {s s' : State} {f : FileId} {fd : Fin NOFILE} {n r : Int} {op : Op}

/-! ## The two searches -/

/-- The first number for which a condition holds. -/
theorem find_finRange_eq_some_iff {m : Nat} {P : Fin m → Bool} {k : Fin m} :
    (List.finRange m).find? P = some k ↔ IsLeast {j | P j = true} k := by
  have hsearch := List.find?_ofFn_eq_some_of_injective (p := P) (i := k) (f := fun j => j) fun _ _ h => h
  rw [show List.finRange m = List.ofFn fun j => j from rfl, hsearch]
  refine and_congr_right fun _ => ?_
  constructor
  · intro hbefore j hj
    by_contra hlt
    exact hbefore j (not_le.mp hlt) hj
  · intro hleast j hlt hj
    exact absurd hlt (not_lt.mpr (hleast hj))

theorem fdalloc_eq_some_iff : pr.fdalloc = some fd ↔ IsLeast {k | pr.Available 0 k} fd := by
  unfold Proc.fdalloc
  rw [find_finRange_eq_some_iff]
  apply Iff.of_eq
  congr 1
  ext k
  simp only [Set.mem_ofPred_eq, decide_eq_true_eq]
  exact ⟨fun h => ⟨Int.natCast_nonneg _, h⟩, fun h => h.2⟩

theorem fdalloc_eq_none_iff : pr.fdalloc = none ↔ ∀ k, ¬pr.Available 0 k := by
  unfold Proc.fdalloc
  rw [List.find?_eq_none]
  simp only [List.mem_finRange, true_implies, decide_eq_true_eq]
  exact forall_congr' fun k => not_congr ⟨fun h => ⟨Int.natCast_nonneg _, h⟩, fun h => h.2⟩

theorem fdalloc2_eq_some_iff {m : Nat} : pr.fdalloc2 m = some fd ↔ IsLeast {k : Fin NOFILE | m ≤ k.val ∧ pr.ofile k = none} fd := by
  unfold Proc.fdalloc2
  rw [find_finRange_eq_some_iff]
  simp only [decide_eq_true_eq]

theorem fdalloc2_eq_none_iff {m : Nat} : pr.fdalloc2 m = none ↔ ∀ k : Fin NOFILE, ¬(m ≤ k.val ∧ pr.ofile k = none) := by
  unfold Proc.fdalloc2
  rw [List.find?_eq_none]
  simp only [List.mem_finRange, true_implies, decide_eq_true_eq]

/-- A descriptor that `fdalloc` gives is taken as it should be. -/
theorem takes_of_fdalloc (h : pr.fdalloc = some fd) : Takes pr 0 f fd (pr.set fd (some f)) :=
  ⟨fdalloc_eq_some_iff.mp h, rfl⟩

/-! ## The calls -/

section Calls

variable {path : OpenPath} {rf wf : FileId}

/-- A call that fails and leaves the processes alone. -/
theorem Right.refused (hp : s.proc p = some pr) (hin : op.InBounds pr) (hcall : call p pr s op = some (r, s'))
    (hr : r < 0) (hsame : s'.proc = s.proc) : Right p pr s op := by
  refine ⟨hin, fun _ => ⟨r, s', hcall, hr, hsame⟩, fun r' t hcall' => ?_⟩
  rw [hcall] at hcall'
  cases hcall'
  refine ⟨pr, ?_, fun h => absurd hr (Int.not_lt.mpr h), fun _ => .inl rfl⟩
  rw [hsame, ← hp, update_eq_self]

/-- A call that there is a descriptor for, and that changes the process at most. -/
theorem Right.taken (hin : op.InBounds pr) (hcall : call p pr s op = some (r, s'))
    (hproc : s'.proc = update s.proc p (some pr')) (hroom : ¬NoRoom pr op) (h : 0 ≤ r → Succeeds pr r pr' op)
    (hbelow : ∀ fd, pr'.ofile fd = pr.ofile fd ∨ fd.val < pr.ofn) : Right p pr s op := by
  refine ⟨hin, fun hno => absurd hno hroom, fun r' t hcall' => ?_⟩
  rw [hcall] at hcall'
  cases hcall'
  exact ⟨pr', hproc, h, hbelow⟩

theorem inBounds_of_checked (h : ∀ i, ¬op.Unchecked pr i) : op.InBounds pr := fun i hi => absurd hi (h i)

theorem set_self {v : Option FileId} : (pr.set fd v).ofile fd = v := update_self ..

theorem set_other {k : Fin NOFILE} {v : Option FileId} (h : k ≠ fd) : (pr.set fd v).ofile k = pr.ofile k :=
  update_of_ne h ..

/-- Filling a descriptor below the limit. -/
theorem below_set (h : fd.val < pr.ofn) (k : Fin NOFILE) : (pr.set fd (some f)).ofile k = pr.ofile k ∨ k.val < pr.ofn := by
  by_cases heq : k = fd
  · rw [heq]
    exact .inr h
  · exact .inl (set_other heq)

theorem below_of_fdalloc (h : pr.fdalloc = some fd) : fd.val < pr.ofn := (fdalloc_eq_some_iff.mp h).1.2.1

theorem proc_filealloc (h : s.filealloc = some (f, s')) : s'.proc = s.proc := by
  rw [(filealloc_eq h).2]
  rfl

theorem not_noRoom (h : pr.fdalloc = some fd) : ¬∀ k, ¬pr.Available 0 k := by
  rw [← fdalloc_eq_none_iff, h]
  nofun

/-- Past the errors of the path `openat` takes a file structure first. -/
theorem openat_empty (hpath : ∀ e, path ≠ .fails e) (halloc : s.filealloc = none) :
    sysOpenat p pr s path = (-ENFILE, s) := by
  unfold sysOpenat
  cases path with
  | fails e => exact absurd rfl (hpath e)
  | tmpfile opened =>
    unfold vfsTmpfile
    simp only [halloc]
  | special => simp only [halloc]
  | procfs => simp only [halloc]
  | regular symlink opened => simp only [halloc]

theorem openat_full (hpath : ∀ e, path ≠ .fails e) (halloc : s.filealloc = some (f, s')) (hfd : pr.fdalloc = none) :
    ∃ t, sysOpenat p pr s path = (-EMFILE, t) ∧ t.proc = s'.proc := by
  unfold sysOpenat
  cases path with
  | fails e => exact absurd rfl (hpath e)
  | tmpfile opened =>
    unfold vfsTmpfile
    simp only [halloc, hfd]
    exact ⟨_, rfl, rfl⟩
  | special =>
    simp only [halloc, hfd]
    exact ⟨_, rfl, rfl⟩
  | procfs =>
    simp only [halloc, hfd]
    exact ⟨_, rfl, rfl⟩
  | regular symlink opened =>
    simp only [halloc, hfd]
    exact ⟨_, rfl, rfl⟩

/-- The file is installed, and taken out again after an error but for that of a symbolic link. -/
theorem openat_installs (hpath : (Op.openat path).Answered) (hne : ∀ e, path ≠ .fails e)
    (halloc : s.filealloc = some (f, s')) (hfd : pr.fdalloc = some fd) :
    ∃ r t, sysOpenat p pr s path = (r, t) ∧
      ((t.proc = (s'.put p (pr.set fd (some f))).proc ∧ (0 ≤ r → r = fd.val)) ∨
        (t.proc = ((s'.put p (pr.set fd (some f))).put p (pr.set fd none)).proc ∧ r < 0)) := by
  unfold sysOpenat
  cases path with
  | fails e => exact absurd rfl (hne e)
  | tmpfile opened =>
    unfold vfsTmpfile
    simp only [halloc, hfd]
    split
    · rename_i hopened
      exact ⟨_, _, rfl, .inr ⟨rfl, hopened⟩⟩
    · exact ⟨_, _, rfl, .inl ⟨rfl, fun _ => rfl⟩⟩
  | special =>
    simp only [halloc, hfd]
    exact ⟨_, _, rfl, .inl ⟨rfl, fun _ => rfl⟩⟩
  | procfs =>
    simp only [halloc, hfd]
    exact ⟨_, _, rfl, .inl ⟨rfl, fun _ => rfl⟩⟩
  | regular symlink opened =>
    simp only [halloc, hfd]
    cases symlink with
    | some e => exact ⟨_, _, rfl, .inl ⟨rfl, fun h => absurd hpath (Int.not_lt.mpr h)⟩⟩
    | none =>
      dsimp only
      split
      · rename_i hopened
        exact ⟨_, _, rfl, .inr ⟨rfl, hopened⟩⟩
      · exact ⟨_, _, rfl, .inl ⟨rfl, fun _ => rfl⟩⟩

theorem openat_right (hp : s.proc p = some pr) (hpath : (Op.openat path).Answered) : Right p pr s (.openat path) := by
  have hin : (Op.openat path).InBounds pr := inBounds_of_checked fun _ h => h
  by_cases hne : ∀ e, path ≠ .fails e
  · cases halloc : s.filealloc with
    | none => exact .refused hp hin (congrArg some (openat_empty hne halloc)) (by decide) rfl
    | some taken =>
      obtain ⟨f, s₁⟩ := taken
      have hprocs := proc_filealloc halloc
      cases hfd : pr.fdalloc with
      | none =>
        obtain ⟨t, hcall, ht⟩ := openat_full (p := p) hne halloc hfd
        exact .refused hp hin (congrArg some hcall) (by decide) (ht.trans hprocs)
      | some fd =>
        obtain ⟨r, t, hcall, ⟨ht, hr⟩ | ⟨ht, hr⟩⟩ := openat_installs (p := p) hpath hne halloc hfd
        · refine .taken hin (congrArg some hcall) ?_ (not_noRoom hfd)
            (fun h => ⟨f, fd, hr h, takes_of_fdalloc hfd⟩) (below_set (below_of_fdalloc hfd))
          rw [ht, ← hprocs]
          rfl
        · refine .refused hp hin (congrArg some hcall) hr ?_
          rw [ht, set_free (fdalloc_free hfd), put_back ((congrFun hprocs p).trans hp), hprocs]
  · push Not at hne
    obtain ⟨e, rfl⟩ := hne
    exact .refused hp hin rfl hpath rfl

/-- `dup` and `fcntl` install a file that the process has open. -/
theorem filedup_put {t : State} (h : ((s.put p pr').filedup f).map (fun s => (n, s)) = some (r, t)) :
    r = n ∧ t.proc = update s.proc p (some pr') := by
  obtain ⟨u, hdup, heq⟩ := Option.map_eq_some_iff.mp h
  cases heq
  refine ⟨rfl, ?_⟩
  unfold State.filedup at hdup
  split at hdup
  · cases hdup
  · cases hdup
    rfl

theorem dup_right (hp : s.proc p = some pr) : Right p pr s (.dup n) := by
  have hin : (Op.dup n).InBounds pr := inBounds_of_checked fun _ h => h
  cases hslot : pr.slot n with
  | none =>
    have hcall : sysDup p pr s n = some (-EBADF, s) := by
      unfold sysDup
      rw [hslot]
    exact .refused hp hin hcall (by decide) rfl
  | some f =>
    by_cases hlimit : n ≥ pr.rlimNofile
    · have hcall : sysDup p pr s n = some (-EBADF, s) := by
        unfold sysDup
        simp only [hslot, if_pos hlimit]
      exact .refused hp hin hcall (by decide) rfl
    · cases hfd : pr.fdalloc with
      | none =>
        have hcall : sysDup p pr s n = some (-EMFILE, s) := by
          unfold sysDup
          simp only [hslot, if_neg hlimit, hfd]
        exact .refused hp hin hcall (by decide) rfl
      | some fd =>
        have hcall : sysDup p pr s n =
            ((s.put p (pr.set fd (some f))).filedup f).map fun s => ((fd.val : Int), s) := by
          unfold sysDup
          simp only [hslot, if_neg hlimit, hfd]
        refine ⟨hin, fun h => absurd h (not_noRoom hfd), fun r t hr => ?_⟩
        obtain ⟨rfl, ht⟩ := filedup_put (hcall.symm.trans hr)
        exact ⟨_, ht, fun _ => ⟨f, fd, rfl, hslot, takes_of_fdalloc hfd⟩, below_set (below_of_fdalloc hfd)⟩

/-- Both ends of a new pipe are closed again. -/
theorem closeBoth_eq {t : State} (hne : f ≠ wf) (hf : t.count f = 1) (hwf : t.count wf = 1) :
    ∃ u, ((t.fileclose f).bind fun t => (t.fileclose wf).map fun t => (r, t)) = some (r, u) ∧ u.proc = t.proc := by
  have hfirst : t.fileclose f = some (t.setCount f (t.count f - 1)) := by
    unfold State.fileclose
    rw [if_neg (by omega)]
  have hkept : (t.setCount f (t.count f - 1)).count wf = 1 := by
    rw [← hwf]
    exact update_of_ne hne.symm ..
  have hsecond : (t.setCount f (t.count f - 1)).fileclose wf =
      some ((t.setCount f (t.count f - 1)).setCount wf ((t.setCount f (t.count f - 1)).count wf - 1)) := by
    unfold State.fileclose
    rw [if_neg (by omega)]
  rw [hfirst, Option.bind_some, hsecond, Option.map_some]
  exact ⟨_, rfl, rfl⟩

theorem pipe2_right (hp : s.proc p = some pr) (checked copied : Bool) : Right p pr s (.pipe2 checked copied) := by
  have hin : (Op.pipe2 checked copied).InBounds pr := inBounds_of_checked fun _ h => h
  have hrefused {r t} (hcall : sysPipe2 p pr s checked copied = some (r, t)) (hr : r < 0) (ht : t.proc = s.proc) :
      Right p pr s (.pipe2 checked copied) := .refused hp hin hcall hr ht
  unfold sysPipe2 at hrefused
  cases checked with
  | false => exact hrefused rfl (by decide) rfl
  | true =>
    simp only [Bool.true_eq_false, if_false] at hrefused
    cases hrf : s.filealloc with
    | none =>
      rw [hrf] at hrefused
      exact hrefused rfl (by decide) rfl
    | some taken =>
      obtain ⟨rf, t⟩ := taken
      simp only [hrf] at hrefused
      cases hwf : t.filealloc with
      | none =>
        obtain ⟨hzero, rfl⟩ := filealloc_eq hrf
        rw [hwf] at hrefused
        have hone : (s.setCount rf (s.count rf + 1)).count rf = 1 := by
          rw [hzero]
          exact update_self ..
        have hclose : (s.setCount rf (s.count rf + 1)).fileclose rf = some s := by
          unfold State.fileclose
          rw [if_neg (by omega), hone, Int.sub_self, setCount_back hzero]
        simp only [hclose, Option.map_some] at hrefused
        exact hrefused rfl (by decide) rfl
      | some taken' =>
        obtain ⟨wf, u⟩ := taken'
        obtain ⟨hproc, hone, hone', hne, -⟩ := filealloc_two hrf hwf
        have hpu : u.proc p = some pr := by rw [hproc, hp]
        simp only [hwf] at hrefused
        cases hread : pr.fdalloc with
        | none =>
          obtain ⟨v, hv, hsame⟩ := closeBoth_eq hne hone hone' (r := -EMFILE)
          rw [hread] at hrefused
          exact hrefused hv (by decide) (hsame.trans hproc)
        | some fdread =>
          have hfree := fdalloc_free hread
          simp only [hread] at hrefused
          cases hwrite : (pr.set fdread (some rf)).fdalloc with
          | none =>
            obtain ⟨v, hv, hsame⟩ := closeBoth_eq hne hone hone' (r := -EMFILE)
            simp only [hwrite, set_back hfree, put_same hpu] at hrefused
            exact hrefused hv (by decide) (hsame.trans hproc)
          | some fdwrite =>
            have hfree' := fdalloc_free hwrite
            have hlimit : fdwrite.val < (pr.set fdread (some rf)).ofn := below_of_fdalloc hwrite
            simp only [hwrite] at hrefused
            cases copied with
            | false =>
              obtain ⟨v, hv, hsame⟩ := closeBoth_eq hne hone hone' (r := -1)
              simp only [Bool.false_eq_true, if_false, set_two_back hfree hfree', put_same hpu] at hrefused
              exact hrefused hv (by decide) (hsame.trans hproc)
            | true =>
              have hcall : sysPipe2 p pr s true true =
                  some (0, u.put p ((pr.set fdread (some rf)).set fdwrite (some wf))) := by
                unfold sysPipe2
                simp only [Bool.true_eq_false, if_false, hrf, hwf, hread, hwrite, if_true]
              refine .taken hin hcall ?_ (fun hno => ?_)
                (fun _ => ⟨rf, wf, fdread, fdwrite, _, takes_of_fdalloc hread, takes_of_fdalloc hwrite⟩)
                fun k => ?_
              · rw [← hproc]
                rfl
              · -- the second descriptor was available before the first was taken
                obtain ⟨hdiff, hfree''⟩ := free_beside hfree'
                exact hdiff (hno _ _ (fdalloc_eq_some_iff.mp hread).1 ⟨Int.natCast_nonneg _, hlimit, hfree''⟩)
              · by_cases hk : k = fdwrite
                · rw [hk]
                  exact .inr hlimit
                · rw [set_other hk]
                  exact below_set (below_of_fdalloc hread) k

/-- A small word is the same number as an `int`. -/
theorem toInt32_eq_toInt64 {n : Nat} (hpos : 0 ≤ toInt64 n) (hlt : toInt64 n < NOFILE) : toInt32 n = toInt64 n := by
  have hsame : Int.bmod (toInt64 n) (2 ^ 32) = toInt32 n := Int.bmod_bmod_of_dvd (by decide)
  unfold NOFILE at hlt
  rw [← hsame, Int.bmod_eq_of_le (by omega) (by omega)]

/-- Whether the call goes wrong is seen where it finds a descriptor. -/
theorem dupfd_right_iff {cloexec : Bool} {arg : Nat} (hp : s.proc p = some pr) :
    Right p pr s (.dupfd n cloexec arg) ↔ (Op.dupfd n cloexec arg).Fits pr := by
  cases hslot : pr.slot n with
  | none =>
    have hcall : sysFcntl p pr s n cloexec arg = some (-EBADF, s) := by
      unfold sysFcntl
      rw [hslot]
    have hin : (Op.dupfd n cloexec arg).InBounds pr := inBounds_of_checked fun _ h => h.1 hslot
    exact iff_of_true (.refused hp hin hcall (by decide) rfl) fun h => absurd hslot h
  | some f =>
    have hopen : pr.slot n ≠ none := by
      rw [hslot]
      nofun
    by_cases hneg : toInt32 arg < 0
    · -- the search starts before the table
      refine iff_of_false (fun h => ?_) fun h => absurd (h hopen).1 (Int.not_le.mpr hneg)
      exact absurd (h.inBounds (toInt32 arg) ⟨hopen, le_rfl, by unfold NOFILE; omega⟩).1 (Int.not_le.mpr hneg)
    · have hin : (Op.dupfd n cloexec arg).InBounds pr := fun i hi => ⟨(Int.not_lt.mp hneg).trans hi.2.1, hi.2.2⟩
      have hset (k : Fin NOFILE) : ((toInt32 arg).toNat ≤ k.val ∧ pr.ofile k = none) ↔
          (toInt32 arg ≤ k.val ∧ pr.ofile k = none) := by
        refine and_congr_left fun _ => ?_
        omega
      cases hfd : pr.fdalloc2 (toInt32 arg).toNat with
      | none =>
        have hcall : sysFcntl p pr s n cloexec arg = some (if cloexec = true then -1 else -EMFILE, s) := by
          unfold sysFcntl dupfd
          simp only [hslot, if_neg hneg, hfd]
        refine iff_of_true (.refused hp hin hcall (by cases cloexec <;> decide) rfl) fun _ =>
          ⟨Int.not_lt.mp hneg, fun k hk => ?_⟩
        exact absurd ((hset k).mpr hk.1) (fdalloc2_eq_none_iff.mp hfd k)
      | some k =>
        have hleast : IsLeast {k : Fin NOFILE | toInt32 arg ≤ k.val ∧ pr.ofile k = none} k := by
          have hfound := fdalloc2_eq_some_iff.mp hfd
          simp only [hset] at hfound
          exact hfound
        -- the call returns this descriptor, or panics
        have hreturns : ∀ r t, sysFcntl p pr s n cloexec arg = some (r, t) →
            r = k.val ∧ t.proc = update s.proc p (some (pr.set k (some f))) := by
          intro r t hr
          unfold sysFcntl dupfd at hr
          simp only [hslot, if_neg hneg, hfd] at hr
          split at hr
          · cases hr
            exact ⟨rfl, rfl⟩
          · exact filedup_put hr
        constructor
        · intro hright
          have hroom : ¬NoRoom pr (.dupfd n cloexec arg) := by
            intro hno
            obtain ⟨r, t, hr, hlt, -⟩ := hright.refuses hno
            obtain ⟨rfl, -⟩ := hreturns r t hr
            omega
          unfold NoRoom at hroom
          push Not at hroom
          obtain ⟨hpos, j, hj⟩ := hroom
          have hsame : toInt32 arg = toInt64 arg := by
            have hj' := hj.1
            exact toInt32_eq_toInt64 hpos (by omega)
          have hle : k.val ≤ j.val := hleast.2 ⟨hsame ▸ hj.1, hj.2.2⟩
          refine fun _ => ⟨Int.not_lt.mp hneg, fun k' hk' => ?_⟩
          rw [hk'.unique hleast]
          exact ⟨hpos, hsame ▸ hleast.1.1, hle.trans_lt hj.2.1⟩
        · intro hfits
          obtain ⟨hpos, hle, hlt⟩ := (hfits hopen).2 k hleast
          have hsame : toInt32 arg = toInt64 arg := toInt32_eq_toInt64 hpos (by omega)
          have hfirst : IsLeast {k | pr.Available (toInt64 arg) k} k :=
            ⟨⟨hle, hlt, hleast.1.2⟩, fun j hj => hleast.2 ⟨hsame ▸ hj.1, hj.2.2⟩⟩
          refine ⟨hin, fun hno => ?_, fun r t hr => ?_⟩
          · exact absurd hfirst.1 (hno.resolve_left (Int.not_lt.mpr hpos) k)
          · obtain ⟨rfl, ht⟩ := hreturns r t hr
            exact ⟨_, ht, fun _ => ⟨f, k, rfl, hslot, hfirst, rfl⟩, below_set hlt⟩

/-- A call that allocates is right exactly when its minimum fits. -/
theorem right_iff_fits (hp : s.proc p = some pr) (h : op.Allocates) (hanswered : op.Answered) :
    Right p pr s op ↔ op.Fits pr := by
  cases op with
  | openat path => exact iff_of_true (openat_right hp hanswered) trivial
  | pipe2 checked copied => exact iff_of_true (pipe2_right hp checked copied) trivial
  | dup fd => exact iff_of_true (dup_right hp) trivial
  | dupfd fd cloexec arg => exact dupfd_right_iff hp
  | dup3 | close | fork | exit | mmap | munmap => exact absurd h id

end Calls

/-! ## Runs -/

section Runs

/-- The file of a descriptor. -/
def State.held (s : State) (q : Slot) (fd : Fin NOFILE) : Option FileId := (s.proc q).bind fun pr => pr.ofile fd

/-- The open files, and the limit at which each descriptor was allocated. -/
structure Watched extends State where
  limitAt : Slot → Fin NOFILE → Nat

/-- The ghost after a call of `p`: what the call has filled was allocated at the limit of `p`, and a child has what its
parent has. -/
def record (p : Slot) (pr : Proc) (s s' : State) (limitAt : Slot → Fin NOFILE → Nat) (q : Slot) (fd : Fin NOFILE) : Nat :=
  if q = p then if s'.held p fd = pr.ofile fd then limitAt p fd else pr.ofn
  else if s.proc q = none then limitAt p fd
  else limitAt q fd

/-- A call that meets the condition, or a change of the limits of a process. -/
inductive Watched.Step (t : Watched) : Watched → Prop where
  | call {p : Slot} {pr : Proc} {op : Op} {r : Int} {s' : State} (hp : t.proc p = some pr) (hpossible : op.Possible t.toState) (hanswered : op.Answered)
      (hfits : op.Fits pr) (hcall : call p pr t.toState op = some (r, s')) :
      Step t ⟨s', record p pr t.toState s' t.limitAt⟩
  | limits {p : Slot} {pr : Proc} (hp : t.proc p = some pr) (ofn rlimNofile : Nat) :
      Step t ⟨t.toState.put p { pr with ofn, rlimNofile }, t.limitAt⟩

/-- Every descriptor in use is below the limit at its allocation. -/
def Watched.InRange (t : Watched) : Prop := ∀ q fd, t.held q fd ≠ none → fd.val < t.limitAt q fd

/-- What a call does to the descriptors: those it fills are below the limit, and a process that is new has none that the
caller has not. -/
structure Moves (p : Slot) (pr : Proc) (s s' : State) : Prop where
  own : ∀ fd, s'.held p fd = none ∨ s'.held p fd = pr.ofile fd ∨ fd.val < pr.ofn
  others : ∀ q, q ≠ p → s'.proc q = s.proc q ∨
    s.proc q = none ∧ ∀ fd, s'.held q fd = none ∨ s'.held q fd = pr.ofile fd

variable {t t' : Watched} {np : Slot} {child child' : Proc} {fds : List (Fin NOFILE)}

theorem held_of_proc (h : s.proc q = some pr) (fd : Fin NOFILE) : s.held q fd = pr.ofile fd := by
  unfold State.held
  rw [h, Option.bind_some]

theorem Moves.of_update (hproc : s'.proc = update s.proc p (some pr'))
    (h : ∀ fd, pr'.ofile fd = none ∨ pr'.ofile fd = pr.ofile fd ∨ fd.val < pr.ofn) : Moves p pr s s' := by
  have hp' : s'.proc p = some pr' := by rw [hproc, update_self]
  refine ⟨fun fd => ?_, fun q hq => .inl ?_⟩
  · rw [held_of_proc hp']
    exact h fd
  · rw [hproc, update_of_ne hq]

theorem Moves.of_same (hp : s.proc p = some pr) (hsame : s'.proc = s.proc) : Moves p pr s s' := by
  have hproc : s'.proc = update s.proc p (some pr) := by rw [hsame, ← hp, update_eq_self]
  exact .of_update hproc fun _ => .inr (.inl rfl)

theorem Right.moves (h : Right p pr s op) (hcall : call p pr s op = some (r, s')) : Moves p pr s s' := by
  obtain ⟨pr', hproc, -, hbelow⟩ := h.returns r s' hcall
  exact .of_update hproc fun fd => .inr (hbelow fd)

theorem fileclose_proc (h : s.fileclose f = some s') : s'.proc = s.proc := by
  unfold State.fileclose at h
  split at h
  · cases h
  · cases h
    rfl

theorem filedup_proc (h : s.filedup f = some s') : s'.proc = s.proc := by
  unfold State.filedup at h
  split at h
  · cases h
  · cases h
    rfl

theorem dup3_moves {oldfd newfd : Int} (hp : s.proc p = some pr) (h : sysDup3 p pr s oldfd newfd = some (r, s')) :
    Moves p pr s s' := by
  unfold sysDup3 at h
  split at h
  · cases h
    exact .of_same hp rfl
  · rename_i f hslot
    split at h
    · cases h
      exact .of_same hp rfl
    · split at h
      · cases h
        exact .of_same hp rfl
      · rename_i i hi
        split at h
        · cases h
          exact .of_same hp rfl
        · rename_i hlimit
          obtain ⟨u, hclosed, h⟩ := Option.bind_eq_some_iff.mp h
          obtain ⟨-, ht⟩ := filedup_put h
          have hu : u.proc = s.proc := by
            split at hclosed
            · cases hclosed
              rfl
            · exact fileclose_proc hclosed
          have hnewfd : (i.val : Int) = newfd := by
            unfold Proc.index at hi
            split at hi
            · cases hi
              exact Int.toNat_of_nonneg (by omega)
            · cases hi
          refine .of_update (ht.trans (by rw [hu])) fun fd => .inr (below_set (by omega) fd)

theorem close_moves (hp : s.proc p = some pr) (h : sysClose p pr s n = some (r, s')) : Moves p pr s s' := by
  unfold sysClose at h
  split at h
  · cases h
    exact .of_same hp rfl
  · split at h
    · cases h
      exact .of_same hp rfl
    · rename_i i hi
      split at h
      · cases h
        exact .of_same hp rfl
      · obtain ⟨u, hclosed, heq⟩ := Option.map_eq_some_iff.mp h
        cases heq
        refine .of_update (fileclose_proc hclosed) fun fd => ?_
        by_cases hfd : fd = i
        · rw [hfd]
          exact .inl set_self
        · exact .inr (.inl (set_other hfd))

/-- A child gets descriptors of its parent only. -/
theorem copyFiles_held (hnp : s.proc np = some child) (hchild : ∀ fd, child.ofile fd = none ∨ child.ofile fd = pr.ofile fd)
    (h : copyFiles pr np fds child s = some (child', s')) :
    (∀ q, q ≠ np → s'.proc q = s.proc q) ∧ ∀ fd, s'.held np fd = none ∨ s'.held np fd = pr.ofile fd := by
  induction fds generalizing child s with
  | nil =>
    cases h
    refine ⟨fun _ _ => rfl, fun fd => ?_⟩
    rw [held_of_proc hnp]
    exact hchild fd
  | cons fd fds ih =>
    -- one round of the loop sets this descriptor of the child
    have hround {u : State} {v : Option FileId} (hu : u.proc = s.proc) (hv : v = none ∨ v = pr.ofile fd)
        (hrest : copyFiles pr np fds (child.set fd v) (u.put np (child.set fd v)) = some (child', s')) :
        (∀ q, q ≠ np → s'.proc q = s.proc q) ∧ ∀ fd, s'.held np fd = none ∨ s'.held np fd = pr.ofile fd := by
      have hset (k : Fin NOFILE) : (child.set fd v).ofile k = none ∨ (child.set fd v).ofile k = pr.ofile k := by
        by_cases hk : k = fd
        · rw [hk, set_self]
          exact hv
        · rw [set_other hk]
          exact hchild k
      obtain ⟨hothers, hheld⟩ := ih proc_put hset hrest
      refine ⟨fun q hq => (hothers q hq).trans ?_, hheld⟩
      rw [← hu]
      exact update_of_ne hq ..
    rw [copyFiles] at h
    split at h
    · rename_i f hf
      split at h
      · obtain ⟨u, hdup, hrest⟩ := Option.bind_eq_some_iff.mp h
        exact hround (filedup_proc hdup) (.inr hf.symm) hrest
      · exact hround rfl (.inl rfl) h
    · exact hround rfl (.inl rfl) h

theorem fork_moves {np : Option Slot} (hp : s.proc p = some pr) (hpossible : (Op.fork np).Possible s)
    (h : fork pr s np = some (r, s')) : Moves p pr s s' := by
  cases np with
  | none =>
    cases h
    exact .of_same hp rfl
  | some np =>
    have hfree : s.proc np = none := hpossible np rfl
    have hne : p ≠ np := by
      rintro rfl
      rw [hp] at hfree
      cases hfree
    rw [fork, vmaCopy_eq fun _ => rfl, Option.bind_some] at h
    obtain ⟨⟨child', u⟩, hcopy, heq⟩ := Option.map_eq_some_iff.mp h
    cases heq
    obtain ⟨hothers, hheld⟩ := copyFiles_held proc_put (fun _ => .inl rfl) hcopy
    have hkept (q : Slot) (hq : q ≠ np) : s'.proc q = s.proc q := (hothers q hq).trans (update_of_ne hq ..)
    refine ⟨fun fd => .inr (.inl ?_), fun q _ => ?_⟩
    · rw [held_of_proc ((hkept p hne).trans hp)]
    · by_cases hnp : q = np
      · rw [hnp]
        exact .inr ⟨hfree, hheld⟩
      · exact .inl (hkept q hnp)

theorem closeFiles_proc (h : closeFiles p fds pr s = some s') (hq : q ≠ p) : s'.proc q = s.proc q := by
  induction fds generalizing pr s with
  | nil =>
    cases h
    rfl
  | cons fd fds ih =>
    rw [closeFiles] at h
    split at h
    · exact ih h
    · obtain ⟨u, hclosed, hrest⟩ := Option.bind_eq_some_iff.mp h
      rw [ih hrest, ← fileclose_proc hclosed]
      exact update_of_ne hq ..

theorem exit_moves (h : exit p pr s = some (r, s')) : Moves p pr s s' := by
  obtain ⟨u, hclosed, heq⟩ := Option.map_eq_some_iff.mp h
  cases heq
  refine ⟨fun fd => .inl ?_, fun q hq => .inl ?_⟩
  · unfold State.held
    dsimp only
    rw [update_self, Option.bind_none]
  · exact (update_of_ne hq ..).trans (closeFiles_proc hclosed hq)

/-- A mapping changes the VMAs only. -/
theorem mmap_moves {args : MmapArgs} (hp : s.proc p = some pr) (h : mmap p pr args s = some (r, s')) : Moves p pr s s' := by
  unfold mmap at h
  split at h
  · cases h
  · split at h
    · cases h
      exact .of_same hp rfl
    · obtain ⟨areas, -, h⟩ := Option.bind_eq_some_iff.mp h
      have hput {u : State} (hu : u.proc = update s.proc p (some { pr with areas })) : Moves p pr s u :=
        .of_update hu fun fd => .inr (.inl rfl)
      split at h
      · cases h
        exact hput rfl
      · split at h
        · cases h
          exact hput rfl
        · split at h
          · cases h
            exact hput rfl
          · exact hput (filedup_put h).2

theorem munmap_moves {start : Nat} {len : Int} (hp : s.proc p = some pr) (h : munmap p pr start len s = some (r, s')) :
    Moves p pr s s' := by
  unfold munmap at h
  split at h
  · cases h
    exact .of_same hp rfl
  · cases h
    exact .of_update rfl fun fd => .inr (.inl rfl)

theorem call_moves (hp : s.proc p = some pr) (hpossible : op.Possible s) (hanswered : op.Answered) (hfits : op.Fits pr)
    (hcall : call p pr s op = some (r, s')) : Moves p pr s s' := by
  have hright (h : op.Allocates) : Moves p pr s s' := ((right_iff_fits hp h hanswered).mpr hfits).moves hcall
  cases op with
  | openat | pipe2 | dup | dupfd => exact hright trivial
  | dup3 oldfd newfd => exact dup3_moves hp hcall
  | close fd => exact close_moves hp hcall
  | fork np => exact fork_moves hp hpossible hcall
  | exit => exact exit_moves hcall
  | mmap args => exact mmap_moves hp hcall
  | munmap start len => exact munmap_moves hp hcall

theorem Moves.inRange (hp : t.proc p = some pr) (hmoves : Moves p pr t.toState s') (h : t.InRange) :
    Watched.InRange ⟨s', record p pr t.toState s' t.limitAt⟩ := by
  intro q fd hused
  have hown (hin : pr.ofile fd ≠ none) : fd.val < t.limitAt p fd := by
    apply h p fd
    rw [held_of_proc hp]
    exact hin
  change fd.val < record p pr t.toState s' t.limitAt q fd
  unfold record
  split
  · rename_i heq
    cases heq
    split
    · rename_i hsame
      exact hown (hsame ▸ hused)
    · rename_i hdiff
      exact ((hmoves.own fd).resolve_left hused).resolve_left hdiff
  · rename_i hq
    rcases hmoves.others q hq with hsame | ⟨hnew, hheld⟩
    · have hused' : t.held q fd ≠ none := by
        unfold State.held at hused ⊢
        rw [← hsame]
        exact hused
      rw [if_neg]
      · exact h q fd hused'
      · intro hnone
        rw [State.held, hnone] at hused'
        exact hused' rfl
    · rw [if_pos hnew]
      exact hown ((hheld fd).resolve_left hused ▸ hused)

theorem Watched.Step.inRange (hstep : t.Step t') (h : t.InRange) : t'.InRange := by
  cases hstep with
  | call hp hpossible hanswered hfits hcall => exact (call_moves hp hpossible hanswered hfits hcall).inRange hp h
  | @limits p pr hp ofn rlimNofile =>
    intro q fd hused
    apply h q fd
    by_cases hq : q = p
    · rw [hq, held_of_proc hp]
      rw [hq, held_of_proc proc_put] at hused
      exact hused
    · unfold State.held at hused ⊢
      rw [show (t.toState.put p { pr with ofn, rlimNofile }).proc q = t.proc q from update_of_ne hq ..] at hused
      exact hused

/-- A call that allocates does what it should exactly when its minimum fits; and in a run of calls that all fit every
descriptor in use is below the limit at its allocation, and no call reads outside of the table. -/
theorem descriptors_right_iff {t₀ : Watched} (hstart : t₀.InRange) (hrun : Reaches Watched.Step t₀ t) :
    (∀ p pr (s : State) (op : Op), s.proc p = some pr → op.Allocates → op.Answered → (Right p pr s op ↔ op.Fits pr)) ∧
      t.InRange ∧ ∀ p pr (op : Op), t.proc p = some pr → op.Fits pr → op.InBounds pr := by
  refine ⟨fun p pr s op hp h hanswered => right_iff_fits hp h hanswered,
    hrun.invariant hstart fun _ _ h hstep => hstep.inRange h, fun p pr op hp hfits => ?_⟩
  cases op with
  | dupfd fd cloexec arg => exact ((dupfd_right_iff hp).mpr hfits).inBounds
  | mmap args => exact fun i hi => ⟨hi.2.2, hi.2.1 ▸ hfits hi.1⟩
  | openat | pipe2 | dup | dup3 | close | fork | exit | munmap => exact inBounds_of_checked fun _ h => h

/-- A process that is alone opens a file. -/
theorem descriptors_right_iff_first :
    Watched.InRange ⟨solo 1 opened, record 0 (soloProc fun _ => none) (solo 0 fun _ => none) (solo 1 opened) fun _ _ => 0⟩ := by
  have hempty : Watched.InRange ⟨solo 0 fun _ => none, fun _ _ => 0⟩ := by
    intro q fd hused
    by_cases hq : q = 0
    · rw [hq, held_of_proc solo_proc] at hused
      exact absurd rfl hused
    · exact absurd (by simp [State.held, solo, hq]) hused
  have hstep : Watched.Step ⟨solo 0 fun _ => none, fun _ _ => 0⟩ _ :=
    @Watched.Step.call _ 0 _ (.openat .special) 0 _ solo_proc trivial trivial trivial solo_open
  exact (descriptors_right_iff hempty (.single hstep)).2.1

end Runs

/-! ## A descriptor beyond the limit -/

section Beyond

/-- Descriptor 0 is open, and the limit is one descriptor. -/
def limited : Proc := ⟨opened, 1, 1, []⟩

/-- `fcntl(0, F_DUPFD, 0)` gives descriptor 1. -/
theorem not_right_beyond : ¬∀ p pr (s : State) (op : Op), s.proc p = some pr → op.Allocates → op.Answered → Right p pr s op := by
  intro h
  have hp : ((solo 1 opened).put 0 limited).proc 0 = some limited := proc_put
  have hfits := (dupfd_right_iff hp).mp (h 0 limited _ (.dupfd 0 false 0) hp trivial trivial)
  have hleast : IsLeast {k : Fin NOFILE | toInt32 0 ≤ k.val ∧ limited.ofile k = none} 1 := by
    refine ⟨⟨by decide, by decide⟩, fun k hk => ?_⟩
    by_contra hlt
    have hzero : k = 0 := Fin.ext (Nat.lt_one_iff.mp (not_le.mp hlt))
    rw [hzero] at hk
    exact absurd hk.2 (by decide)
  exact absurd ((hfits (by decide)).2 1 hleast).2.2 (by decide)

end Beyond

end SC7.Files
