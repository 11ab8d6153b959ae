-- SUMMARY: `prlimit64`: the new limit is in force before the old one is reported.
import Mathlib.Algebra.GroupWithZero.Nat
import Mathlib.Logic.Function.Basic
import Mathlib.Algebra.Group.Int.Defs

/-!
# Limits on resources

`prlimit64` takes a new limit from the user and reports the old one. The limit on descriptors is kept in two places,
`ofn` and `rlimits[RLIMIT_NOFILE]`. Whether an address of the user can be read or written is a function of the address,
so that both pointers may be the same.
-/

namespace SC7.Limits

open Function (update)

abbrev EFAULT : Int := 14
abbrev EINVAL : Int := 22

def RLIMIT_NLIMITS : Nat := 16

instance : NeZero RLIMIT_NLIMITS := ⟨by decide⟩

abbrev Resource := Fin RLIMIT_NLIMITS

def RLIMIT_NOFILE : Resource := 7

structure Rlimit where
  rlimCur : UInt64
  rlimMax : UInt64
deriving DecidableEq

structure Proc where
  ofn : Rlimit
  rlimits : Resource → Rlimit

/-- What the user's memory answers for one `struct rlimit` at an address. -/
structure User where
  readable : UInt64 → Bool
  copyin : UInt64 → Option Rlimit
  writable : UInt64 → Bool
  copyout : UInt64 → Bool

/-- What a call returns and leaves, and what it has stored for the user. -/
structure Outcome where
  value : Int
  proc : Proc
  stored : Option Rlimit

/-! ## The calls -/

/-- The resource of a number. -/
def resourceOf (resource : Int) : Option Resource :=
  if h : resource < 0 ∨ resource ≥ RLIMIT_NLIMITS then none else some ⟨resource.toNat, by omega⟩

/-- The limit as it is reported. -/
def Proc.limit (p : Proc) (r : Resource) : Rlimit := if r = RLIMIT_NOFILE then p.ofn else p.rlimits r

def Proc.setLimit (p : Proc) (r : Resource) (nl : Rlimit) : Proc :=
  { ofn := if r = RLIMIT_NOFILE then nl else p.ofn, rlimits := update p.rlimits r nl }

section Calls

variable (u : User) (p : Proc)

/-- The first half of `prlimit64`. -/
def setNew (r : Resource) (newLimit : UInt64) : Except Int Proc :=
  if newLimit = 0 then .ok p
  else if u.readable newLimit = false then .error (-EFAULT)
  else
    match u.copyin newLimit with
    | none => .error (-EFAULT)
    | some nl => if nl.rlimCur > nl.rlimMax then .error (-EINVAL) else .ok (p.setLimit r nl)

/-- The limit goes to the user. -/
def report (r : Resource) (rlim : UInt64) : Outcome :=
  if u.writable rlim = false then ⟨-EFAULT, p, none⟩
  else if u.copyout rlim = false then ⟨-EFAULT, p, none⟩
  else ⟨0, p, some (p.limit r)⟩

def sysPrlimit64 (resource : Int) (newLimit oldLimit : UInt64) : Outcome :=
  match resourceOf resource with
  | none => ⟨-EINVAL, p, none⟩
  | some r =>
    match setNew u p r newLimit with
    | .error e => ⟨e, p, none⟩
    | .ok p => if oldLimit = 0 then ⟨0, p, none⟩ else report u p r oldLimit

def sysGetrlimit (resource : Int) (rlim : UInt64) : Outcome :=
  match resourceOf resource with
  | none => ⟨-EINVAL, p, none⟩
  | some r => report u p r rlim

end Calls

/-! ## What is asked of `prlimit64` -/

/-- The new limit is one that `prlimit64` takes. -/
structure User.Gives (u : User) (newLimit : UInt64) (nl : Rlimit) : Prop where
  given : newLimit ≠ 0
  readable : u.readable newLimit = true
  copied : u.copyin newLimit = some nl
  ordered : nl.rlimCur ≤ nl.rlimMax

/-- The limits after a success: those before it but for the one requested. -/
structure Sets (u : User) (p : Proc) (r : Resource) (newLimit : UInt64) (p' : Proc) : Prop where
  kept : newLimit = 0 → p' = p
  requested : newLimit ≠ 0 → ∃ nl, u.Gives newLimit nl ∧ p'.rlimits r = nl ∧ p'.limit r = nl
  others : ∀ r', r' ≠ r → p'.rlimits r' = p.rlimits r' ∧ p'.limit r' = p.limit r'
  equal : p.ofn = p.rlimits RLIMIT_NOFILE → p'.ofn = p'.rlimits RLIMIT_NOFILE

/-- On success the limit of before is reported and the new one is in force; an error changes nothing. -/
structure Atomic (u : User) (p : Proc) (resource : Int) (newLimit oldLimit : UInt64) (out : Outcome) : Prop where
  success : out.value = 0 → ∃ r : Resource, resource = r.val ∧ Sets u p r newLimit out.proc ∧
    (oldLimit ≠ 0 → out.stored = some (p.limit r))
  failure : out.value ≠ 0 → out.proc = p

/-- The user can get a limit at the address. -/
def User.Takes (u : User) (rlim : UInt64) : Prop := u.writable rlim = true ∧ u.copyout rlim = true

/-- Where a new limit is taken and the old one wanted, the new one is the limit that is reported already; or the report
fails, and the new one is in force already. -/
def Harmless (u : User) (p : Proc) (resource : Int) (newLimit oldLimit : UInt64) : Prop :=
  ∀ (r : Resource) (nl : Rlimit), resource = r.val → u.Gives newLimit nl → oldLimit ≠ 0 →
    (u.Takes oldLimit → nl = p.limit r) ∧ (¬u.Takes oldLimit → p.setLimit r nl = p)

variable {u : User} {p p' : Proc} {r r' : Resource} {nl : Rlimit} {resource : Int} {newLimit oldLimit rlim : UInt64}

theorem resourceOf_eq_some_iff : resourceOf resource = some r ↔ resource = r.val := by
  unfold resourceOf
  split
  · rename_i hout
    have hlt := r.isLt
    exact iff_of_false nofun (by omega)
  · rename_i hin
    rw [Option.some.injEq, Fin.ext_iff]
    dsimp only
    omega

/-! ## The two halves -/

theorem limit_setLimit : (p.setLimit r nl).limit r = nl := by
  unfold Proc.limit Proc.setLimit
  by_cases hr : r = RLIMIT_NOFILE
  · simp only [if_pos hr]
  · rw [if_neg hr]
    exact Function.update_self ..

theorem rlimits_setLimit : (p.setLimit r nl).rlimits r = nl := Function.update_self ..

theorem limit_setLimit_other (hne : r' ≠ r) :
    (p.setLimit r nl).rlimits r' = p.rlimits r' ∧ (p.setLimit r nl).limit r' = p.limit r' := by
  have hkept : (p.setLimit r nl).rlimits r' = p.rlimits r' := Function.update_of_ne hne ..
  refine ⟨hkept, ?_⟩
  unfold Proc.limit
  rw [hkept]
  by_cases hr' : r' = RLIMIT_NOFILE
  · have hr : r ≠ RLIMIT_NOFILE := fun hr => hne (hr'.trans hr.symm)
    unfold Proc.setLimit
    rw [if_pos hr', if_pos hr']
    dsimp only
    rw [if_neg hr]
  · rw [if_neg hr', if_neg hr']

theorem equal_setLimit (h : p.ofn = p.rlimits RLIMIT_NOFILE) :
    (p.setLimit r nl).ofn = (p.setLimit r nl).rlimits RLIMIT_NOFILE := by
  by_cases hr : r = RLIMIT_NOFILE
  · rw [← hr, rlimits_setLimit]
    unfold Proc.setLimit
    rw [if_pos hr]
  · rw [(limit_setLimit_other (Ne.symm hr)).1, ← h]
    unfold Proc.setLimit
    rw [if_neg hr]

theorem sets_setLimit (h : u.Gives newLimit nl) : Sets u p r newLimit (p.setLimit r nl) :=
  ⟨fun hzero => absurd hzero h.given, fun _ => ⟨nl, h, rlimits_setLimit, limit_setLimit⟩,
    fun _ hne => limit_setLimit_other hne, equal_setLimit⟩

theorem sets_same : Sets u p r 0 p := ⟨fun _ => rfl, fun h => absurd rfl h, fun _ _ => ⟨rfl, rfl⟩, id⟩

/-- The first half changes nothing, fails, or takes what the user gives. -/
theorem setNew_cases (u : User) (p : Proc) (r : Resource) (newLimit : UInt64) :
    (newLimit = 0 ∧ setNew u p r newLimit = .ok p) ∨
    (∃ e, e ≠ 0 ∧ setNew u p r newLimit = .error e ∧ ∀ nl, ¬u.Gives newLimit nl) ∨
    ∃ nl, u.Gives newLimit nl ∧ setNew u p r newLimit = .ok (p.setLimit r nl) := by
  unfold setNew
  by_cases hzero : newLimit = 0
  · exact .inl ⟨hzero, if_pos hzero⟩
  rw [if_neg hzero]
  by_cases hreadable : u.readable newLimit = false
  · refine .inr (.inl ⟨-EFAULT, by decide, if_pos hreadable, fun nl h => ?_⟩)
    exact Bool.false_ne_true (hreadable.symm.trans h.readable)
  rw [if_neg hreadable]
  cases hcopied : u.copyin newLimit with
  | none =>
    refine .inr (.inl ⟨-EFAULT, by decide, rfl, fun nl h => ?_⟩)
    exact Option.some_ne_none nl (h.copied.symm.trans hcopied)
  | some nl =>
    dsimp only
    by_cases hordered : nl.rlimCur > nl.rlimMax
    · refine .inr (.inl ⟨-EINVAL, by decide, if_pos hordered, fun nl' h => ?_⟩)
      cases hcopied.symm.trans h.copied
      exact absurd h.ordered (UInt64.not_le.mpr hordered)
    · rw [if_neg hordered]
      exact .inr (.inr ⟨nl, ⟨hzero, eq_true_of_ne_false hreadable, hcopied, UInt64.not_lt.mp hordered⟩, rfl⟩)

/-- The second half. -/
theorem report_eq : report u p r rlim =
    if u.writable rlim = true ∧ u.copyout rlim = true then ⟨0, p, some (p.limit r)⟩ else ⟨-EFAULT, p, none⟩ := by
  unfold report
  cases u.writable rlim with
  | false => rfl
  | true =>
    cases u.copyout rlim with
    | false => rfl
    | true => rfl

theorem report_of_takes (h : u.Takes rlim) : report u p r rlim = ⟨0, p, some (p.limit r)⟩ := by
  rw [report_eq]
  exact if_pos h

theorem report_of_not_takes (h : ¬u.Takes rlim) : report u p r rlim = ⟨-EFAULT, p, none⟩ := by
  rw [report_eq]
  exact if_neg h

/-! ## The call -/

theorem prlimit_eq (hr : resourceOf resource = some r) (hset : setNew u p r newLimit = .ok p') :
    sysPrlimit64 u p resource newLimit oldLimit = if oldLimit = 0 then ⟨0, p', none⟩ else report u p' r oldLimit := by
  unfold sysPrlimit64
  rw [hr]
  dsimp only
  rw [hset]

theorem prlimit_error {e : Int} (hr : resourceOf resource = some r) (hset : setNew u p r newLimit = .error e) :
    sysPrlimit64 u p resource newLimit oldLimit = ⟨e, p, none⟩ := by
  unfold sysPrlimit64
  rw [hr]
  dsimp only
  rw [hset]

theorem Atomic.failed {e : Int} (he : e ≠ 0) : Atomic u p resource newLimit oldLimit ⟨e, p, none⟩ :=
  ⟨fun h => absurd h he, fun _ => rfl⟩

theorem Atomic.of_report (hr : resource = r.val) (hsets : Sets u p r newLimit p) :
    Atomic u p resource newLimit oldLimit (report u p r oldLimit) := by
  by_cases htakes : u.Takes oldLimit
  · rw [report_of_takes htakes]
    exact ⟨fun _ => ⟨r, hr, hsets, fun _ => rfl⟩, fun h => absurd rfl h⟩
  · rw [report_of_not_takes htakes]
    exact .failed (by decide)

/-- After a new limit was taken. -/
theorem atomic_report_iff (hr : resource = r.val) (hgives : u.Gives newLimit nl) (hold : oldLimit ≠ 0) :
    Atomic u p resource newLimit oldLimit (report u (p.setLimit r nl) r oldLimit) ↔
      (u.Takes oldLimit → nl = p.limit r) ∧ (¬u.Takes oldLimit → p.setLimit r nl = p) := by
  by_cases htakes : u.Takes oldLimit
  · rw [report_of_takes htakes, limit_setLimit]
    constructor
    · intro hatomic
      obtain ⟨r', hr', -, hstored⟩ := hatomic.success rfl
      have hsame : r' = r := Fin.ext (Int.ofNat_inj.mp (hr'.symm.trans hr))
      refine ⟨fun _ => ?_, fun hno => absurd htakes hno⟩
      rw [← hsame]
      exact Option.some.inj (hstored hold)
    · intro h
      refine ⟨fun _ => ⟨r, hr, sets_setLimit hgives, fun _ => ?_⟩, fun hne => absurd rfl hne⟩
      exact congrArg some (h.1 htakes)
  · rw [report_of_not_takes htakes]
    constructor
    · intro hatomic
      exact ⟨fun h => absurd h htakes, fun _ => hatomic.failure (show -EFAULT ≠ 0 by decide)⟩
    · intro h
      exact ⟨fun hzero => absurd hzero (show -EFAULT ≠ 0 by decide), fun _ => h.2 htakes⟩

theorem User.Gives.unique {nl' : Rlimit} (h : u.Gives newLimit nl) (h' : u.Gives newLimit nl') : nl = nl' :=
  Option.some.inj (h.copied.symm.trans h'.copied)

/-- `prlimit64` is atomic exactly where its order does not show. -/
theorem prlimit_atomic_iff (u : User) (p : Proc) (resource : Int) (newLimit oldLimit : UInt64) :
    Atomic u p resource newLimit oldLimit (sysPrlimit64 u p resource newLimit oldLimit) ↔
      Harmless u p resource newLimit oldLimit := by
  cases hresource : resourceOf resource with
  | none =>
    have hcall : sysPrlimit64 u p resource newLimit oldLimit = ⟨-EINVAL, p, none⟩ := by
      unfold sysPrlimit64
      rw [hresource]
    rw [hcall]
    refine iff_of_true (.failed (by decide)) fun r nl hr => ?_
    exact absurd (resourceOf_eq_some_iff.mpr hr) (by rw [hresource]; nofun)
  | some r =>
    have hr := resourceOf_eq_some_iff.mp hresource
    have hresource' (r' : Resource) (hr' : resource = r'.val) : r' = r :=
      Fin.ext (Int.ofNat_inj.mp (hr'.symm.trans hr))
    rcases setNew_cases u p r newLimit with
      ⟨rfl, hset⟩ | ⟨e, he, hset, hrefused⟩ | ⟨nl, hgives, hset⟩
    · have hharmless : Harmless u p resource 0 oldLimit := fun _ _ _ h => absurd rfl h.given
      rw [prlimit_eq hresource hset]
      refine iff_of_true ?_ hharmless
      split
      · rename_i hzero
        exact ⟨fun _ => ⟨r, hr, sets_same, fun h => absurd hzero h⟩, fun h => absurd rfl h⟩
      · exact .of_report hr sets_same
    · rw [prlimit_error hresource hset]
      exact iff_of_true (.failed he) fun _ nl _ h => absurd h (hrefused nl)
    · rw [prlimit_eq hresource hset]
      split
      · rename_i hzero
        refine iff_of_true ?_ fun _ _ _ _ h => absurd hzero h
        exact ⟨fun _ => ⟨r, hr, sets_setLimit hgives, fun h => absurd hzero h⟩, fun h => absurd rfl h⟩
      · rename_i hold
        rw [atomic_report_iff hr hgives hold]
        constructor
        · intro h r' nl' hr' hgives' _
          rw [hresource' r' hr', hgives'.unique hgives]
          exact h
        · intro h
          exact h r nl hr hgives hold

/-- The user gives the limit 1 at one address, and takes the old one there. -/
def oneForOne : User := ⟨fun _ => true, fun _ => some ⟨1, 1⟩, fun _ => true, fun _ => true⟩

/-- The limit on processes was 2, and 1 is reported. -/
theorem not_atomic_both : ¬∀ u p resource newLimit oldLimit,
    Atomic u p resource newLimit oldLimit (sysPrlimit64 u p resource newLimit oldLimit) := by
  intro h
  obtain ⟨r, hr, -, hstored⟩ := (h oneForOne ⟨⟨256, 256⟩, fun _ => ⟨2, 2⟩⟩ 6 4096 4096).success rfl
  have hsix : r = 6 := Fin.ext (Int.ofNat_inj.mp hr.symm)
  rw [hsix] at hstored
  exact absurd (hstored (by decide)) (by decide)

end SC7.Limits
