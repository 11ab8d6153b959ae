-- SUMMARY: The credentials of a process and the system calls that set them: an unprivileged process stays within the ids it started with.
import SC7.Base.Run

/-!
# Credentials

`setuid`, `setreuid`, `setresuid`, their group counterparts and `setgroups` (`syscall.c`). The user
and the group calls follow the same rules on a triple of a real, an effective and a saved id, and
whether the rules apply at all is a question of `p->euid` for both.
-/

namespace SC7.Credentials

/-- The real, effective and saved id, of the user or of the group. -/
structure Ids where
  real : UInt32
  effective : UInt32
  saved : UInt32
  deriving DecidableEq

def NGROUPS_MAX : Nat := 32

/-- The fields of `struct proc` that the calls read and write. -/
structure Cred where
  uid : Ids
  gid : Ids
  supplementaryGroups : Fin NGROUPS_MAX → UInt32
  ngroups : Int32

/-- What the kernel sees of user memory: `access_ok(VERIFY_READ, addr, len)` and the words that
`copyin` finds. -/
structure User where
  accessOk : UInt64 → UInt64 → Bool
  copyin : UInt64 → Nat → Option (Nat → UInt32)

def EPERM : Int := 1
def EFAULT : Int := 14
def EINVAL : Int := 22

namespace Ids

/-- `id` is one of the three ids. -/
def Has (ids : Ids) (id : UInt32) : Prop := id = ids.real ∨ id = ids.effective ∨ id = ids.saved

instance (ids : Ids) (id : UInt32) : Decidable (ids.Has id) := by
  unfold Has
  infer_instance

/-- An argument of -1 keeps the old id. -/
def keep (arg old : UInt32) : UInt32 := if arg = -1 then old else arg

/-- The same for the parameters of type `int`. -/
def keepInt (arg : Int32) (old : UInt32) : Int32 := if arg = -1 then old.toInt32 else arg

/-- The body of `sys_setreuid` and `sys_setregid`, with `none` for `-EPERM`. -/
def setRe (privileged : Bool) (old : Ids) (real effective : UInt32) : Option Ids :=
  let real := keep real old.real
  let effective := keep effective old.effective
  if ¬ privileged ∧ real ≠ old.real ∧ real ≠ old.effective then none
  else if ¬ privileged ∧ ¬ old.Has effective then none
  else if real ≠ old.real ∨ effective ≠ old.real then some ⟨real, effective, effective⟩
  else some ⟨real, effective, old.saved⟩

/-- The check and the assignments of `sys_setresuid` and `sys_setresgid`, after the arguments of -1
have been replaced. -/
def setRes (privileged : Bool) (old new : Ids) : Option Ids :=
  if ¬ privileged ∧ (¬ old.Has new.real ∨ ¬ old.Has new.effective ∨ ¬ old.Has new.saved) then none
  else some new

end Ids

namespace Cred

def privileged (c : Cred) : Bool := c.uid.effective = 0

/-- `sys_setuid`. -/
def sysSetuid (c : Cred) (uid : Int32) : Int × Cred :=
  if ¬ c.privileged ∧ ¬ c.uid.Has uid.toUInt32 then (-EPERM, c)
  else if c.privileged then (0, { c with uid := ⟨uid.toUInt32, uid.toUInt32, uid.toUInt32⟩ })
  else (0, { c with uid := { c.uid with effective := uid.toUInt32 } })

/-- `sys_setreuid`. -/
def sysSetreuid (c : Cred) (ruid euid : UInt32) : Int × Cred :=
  match c.uid.setRe c.privileged ruid euid with
  | none => (-EPERM, c)
  | some uid => (0, { c with uid })

/-- `sys_setgid`: a process without privilege can name its effective group only, but all three
ids are set to it. -/
def sysSetgid (c : Cred) (gid : Int32) : Int × Cred :=
  if ¬ c.privileged ∧ c.gid.effective ≠ gid.toUInt32 then (-EPERM, c)
  else (0, { c with gid := ⟨gid.toUInt32, gid.toUInt32, gid.toUInt32⟩ })

/-- `sys_setregid`. -/
def sysSetregid (c : Cred) (rgid egid : UInt32) : Int × Cred :=
  match c.gid.setRe c.privileged rgid egid with
  | none => (-EPERM, c)
  | some gid => (0, { c with gid })

/-- `sys_setresuid`; its parameters are signed, and are converted when they are compared. -/
def sysSetresuid (c : Cred) (ruid euid suid : Int32) : Int × Cred :=
  let ruid := Ids.keepInt ruid c.uid.real
  let euid := Ids.keepInt euid c.uid.effective
  let suid := Ids.keepInt suid c.uid.saved
  match c.uid.setRes c.privileged ⟨ruid.toUInt32, euid.toUInt32, suid.toUInt32⟩ with
  | none => (-EPERM, c)
  | some uid => (0, { c with uid })

/-- `sys_setresgid`. -/
def sysSetresgid (c : Cred) (rgid egid sgid : UInt32) : Int × Cred :=
  let rgid := Ids.keep rgid c.gid.real
  let egid := Ids.keep egid c.gid.effective
  let sgid := Ids.keep sgid c.gid.saved
  match c.gid.setRes c.privileged ⟨rgid, egid, sgid⟩ with
  | none => (-EPERM, c)
  | some gid => (0, { c with gid })

/-- `sys_setgroups`. -/
def sysSetgroups (user : User) (c : Cred) (size list : UInt64) : Int × Cred :=
  if ¬ c.privileged then (-EPERM, c)
  else if size = 0 then (0, { c with ngroups := 0 })
  else if ¬ user.accessOk list (4 * size) then (-EFAULT, c)
  else if size.toNat > NGROUPS_MAX then (-EINVAL, c)
  else
    match user.copyin list size.toNat with
    | none => (-EFAULT, c)
    | some groups =>
      let copied (i : Fin NGROUPS_MAX) := if i < size.toNat then groups i else c.supplementaryGroups i
      (0, { c with supplementaryGroups := copied, ngroups := Int32.ofNat size.toNat })

end Cred

/-- The calls, with their arguments as `syscall()` casts them. -/
inductive Call where
  | setuid (uid : Int32)
  | setreuid (ruid euid : UInt32)
  | setgid (gid : Int32)
  | setregid (rgid egid : UInt32)
  | setresuid (ruid euid suid : Int32)
  | setresgid (rgid egid sgid : UInt32)
  | setgroups (size list : UInt64)

/-- The result of a call and the credentials after it. -/
def Cred.call (user : User) (c : Cred) : Call → Int × Cred
  | .setuid uid => c.sysSetuid uid
  | .setreuid ruid euid => c.sysSetreuid ruid euid
  | .setgid gid => c.sysSetgid gid
  | .setregid rgid egid => c.sysSetregid rgid egid
  | .setresuid ruid euid suid => c.sysSetresuid ruid euid suid
  | .setresgid rgid egid sgid => c.sysSetresgid rgid egid sgid
  | .setgroups size list => c.sysSetgroups user size list

/-- One call, with whatever user memory holds at the time. -/
def Step (c c' : Cred) : Prop := ∃ user call, c' = (c.call user call).2

/-! ## The ids within a set -/

namespace Ids

variable {old new mid : Ids} {r e : UInt32}

/-- Every one of the three ids is one of those of `old`. -/
structure Within (old new : Ids) : Prop where
  real : old.Has new.real
  effective : old.Has new.effective
  saved : old.Has new.saved

theorem Within.refl : Within old old := ⟨.inl rfl, .inr (.inl rfl), .inr (.inr rfl)⟩

theorem Within.has {id : UInt32} (h : Within old new) (hid : new.Has id) : old.Has id := by
  rcases hid with rfl | rfl | rfl
  · exact h.real
  · exact h.effective
  · exact h.saved

theorem Within.trans (h : Within old mid) (h' : Within mid new) : Within old new :=
  ⟨h.has h'.real, h.has h'.effective, h.has h'.saved⟩

theorem setRe_within (h : setRe false old r e = some new) : Within old new := by
  simp only [setRe, Bool.false_eq_true, not_false_eq_true, true_and] at h
  split at h
  · cases h
  rename_i hreal
  split at h
  · cases h
  rename_i heffective
  have hr : old.Has (keep r old.real) := by
    rcases Decidable.not_and_iff_not_or_not.mp hreal with heq | heq
    · exact .inl (Decidable.not_not.mp heq)
    · exact .inr (.inl (Decidable.not_not.mp heq))
  have he : old.Has (keep e old.effective) := Decidable.not_not.mp heffective
  split at h
  · cases h
    exact ⟨hr, he, he⟩
  · cases h
    exact ⟨hr, he, .inr (.inr rfl)⟩

theorem setRes_within {asked : Ids} (h : setRes false old asked = some new) : Within old new := by
  simp only [setRes, Bool.false_eq_true, not_false_eq_true, true_and] at h
  split at h
  · cases h
  rename_i hall
  cases h
  simp only [not_or, Decidable.not_not] at hall
  exact ⟨hall.1, hall.2.1, hall.2.2⟩

end Ids

/-! ## One call and whole runs -/

/-- No user id is that of the superuser. -/
structure Cred.Unprivileged (c : Cred) : Prop where
  real : c.uid.real ≠ 0
  effective : c.uid.effective ≠ 0
  saved : c.uid.saved ≠ 0

/-- What a process that started with `c` may have become. -/
structure Cred.Confined (c c' : Cred) : Prop where
  uid : c.uid.Within c'.uid
  gid : c.gid.Within c'.gid
  groups : c'.supplementaryGroups = c.supplementaryGroups
  ngroups : c'.ngroups = c.ngroups

namespace Cred

variable {c c' mid : Cred}

theorem Confined.refl : Confined c c := ⟨.refl, .refl, rfl, rfl⟩

theorem Confined.trans (h : Confined c mid) (h' : Confined mid c') : Confined c c' where
  uid := h.uid.trans h'.uid
  gid := h.gid.trans h'.gid
  groups := h'.groups.trans h.groups
  ngroups := h'.ngroups.trans h.ngroups

theorem Confined.ofUid {ids : Ids} (h : c.uid.Within ids) : Confined c { c with uid := ids } :=
  ⟨h, .refl, rfl, rfl⟩

theorem Confined.ofGid {ids : Ids} (h : c.gid.Within ids) : Confined c { c with gid := ids } :=
  ⟨.refl, h, rfl, rfl⟩

theorem Unprivileged.not_privileged (h : c.Unprivileged) : c.privileged = false := by
  simpa [privileged] using h.effective

theorem Unprivileged.of_within (h : c.Unprivileged) (hw : c.uid.Within c'.uid) : c'.Unprivileged := by
  have hne : ∀ id, c.uid.Has id → id ≠ 0 := by
    rintro id (rfl | rfl | rfl)
    · exact h.real
    · exact h.effective
    · exact h.saved
  exact ⟨hne _ hw.real, hne _ hw.effective, hne _ hw.saved⟩

/-- A call without privilege moves ids within the set that was there. -/
theorem call_confined (user : User) (call : Call) (hc : c.Unprivileged) :
    Confined c (c.call user call).2 := by
  have hp := hc.not_privileged
  cases call with
  | setuid uid =>
    simp only [Cred.call, sysSetuid, hp, Bool.false_eq_true, not_false_eq_true, true_and, if_false]
    split
    · exact .refl
    · rename_i hhas
      exact .ofUid ⟨.inl rfl, Decidable.not_not.mp hhas, .inr (.inr rfl)⟩
  | setreuid ruid euid =>
    simp only [Cred.call, sysSetreuid, hp]
    split
    · exact .refl
    · exact .ofUid (Ids.setRe_within ‹_›)
  | setgid gid =>
    simp only [Cred.call, sysSetgid, hp, Bool.false_eq_true, not_false_eq_true, true_and]
    split
    · exact .refl
    · rename_i heq
      have hhas : c.gid.Has gid.toUInt32 := .inr (.inl (Decidable.not_not.mp heq).symm)
      exact .ofGid ⟨hhas, hhas, hhas⟩
  | setregid rgid egid =>
    simp only [Cred.call, sysSetregid, hp]
    split
    · exact .refl
    · exact .ofGid (Ids.setRe_within ‹_›)
  | setresuid ruid euid suid =>
    simp only [Cred.call, sysSetresuid, hp]
    split
    · exact .refl
    · exact .ofUid (Ids.setRes_within ‹_›)
  | setresgid rgid egid sgid =>
    simp only [Cred.call, sysSetresgid, hp]
    split
    · exact .refl
    · exact .ofGid (Ids.setRes_within ‹_›)
  | setgroups size list =>
    simp only [Cred.call, sysSetgroups, hp, Bool.false_eq_true, not_false_eq_true, if_true]
    exact .refl

/-- A result of a call that may be an error only if nothing changed. -/
def Atomic (c : Cred) (r : Int × Cred) : Prop := r.1 < 0 → r.2 = c

theorem Atomic.success : Atomic c (0, c') := fun h => absurd h (Int.lt_irrefl 0)

theorem Atomic.unchanged {ret : Int} : Atomic c (ret, c) := fun _ => rfl

/-- A call that returns an error changes no credential, with privilege or without. -/
theorem call_atomic (user : User) (call : Call) : Atomic c (c.call user call) := by
  cases call with
  | setuid uid =>
    simp only [Cred.call, sysSetuid]
    split
    · exact .unchanged
    · split <;> exact .success
  | setreuid ruid euid =>
    simp only [Cred.call, sysSetreuid]
    split
    · exact .unchanged
    · exact .success
  | setgid gid =>
    simp only [Cred.call, sysSetgid]
    split
    · exact .unchanged
    · exact .success
  | setregid rgid egid =>
    simp only [Cred.call, sysSetregid]
    split
    · exact .unchanged
    · exact .success
  | setresuid ruid euid suid =>
    simp only [Cred.call, sysSetresuid]
    split
    · exact .unchanged
    · exact .success
  | setresgid rgid egid sgid =>
    simp only [Cred.call, sysSetresgid]
    split
    · exact .unchanged
    · exact .success
  | setgroups size list =>
    simp only [Cred.call, sysSetgroups]
    split
    · exact .unchanged
    split
    · exact .success
    split
    · exact .unchanged
    split
    · exact .unchanged
    split
    · exact .unchanged
    · exact .success

/-- Along a run of calls the ids stay within those of the start. -/
theorem run_confined (hc : c.Unprivileged) (hrun : Reaches Step c c') : Confined c c' := by
  refine hrun.invariant .refl ?_
  rintro mid next hmid ⟨user, call, rfl⟩
  exact hmid.trans (call_confined user call (hc.of_within hmid.uid))

end Cred

/-- However an unprivileged process mixes the seven calls, its user ids and its group ids stay
within the three it started with, so none of them becomes 0 unless it was; its supplementary groups
do not change; and a call that fails changes nothing. -/
theorem credentials_confined {c c' : Cred} (hreal : c.uid.real ≠ 0) (heffective : c.uid.effective ≠ 0)
    (hsaved : c.uid.saved ≠ 0) (hrun : Reaches Step c c') :
    c.Confined c' ∧ c'.Unprivileged ∧
      ∀ user call, (c'.call user call).1 < 0 → (c'.call user call).2 = c' := by
  have hc : c.Unprivileged := ⟨hreal, heffective, hsaved⟩
  have hconf := Cred.run_confined hc hrun
  exact ⟨hconf, hc.of_within hconf.uid, fun user call => Cred.call_atomic user call⟩

/-- The credentials of a process with three different user ids and two group ids. -/
def sample : Cred := ⟨⟨1000, 1001, 1002⟩, ⟨100, 100, 101⟩, fun _ => 0, 0⟩

/-- The saved id becomes the real one in two calls, and the ids still do not leave the set. -/
theorem credentials_confined_sample :
    Reaches Step sample ⟨⟨1002, 1002, 1002⟩, ⟨100, 100, 101⟩, fun _ => 0, 0⟩ ∧
      sample.Confined ⟨⟨1002, 1002, 1002⟩, ⟨100, 100, 101⟩, fun _ => 0, 0⟩ := by
  have hrun : Reaches Step sample ⟨⟨1002, 1002, 1002⟩, ⟨100, 100, 101⟩, fun _ => 0, 0⟩ := by
    refine .tail (.single ⟨⟨fun _ _ => true, fun _ _ => none⟩, .setuid 1002, rfl⟩) ?_
    exact ⟨⟨fun _ _ => true, fun _ _ => none⟩, .setreuid 1002 (-1), rfl⟩
  exact ⟨hrun, (credentials_confined (by decide) (by decide) (by decide) hrun).1⟩

end SC7.Credentials
