-- SUMMARY: The access checks of files and of shared memory segments, and when they follow the rule that one class of the caller decides.
import SC7.Kernel.Cred
import Mathlib.Data.List.FinRange
import Mathlib.Data.Nat.Bitwise

/-!
# Access rights

`check_file_access` (`process.c`) and `has_shm_permission` (`vma.c`). A caller belongs to one class of a
file or a segment: the owner, the group or the others. Both functions ask these classes in turn, and where
one that the caller is in refuses, they go on to the next.
-/

namespace SC7.Credentials

/-- The fields that the checks read of `struct kstat` and of `struct ipc_perm`. -/
structure Perm where
  uid : UInt32
  gid : UInt32
  mode : UInt32

abbrev R_OK : UInt32 := 4
abbrev W_OK : UInt32 := 2
abbrev X_OK : UInt32 := 1

abbrev S_IRUSR : UInt32 := 0o400
abbrev S_IWUSR : UInt32 := 0o200
abbrev S_IXUSR : UInt32 := 0o100
abbrev S_IRGRP : UInt32 := 0o40
abbrev S_IWGRP : UInt32 := 0o20
abbrev S_IXGRP : UInt32 := 0o10
abbrev S_IROTH : UInt32 := 0o4
abbrev S_IWOTH : UInt32 := 0o2
abbrev S_IXOTH : UInt32 := 0o1

abbrev SHM_R : UInt32 := 0o400
abbrev SHM_W : UInt32 := 0o200
abbrev SHM_EXEC : UInt32 := 0o100000

/-- The supplementary groups in use. `sys_setgroups` keeps `ngroups` within the array. -/
def Cred.groups (c : Cred) : List UInt32 :=
  ((List.finRange NGROUPS_MAX).filter fun i => (i.val : Int) < c.ngroups.toInt).map c.supplementaryGroups

/-! ## The checks -/

/-- The bits of a class that `mode` asks for, given the bit for each of the three rights. -/
def classPerms (r w x mode : UInt32) : UInt32 :=
  (if mode &&& R_OK ≠ 0 then r else 0) |||
  (if mode &&& W_OK ≠ 0 then w else 0) |||
  (if mode &&& X_OK ≠ 0 then x else 0)

def ownerPerms : UInt32 → UInt32 := classPerms S_IRUSR S_IWUSR S_IXUSR

def groupPerms : UInt32 → UInt32 := classPerms S_IRGRP S_IWGRP S_IXGRP

def otherPerms : UInt32 → UInt32 := classPerms S_IROTH S_IWOTH S_IXOTH

/-- `check_file_access(st, mode)`. -/
def checkFileAccess (c : Cred) (st : Perm) (mode : UInt32) : Bool :=
  if c.uid.effective = 0 then true
  else if c.uid.effective = st.uid ∧ ownerPerms mode &&& st.mode = ownerPerms mode then true
  else if c.gid.effective = st.gid ∧ groupPerms mode &&& st.mode = groupPerms mode then true
  else if c.groups.any fun g => g = st.gid ∧ groupPerms mode &&& st.mode = groupPerms mode then true
  else otherPerms mode &&& st.mode = otherPerms mode

/-- The three tests of `has_shm_permission` for one class, whose bits are `r` and `w`. -/
def shmGrants (r w perm mode : UInt32) : Bool :=
  (perm = SHM_R ∧ mode &&& r ≠ 0) ∨
  (perm = SHM_W ∧ mode &&& w ≠ 0) ∨
  (perm = SHM_R ||| SHM_W ∧ mode &&& (r ||| w) = r ||| w)

/-- `has_shm_permission(shp, perm)`. -/
def hasShmPermission (c : Cred) (shm : Perm) (perm : UInt32) : Bool :=
  if c.uid.effective = 0 then true
  else if c.uid.effective = shm.uid ∧ shmGrants S_IRUSR S_IWUSR perm shm.mode then true
  else if c.gid.effective = shm.gid ∧ shmGrants S_IRGRP S_IWGRP perm shm.mode then true
  else shmGrants S_IROTH S_IWOTH perm shm.mode

/-! ## One class decides -/

/-- What a caller asks for. -/
structure Request where
  read : Bool
  write : Bool
  exec : Bool

/-- The argument of `check_file_access`. -/
def Request.mode (q : Request) : UInt32 :=
  (if q.read then R_OK else 0) ||| (if q.write then W_OK else 0) ||| (if q.exec then X_OK else 0)

/-- The argument of `has_shm_permission`. -/
def Request.perm (q : Request) : UInt32 :=
  (if q.read then SHM_R else 0) ||| (if q.write then SHM_W else 0) ||| (if q.exec then SHM_EXEC else 0)

inductive Class where
  | owner
  | group
  | other
  deriving DecidableEq

/-- How far the bits of a class stand in a mode. -/
def Class.shift : Class → Nat
  | .owner => 6
  | .group => 3
  | .other => 0

/-- The bits of the class allow all of the request. -/
def Class.Allows (k : Class) (mode : UInt32) (q : Request) : Prop :=
  (q.read = true → mode.toNat.testBit (k.shift + 2) = true) ∧
  (q.write = true → mode.toNat.testBit (k.shift + 1) = true) ∧
  (q.exec = true → mode.toNat.testBit k.shift = true)

instance (k : Class) (mode : UInt32) (q : Request) : Decidable (k.Allows mode q) :=
  inferInstanceAs (Decidable (_ ∧ _ ∧ _))

/-- The caller is in the group, by its effective or by a supplementary group. -/
def Cred.InGroup (c : Cred) (gid : UInt32) : Prop := c.gid.effective = gid ∨ gid ∈ c.groups

instance (c : Cred) (gid : UInt32) : Decidable (c.InGroup gid) := inferInstanceAs (Decidable (_ ∨ _))

/-- The class that decides. -/
def Cred.classOf (c : Cred) (st : Perm) : Class :=
  if c.uid.effective = st.uid then .owner
  else if c.InGroup st.gid then .group
  else .other

/-- The caller is in the class; the others are everyone. -/
def Cred.In (c : Cred) (st : Perm) : Class → Prop
  | .owner => c.uid.effective = st.uid
  | .group => c.InGroup st.gid
  | .other => True

/-- Both checks grant a request exactly if the one class of the caller allows all of it. -/
def OneClass (c : Cred) (st : Perm) (q : Request) : Prop :=
  (checkFileAccess c st q.mode = true ↔ (c.classOf st).Allows st.mode q) ∧
  (hasShmPermission c st q.perm = true ↔ (c.classOf st).Allows st.mode q)

/-- When they do. -/
structure Decisive (c : Cred) (st : Perm) (q : Request) : Prop where
  /-- No class of the caller allows what the deciding one refuses. -/
  sole : ∀ k, c.In st k → k.Allows st.mode q → (c.classOf st).Allows st.mode q
  /-- `has_shm_permission` knows reading, writing and both. -/
  known : (c.classOf st).Allows st.mode q → (q.read = true ∨ q.write = true) ∧ q.exec = false
  /-- It does not know supplementary groups, whose members are others to it. -/
  primary : Class.group.Allows st.mode q → c.classOf st = .group → c.gid.effective ≠ st.gid →
    Class.other.Allows st.mode q

/-! ## Masks and bits -/

variable {a b m r w x : UInt32} {c : Cred} {st : Perm} {k : Class} {q : Request} {i : Nat}

theorem and_eq_left_iff : a &&& m = a ↔ ∀ i, a.toNat.testBit i = true → m.toNat.testBit i = true := by
  rw [← UInt32.toNat_inj, UInt32.toNat_and]
  constructor
  · intro h i hi
    rw [← h, Nat.testBit_and, Bool.and_eq_true] at hi
    exact hi.2
  · intro h
    apply Nat.eq_of_testBit_eq
    intro i
    rw [Nat.testBit_and]
    cases hi : a.toNat.testBit i with
    | false => rfl
    | true => rw [h i hi, Bool.and_self]

/-- A joined mask is contained in a mode if its parts are. -/
theorem or_and_eq_iff : (a ||| b) &&& m = a ||| b ↔ a &&& m = a ∧ b &&& m = b := by
  simp only [and_eq_left_iff, UInt32.toNat_or, Nat.testBit_or, Bool.or_eq_true]
  exact ⟨fun h => ⟨fun i hi => h i (.inl hi), fun i hi => h i (.inr hi)⟩,
    fun h i hi => hi.elim (h.1 i) (h.2 i)⟩

/-- The mask of a single bit. -/
theorem bit_and_eq_iff (ha : a.toNat = 2 ^ i) : a &&& m = a ↔ m.toNat.testBit i = true := by
  rw [and_eq_left_iff, ha]
  constructor
  · intro h
    exact h i Nat.testBit_two_pow_self
  · intro h j hj
    rw [Nat.testBit_two_pow, decide_eq_true_iff] at hj
    exact hj ▸ h

theorem ite_and_eq_iff {p : Prop} [Decidable p] :
    (if p then a else 0) &&& m = (if p then a else 0) ↔ (p → a &&& m = a) := by
  split
  · rename_i hp
    simp only [hp, true_implies]
  · rename_i hp
    simp only [hp, false_implies, UInt32.zero_and]

/-- What the flags of a request ask for is its rights. -/
theorem Request.mode_bits (q : Request) :
    (q.mode &&& R_OK ≠ 0 ↔ q.read = true) ∧ (q.mode &&& W_OK ≠ 0 ↔ q.write = true) ∧
      (q.mode &&& X_OK ≠ 0 ↔ q.exec = true) := by
  obtain ⟨_ | _, _ | _, _ | _⟩ := q <;> decide

/-- The bits of the class, as masks. -/
theorem Class.allows_iff (hr : r.toNat = 2 ^ (k.shift + 2)) (hw : w.toNat = 2 ^ (k.shift + 1))
    (hx : x.toNat = 2 ^ k.shift) :
    k.Allows m q ↔ (q.read = true → r &&& m = r) ∧ (q.write = true → w &&& m = w) ∧ (q.exec = true → x &&& m = x) := by
  rw [bit_and_eq_iff hr, bit_and_eq_iff hw, bit_and_eq_iff hx]
  rfl

theorem classPerms_iff (hr : r.toNat = 2 ^ (k.shift + 2)) (hw : w.toNat = 2 ^ (k.shift + 1))
    (hx : x.toNat = 2 ^ k.shift) :
    classPerms r w x q.mode &&& m = classPerms r w x q.mode ↔ k.Allows m q := by
  obtain ⟨hread, hwrite, hexec⟩ := q.mode_bits
  rw [Class.allows_iff hr hw hx]
  unfold classPerms
  rw [or_and_eq_iff, or_and_eq_iff, ite_and_eq_iff, ite_and_eq_iff, ite_and_eq_iff, hread, hwrite, hexec, and_assoc]

theorem ownerPerms_iff : ownerPerms q.mode &&& m = ownerPerms q.mode ↔ Class.owner.Allows m q :=
  classPerms_iff (k := .owner) (by decide) (by decide) (by decide)

theorem groupPerms_iff : groupPerms q.mode &&& m = groupPerms q.mode ↔ Class.group.Allows m q :=
  classPerms_iff (k := .group) (by decide) (by decide) (by decide)

theorem otherPerms_iff : otherPerms q.mode &&& m = otherPerms q.mode ↔ Class.other.Allows m q :=
  classPerms_iff (k := .other) (by decide) (by decide) (by decide)

/-- The argument of `has_shm_permission` is one that it knows if it asks for reading or writing only. -/
theorem Request.perm_eq_iff (q : Request) :
    (q.perm = SHM_R ↔ q.read = true ∧ q.write = false ∧ q.exec = false) ∧
    (q.perm = SHM_W ↔ q.read = false ∧ q.write = true ∧ q.exec = false) ∧
    (q.perm = SHM_R ||| SHM_W ↔ q.read = true ∧ q.write = true ∧ q.exec = false) := by
  obtain ⟨_ | _, _ | _, _ | _⟩ := q <;> decide

theorem and_ne_zero_iff (ha : a.toNat = 2 ^ i) : m &&& a ≠ 0 ↔ m.toNat.testBit i = true := by
  rw [Ne, ← UInt32.toNat_inj, UInt32.toNat_and, ha, Nat.and_two_pow]
  cases m.toNat.testBit i with
  | false => simp
  | true => simp

theorem shmGrants_iff (hr : r.toNat = 2 ^ (k.shift + 2)) (hw : w.toNat = 2 ^ (k.shift + 1)) :
    shmGrants r w q.perm m = true ↔ (q.read = true ∨ q.write = true) ∧ q.exec = false ∧ k.Allows m q := by
  obtain ⟨hread, hwrite, hboth⟩ := q.perm_eq_iff
  unfold shmGrants Class.Allows
  rw [decide_eq_true_iff, UInt32.and_comm m (r ||| w), or_and_eq_iff, bit_and_eq_iff hr, bit_and_eq_iff hw,
    and_ne_zero_iff hr, and_ne_zero_iff hw, hread, hwrite, hboth]
  cases q.read <;> cases q.write <;> cases q.exec <;> simp

/-! ## What the checks decide -/

/-- `check_file_access` grants what any class of the caller allows. -/
theorem checkFileAccess_iff (hroot : c.uid.effective ≠ 0) :
    checkFileAccess c st q.mode = true ↔ ∃ k, c.In st k ∧ k.Allows st.mode q := by
  have hgroups : (c.groups.any fun g => g = st.gid ∧ Class.group.Allows st.mode q) = true ↔
      st.gid ∈ c.groups ∧ Class.group.Allows st.mode q := by
    simp only [List.any_eq_true, decide_eq_true_eq]
    constructor
    · rintro ⟨g, hg, rfl, h⟩
      exact ⟨hg, h⟩
    · rintro ⟨hg, h⟩
      exact ⟨_, hg, rfl, h⟩
  unfold checkFileAccess
  rw [if_neg hroot]
  simp only [ownerPerms_iff, groupPerms_iff, otherPerms_iff, Bool.if_true_left, Bool.or_eq_true,
    decide_eq_true_eq, hgroups]
  constructor
  · rintro (⟨hin, h⟩ | ⟨hin, h⟩ | ⟨hin, h⟩ | h)
    · exact ⟨.owner, hin, h⟩
    · exact ⟨.group, .inl hin, h⟩
    · exact ⟨.group, .inr hin, h⟩
    · exact ⟨.other, trivial, h⟩
  · rintro ⟨_ | _ | _, hin, h⟩
    · exact .inl ⟨hin, h⟩
    · exact .inr (hin.elim (fun hin => .inl ⟨hin, h⟩) fun hin => .inr (.inl ⟨hin, h⟩))
    · exact .inr (.inr (.inr h))

/-- `has_shm_permission` grants it for the rights it knows, and not to a supplementary group. -/
theorem hasShmPermission_iff (hroot : c.uid.effective ≠ 0) :
    hasShmPermission c st q.perm = true ↔ (q.read = true ∨ q.write = true) ∧ q.exec = false ∧
      (c.uid.effective = st.uid ∧ Class.owner.Allows st.mode q ∨
        c.gid.effective = st.gid ∧ Class.group.Allows st.mode q ∨ Class.other.Allows st.mode q) := by
  have howner := shmGrants_iff (k := .owner) (r := S_IRUSR) (w := S_IWUSR) (m := st.mode) (q := q)
    (by decide) (by decide)
  have hgroup := shmGrants_iff (k := .group) (r := S_IRGRP) (w := S_IWGRP) (m := st.mode) (q := q)
    (by decide) (by decide)
  have hother := shmGrants_iff (k := .other) (r := S_IROTH) (w := S_IWOTH) (m := st.mode) (q := q)
    (by decide) (by decide)
  unfold hasShmPermission
  rw [if_neg hroot]
  simp only [howner, hgroup, hother, Bool.if_true_left, Bool.or_eq_true, decide_eq_true_eq]
  constructor
  · rintro (⟨hin, hasked, hexec, h⟩ | ⟨hin, hasked, hexec, h⟩ | ⟨hasked, hexec, h⟩)
    · exact ⟨hasked, hexec, .inl ⟨hin, h⟩⟩
    · exact ⟨hasked, hexec, .inr (.inl ⟨hin, h⟩)⟩
    · exact ⟨hasked, hexec, .inr (.inr h)⟩
  · rintro ⟨hasked, hexec, ⟨hin, h⟩ | ⟨hin, h⟩ | h⟩
    · exact .inl ⟨hin, hasked, hexec, h⟩
    · exact .inr (.inl ⟨hin, hasked, hexec, h⟩)
    · exact .inr (.inr ⟨hasked, hexec, h⟩)

/-- The deciding class is one of the caller's. -/
theorem in_classOf : c.In st (c.classOf st) := by
  unfold Cred.classOf
  split
  · assumption
  · split
    · assumption
    · trivial

/-- The caller is of a class that `has_shm_permission` finds, or in a supplementary group. -/
theorem classOf_cases (c : Cred) (st : Perm) :
    c.classOf st = .owner ∧ c.uid.effective = st.uid ∨
    c.classOf st = .group ∧ c.gid.effective = st.gid ∨
    c.classOf st = .group ∧ c.gid.effective ≠ st.gid ∨
    c.classOf st = .other := by
  unfold Cred.classOf
  split
  · exact .inl ⟨rfl, ‹_›⟩
  · split
    · by_cases hgid : c.gid.effective = st.gid
      · exact .inr (.inl ⟨rfl, hgid⟩)
      · exact .inr (.inr (.inl ⟨rfl, hgid⟩))
    · exact .inr (.inr (.inr rfl))

/-- What `has_shm_permission` grants some class of the caller allows. -/
theorem exists_of_shm
    (h : c.uid.effective = st.uid ∧ Class.owner.Allows st.mode q ∨
      c.gid.effective = st.gid ∧ Class.group.Allows st.mode q ∨ Class.other.Allows st.mode q) :
    ∃ k, c.In st k ∧ k.Allows st.mode q := by
  obtain ⟨hin, h⟩ | ⟨hin, h⟩ | h := h
  · exact ⟨.owner, hin, h⟩
  · exact ⟨.group, .inl hin, h⟩
  · exact ⟨.other, trivial, h⟩

/-- What the deciding class allows `has_shm_permission` finds, but for members of a supplementary group. -/
theorem shm_of_allows (hprimary : Class.group.Allows st.mode q → c.classOf st = .group →
      c.gid.effective ≠ st.gid → Class.other.Allows st.mode q)
    (h : (c.classOf st).Allows st.mode q) :
    c.uid.effective = st.uid ∧ Class.owner.Allows st.mode q ∨
      c.gid.effective = st.gid ∧ Class.group.Allows st.mode q ∨ Class.other.Allows st.mode q := by
  obtain ⟨hk, hin⟩ | ⟨hk, hin⟩ | ⟨hk, hin⟩ | hk := classOf_cases c st
  · rw [hk] at h
    exact .inl ⟨hin, h⟩
  · rw [hk] at h
    exact .inr (.inl ⟨hin, h⟩)
  · rw [hk] at h
    exact .inr (.inr (hprimary h hk hin))
  · rw [hk] at h
    exact .inr (.inr h)

/-- The two checks follow the rule of one class exactly for the requests that are `Decisive`. -/
theorem access_oneClass_iff (hroot : c.uid.effective ≠ 0) : OneClass c st q ↔ Decisive c st q := by
  unfold OneClass
  rw [checkFileAccess_iff hroot, hasShmPermission_iff hroot]
  constructor
  · rintro ⟨hfile, hshm⟩
    refine ⟨fun k hin hk => hfile.mp ⟨k, hin, hk⟩, fun h => ?_, fun h hk hgid => ?_⟩
    · obtain ⟨hasked, hexec, -⟩ := hshm.mpr h
      exact ⟨hasked, hexec⟩
    · rw [hk] at hshm
      obtain ⟨-, -, ⟨howner, -⟩ | ⟨hin, -⟩ | hother⟩ := hshm.mpr h
      · unfold Cred.classOf at hk
        rw [if_pos howner] at hk
        cases hk
      · exact absurd hin hgid
      · exact hother
  · intro h
    constructor
    · constructor
      · rintro ⟨k, hin, hk⟩
        exact h.sole k hin hk
      · intro hallows
        exact ⟨_, in_classOf, hallows⟩
    · constructor
      · rintro ⟨-, -, hsome⟩
        obtain ⟨k, hin, hk⟩ := exists_of_shm hsome
        exact h.sole k hin hk
      · intro hallows
        obtain ⟨hasked, hexec⟩ := h.known hallows
        exact ⟨hasked, hexec, shm_of_allows h.primary hallows⟩

/-- Its owner may read a file of mode 0640. -/
theorem access_oneClass_iff_owner :
    OneClass sample ⟨1001, 100, 0o640⟩ ⟨true, false, false⟩ ↔ Decisive sample ⟨1001, 100, 0o640⟩ ⟨true, false, false⟩ :=
  access_oneClass_iff (by decide)

/-- The owner of a file of mode 0004 may not read it, but as one of the others it does. -/
theorem not_oneClass_other : ¬OneClass sample ⟨1001, 0, 0o004⟩ ⟨true, false, false⟩ := by
  unfold OneClass
  decide

end SC7.Credentials
