-- SUMMARY: Owner, group and mode of files: `fchmod`, `fchmodat`, `fchown` and `fchownat`, and what a process without privilege can change with them.
import Mathlib.Logic.Function.Basic
import SC7.Base.Run

/-!
# Owners of files

The four calls (`syscall.c`) find an inode by a path name, that of an open file or one that the caller
gives, and go through `ext4_mode_set` and `ext4_owner_set` (`ext4.c`). Which inode a path leads to does
not depend on what these calls change: they write the owner, the group and the lower twelve bits of
the mode, so the path lookup is a parameter. `sys_fchmod` and `sys_fchmodat` ask for the owner of the
file; `sys_fchown` and `sys_fchownat` do not.
-/

namespace SC7.Owner

open Function (update update_of_ne)

/-- The fields of `struct ext4_inode` at stake. `mode` is the value of `ext4_inode_get_mode`. -/
structure Inode where
  uid : UInt16
  gid : UInt16
  mode : UInt32
  deriving DecidableEq

abbrev Ino := Nat

/-- The inodes of the file systems. -/
abbrev Disk := Ino → Inode

/-- `struct file`, as far as it is read here. -/
structure OpenFile where
  flags : UInt32
  path : String

/-- The calling process. Its file table is read at `AT_FDCWD` too, outside of the array: `ofile` is
what the kernel finds there. -/
structure Proc where
  euid : UInt32
  egid : UInt32
  groups : List UInt32
  ofile : Int → Option OpenFile
  cwd : String

/-- What a call meets outside of the code below: user memory, path names, the mount table and errors
of the disk (0 is `EOK`). -/
structure Env where
  copyinstr : UInt64 → Option String
  /-- `get_absolute_path`. -/
  absolutePath : String → String → String
  /-- What is read in place of the path of a file that is not open. -/
  nullPath : String
  /-- `do_path_containFile_or_notExist`. -/
  checkPath : String → Int
  /-- Whether the file system of a path is read-only, for the paths that have one. -/
  mount : String → Option Bool
  /-- `ext4_generic_open2` and `ext4_fs_get_inode_ref`. -/
  lookup : String → Except Nat Ino
  ownerPut : Nat
  modePut : Nat
  ownerGetPut : Nat
  modeGetPut : Nat

def NOFILE : Int := 256
def AT_FDCWD : Int := -100
def O_PATH : UInt32 := 0x200000
def S_ISUID : UInt32 := 0x800
def S_ISGID : UInt32 := 0x400
def S_IXGRP : UInt32 := 0x8
def EPERM : Nat := 1
def ENOENT : Nat := 2
def EBADF : Nat := 9
def EFAULT : Nat := 14
def EROFS : Nat := 30
def ENAMETOOLONG : Nat := 36

/-! ## ext4.c -/

namespace Env

/-- The inode of a path, as the functions that only read find it. -/
def inode (env : Env) (path : String) : Except Nat Ino :=
  match env.mount path with
  | none => .error ENOENT
  | some _ => env.lookup path

/-- The inode of a path, as the functions that write find it. -/
def inodeToWrite (env : Env) (path : String) : Except Nat Ino :=
  match env.mount path with
  | none => .error ENOENT
  | some true => .error EROFS
  | some false => env.lookup path

/-- `ext4_mode_set`. -/
def ext4ModeSet (env : Env) (disk : Disk) (path : String) (mode : UInt32) : Nat × Disk :=
  match env.inodeToWrite path with
  | .error e => (e, disk)
  | .ok ino =>
    let mode := (disk ino).mode &&& ~~~0xFFF ||| mode &&& 0xFFF
    (env.modePut, update disk ino { disk ino with mode })

/-- `ext4_owner_set`; an inode has sixteen bits for each of the ids. -/
def ext4OwnerSet (env : Env) (disk : Disk) (path : String) (uid gid : UInt32) : Nat × Disk :=
  match env.inodeToWrite path with
  | .error e => (e, disk)
  | .ok ino => (env.ownerPut, update disk ino { disk ino with uid := uid.toUInt16, gid := gid.toUInt16 })

/-- `ext4_mode_get`. -/
def ext4ModeGet (env : Env) (disk : Disk) (path : String) : Except Nat UInt32 :=
  match env.inode path with
  | .error e => .error e
  | .ok ino => if env.modeGetPut = 0 then .ok (disk ino).mode else .error env.modeGetPut

/-- `ext4_owner_get`. -/
def ext4OwnerGet (env : Env) (disk : Disk) (path : String) : Except Nat (UInt32 × UInt32) :=
  match env.inode path with
  | .error e => .error e
  | .ok ino =>
    if env.ownerGetPut = 0 then .ok ((disk ino).uid.toUInt32, (disk ino).gid.toUInt32)
    else .error env.ownerGetPut

/-- `vfs_ext4_stat`, for the owner and the group. -/
def vfsExt4Stat (env : Env) (disk : Disk) (path : String) : Except Nat (UInt32 × UInt32) :=
  match env.inode path with
  | .error e => .error e
  | .ok ino => .ok ((disk ino).uid.toUInt32, (disk ino).gid.toUInt32)

end Env

/-! ## The system calls -/

namespace Proc

/-- The mode without the set-group-id bit, if the caller is not in the group of the file. -/
def groupMode (p : Proc) (gid mode : UInt32) : UInt32 :=
  if p.euid ≠ 0 ∧ mode &&& S_ISGID ≠ 0 ∧ ¬ (p.egid = gid ∨ gid ∈ p.groups) then mode &&& ~~~S_ISGID
  else mode

/-- The common end of `sys_fchmod` and `sys_fchmodat`. -/
def changeMode (p : Proc) (env : Env) (disk : Disk) (path : String) (mode : UInt32) : Int × Disk :=
  match env.vfsExt4Stat disk path with
  | .error e => (-e, disk)
  | .ok (uid, gid) =>
    if p.euid ≠ 0 ∧ p.euid ≠ uid then (-EPERM, disk)
    else
      let (ret, disk) := env.ext4ModeSet disk path (p.groupMode gid mode)
      (-ret, disk)

/-- `sys_fchmod`. -/
def sysFchmod (p : Proc) (env : Env) (disk : Disk) (fd : Int) (mode : UInt32) : Int × Disk :=
  if fd ≠ AT_FDCWD ∧ (fd < 0 ∨ NOFILE ≤ fd) then (-EBADF, disk)
  else
    match p.ofile fd with
    | none => (-EBADF, disk)
    | some file =>
      if file.flags &&& O_PATH ≠ 0 then (-EBADF, disk) else p.changeMode env disk file.path mode

/-- The directory that a path name is relative to. -/
def dirPath (p : Proc) (env : Env) (dirfd : Int) : String :=
  if dirfd = AT_FDCWD then p.cwd
  else match p.ofile dirfd with
    | none => env.nullPath
    | some file => file.path

/-- `sys_fchmodat`. -/
def sysFchmodat (p : Proc) (env : Env) (disk : Disk) (dirfd : Int) (pathname : UInt64) (mode : UInt32) :
    Int × Disk :=
  match env.copyinstr pathname with
  | none => (-EFAULT, disk)
  | some path =>
    if 255 < path.utf8ByteSize then (-ENAMETOOLONG, disk)
    else if path = "" then (-ENOENT, disk)
    else if dirfd ≠ AT_FDCWD ∧ (dirfd < 0 ∨ NOFILE ≤ dirfd) then (-EBADF, disk)
    else
      let path := env.absolutePath path (p.dirPath env dirfd)
      if env.checkPath path ≠ 0 then (env.checkPath path, disk)
      else p.changeMode env disk path mode

/-- The mode bits that a change of the owner clears. -/
def clearedMode (p : Proc) (mode : UInt32) : UInt32 :=
  if p.euid ≠ 0 then mode &&& ~~~(S_ISUID ||| S_ISGID)
  else
    let mode := mode &&& ~~~S_ISUID
    if mode &&& S_IXGRP ≠ 0 then mode &&& ~~~S_ISGID else mode

/-- The common end of `sys_fchown` and `sys_fchownat`. -/
def changeOwner (p : Proc) (env : Env) (disk : Disk) (path : String) (owner group : UInt32) : Int × Disk :=
  let (ret, disk) := env.ext4OwnerSet disk path owner group
  if ret ≠ 0 then (-ret, disk)
  else
    match env.ext4ModeGet disk path with
    | .error _ => (0, disk)
    | .ok mode =>
      let (ret, disk) := env.ext4ModeSet disk path (p.clearedMode mode)
      (-ret, disk)

/-- The owner and the group to set: an argument of -1 stands for the one that `current` finds. -/
def askedOwner (owner group : UInt32) (current : Except Nat (UInt32 × UInt32)) :
    Except Nat (UInt32 × UInt32) :=
  if owner = -1 ∨ group = -1 then
    match current with
    | .error e => .error e
    | .ok (uid, gid) => .ok (if owner = -1 then uid else owner, if group = -1 then gid else group)
  else .ok (owner, group)

/-- `sys_fchown`. -/
def sysFchown (p : Proc) (env : Env) (disk : Disk) (fd : Int) (owner group : UInt32) : Int × Disk :=
  if fd < 0 ∨ NOFILE ≤ fd then (-EBADF, disk)
  else
    match p.ofile fd with
    | none => (-EBADF, disk)
    | some file =>
      if file.flags &&& O_PATH ≠ 0 then (-EBADF, disk)
      else
        match askedOwner owner group (env.vfsExt4Stat disk file.path) with
        | .error e => (-e, disk)
        | .ok (owner, group) => p.changeOwner env disk file.path owner group

/-- `sys_fchownat`. -/
def sysFchownat (p : Proc) (env : Env) (disk : Disk) (dirfd : Int) (pathname : UInt64)
    (owner group : UInt32) : Int × Disk :=
  match env.copyinstr pathname with
  | none => (-EFAULT, disk)
  | some path =>
    if dirfd ≠ AT_FDCWD ∧ (dirfd < 0 ∨ NOFILE ≤ dirfd) then (-EBADF, disk)
    else
      let path := env.absolutePath path (p.dirPath env dirfd)
      match askedOwner owner group (env.ext4OwnerGet disk path) with
      | .error e => (-e, disk)
      | .ok (owner, group) => p.changeOwner env disk path owner group

end Proc

/-- The four calls; the flags of the `at` calls are not read. -/
inductive Call where
  | fchmod (fd : Int) (mode : UInt32)
  | fchmodat (dirfd : Int) (pathname : UInt64) (mode : UInt32)
  | fchown (fd : Int) (owner group : UInt32)
  | fchownat (dirfd : Int) (pathname : UInt64) (owner group : UInt32)

/-- The result of a call and the inodes after it. -/
def Proc.call (p : Proc) (env : Env) (disk : Disk) : Call → Int × Disk
  | .fchmod fd mode => p.sysFchmod env disk fd mode
  | .fchmodat dirfd pathname mode => p.sysFchmodat env disk dirfd pathname mode
  | .fchown fd owner group => p.sysFchown env disk fd owner group
  | .fchownat dirfd pathname owner group => p.sysFchownat env disk dirfd pathname owner group

/-! ## Which file a call is on -/

namespace Proc

/-- The path of an open file that is not only a place in the tree. -/
def filePath (p : Proc) (fd : Int) : Option String :=
  match p.ofile fd with
  | none => none
  | some file => if file.flags &&& O_PATH ≠ 0 then none else some file.path

/-- The absolute path of a path name in user memory. -/
def namedPath (p : Proc) (env : Env) (dirfd : Int) (pathname : UInt64) : Option String :=
  if dirfd ≠ AT_FDCWD ∧ (dirfd < 0 ∨ NOFILE ≤ dirfd) then none
  else
    match env.copyinstr pathname with
    | none => none
    | some path => some (env.absolutePath path (p.dirPath env dirfd))

/-- The path that a call names, unless its arguments are refused before a path is used. -/
def path (p : Proc) (env : Env) : Call → Option String
  | .fchmod fd _ => if fd ≠ AT_FDCWD ∧ (fd < 0 ∨ NOFILE ≤ fd) then none else p.filePath fd
  | .fchown fd _ _ => if fd < 0 ∨ NOFILE ≤ fd then none else p.filePath fd
  | .fchmodat dirfd pathname _ | .fchownat dirfd pathname _ _ => p.namedPath env dirfd pathname

/-- The call is on the file of inode `ino`. -/
def On (p : Proc) (env : Env) (call : Call) (ino : Ino) : Prop :=
  ∃ path, p.path env call = some path ∧ env.inode path = .ok ino

/-- The process owns the file, as the kernel compares the ids. -/
def Owns (p : Proc) (inode : Inode) : Prop := p.euid = inode.uid.toUInt32

instance (p : Proc) (inode : Inode) : Decidable (p.Owns inode) :=
  inferInstanceAs (Decidable (p.euid = inode.uid.toUInt32))

/-- A `chown` of a file that can be written is on a file of the caller and leaves the owner as it is. -/
def KeepsOwner (p : Proc) (env : Env) (disk : Disk) : Call → Prop
  | .fchmod _ _ | .fchmodat _ _ _ => True
  | .fchown fd owner group =>
    ∀ path ino, p.path env (.fchown fd owner group) = some path → env.inodeToWrite path = .ok ino →
      p.Owns (disk ino) ∧ (owner = -1 ∨ p.euid = owner.toUInt16.toUInt32)
  | .fchownat dirfd pathname owner group =>
    ∀ path ino, p.path env (.fchownat dirfd pathname owner group) = some path →
      env.inodeToWrite path = .ok ino →
      p.Owns (disk ino) ∧ (owner = -1 ∨ p.euid = owner.toUInt16.toUInt32)

/-- One call of the process, under a condition on it. -/
def Step (p : Proc) (meets : Env → Disk → Call → Prop) (disk disk' : Disk) : Prop :=
  ∃ env call, meets env disk call ∧ disk' = (p.call env disk call).2

end Proc

/-! ## One call -/

section

variable {p : Proc} {env : Env} {disk : Disk} {path : String} {ino : Ino} {e : Nat} {owner group uid gid : UInt32}
  {current : Except Nat (UInt32 × UInt32)} {call : Call}

theorem Env.inode_of_toWrite (h : env.inodeToWrite path = .ok ino) : env.inode path = .ok ino := by
  unfold Env.inodeToWrite at h
  unfold Env.inode
  split at h
  · cases h
  · cases h
  · rename_i hmount
    rw [hmount]
    exact h

/-- A file that can be read and not written is on a read-only file system. -/
theorem Env.readOnly_of_inode (h : env.inode path = .ok ino) (hw : env.inodeToWrite path = .error e) : e = EROFS := by
  unfold Env.inodeToWrite at hw
  unfold Env.inode at h
  split at hw
  · rename_i hmount
    rw [hmount] at h
    cases h
  · cases hw
    rfl
  · rename_i hmount
    rw [hmount] at h
    cases h.symm.trans hw

/-- `ext4_mode_set` writes the mode of one inode at most. -/
theorem Env.ext4ModeSet_cases (env : Env) (disk : Disk) (path : String) (mode : UInt32) :
    (env.ext4ModeSet disk path mode).2 = disk ∨
      ∃ ino mode', env.inodeToWrite path = .ok ino ∧
        (env.ext4ModeSet disk path mode).2 = update disk ino { disk ino with mode := mode' } := by
  unfold Env.ext4ModeSet
  split
  · exact .inl rfl
  · exact .inr ⟨_, _, ‹_›, rfl⟩

/-- Without the privilege and without the ownership the mode stays. -/
theorem Proc.changeMode_refused {mode : UInt32} (hroot : p.euid ≠ 0) (hino : env.inode path = .ok ino)
    (howns : ¬ p.Owns (disk ino)) : p.changeMode env disk path mode = (-(EPERM : Int), disk) := by
  have hstat : env.vfsExt4Stat disk path = .ok ((disk ino).uid.toUInt32, (disk ino).gid.toUInt32) := by
    unfold Env.vfsExt4Stat
    rw [hino]
  unfold Proc.changeMode
  rw [hstat]
  exact if_pos ⟨hroot, howns⟩

/-- What `changeMode` does to the inodes, whoever calls it. -/
theorem Proc.changeMode_cases (p : Proc) (env : Env) (disk : Disk) (path : String) (mode : UInt32) :
    (p.changeMode env disk path mode).2 = disk ∨
      ∃ ino mode', env.inodeToWrite path = .ok ino ∧
        (p.changeMode env disk path mode).2 = update disk ino { disk ino with mode := mode' } := by
  unfold Proc.changeMode
  split
  · exact .inl rfl
  · split
    · exact .inl rfl
    · exact env.ext4ModeSet_cases disk path _

/-- What `changeOwner` does to the inodes: nothing, or the new owner and some mode for one inode. -/
theorem Proc.changeOwner_cases (p : Proc) (env : Env) (disk : Disk) (path : String) (owner group : UInt32) :
    (∃ e, env.inodeToWrite path = .error e ∧ (p.changeOwner env disk path owner group).2 = disk ∧
        (e ≠ 0 → (p.changeOwner env disk path owner group).1 ≠ 0)) ∨
      ∃ ino mode, env.inodeToWrite path = .ok ino ∧
        (p.changeOwner env disk path owner group).2 =
          update disk ino ⟨owner.toUInt16, group.toUInt16, mode⟩ := by
  cases hw : env.inodeToWrite path with
  | error e =>
    refine .inl ⟨e, rfl, ?_⟩
    unfold Proc.changeOwner Env.ext4OwnerSet
    rw [hw]
    simp only
    split
    · rename_i hne
      refine ⟨rfl, fun _ => ?_⟩
      simpa using hne
    · rename_i hzero
      have he : e = 0 := Decidable.not_not.mp hzero
      refine ⟨?_, fun hne => absurd he hne⟩
      have hset : ∀ mode, (env.ext4ModeSet disk path mode).2 = disk := by
        intro mode
        unfold Env.ext4ModeSet
        rw [hw]
      split
      · rfl
      · exact hset _
  | ok ino =>
    unfold Proc.changeOwner Env.ext4OwnerSet
    rw [hw]
    simp only
    split
    · exact .inr ⟨ino, _, rfl, rfl⟩
    · split
      · exact .inr ⟨ino, _, rfl, rfl⟩
      · -- the owner has been written; the mode that follows is that of the same inode
        rename_i mode _
        refine .inr ⟨ino, ?_⟩
        rcases env.ext4ModeSet_cases (update disk ino
            { disk ino with uid := owner.toUInt16, gid := group.toUInt16 }) path (p.clearedMode mode) with
          hsame | ⟨ino', mode', hw', hset⟩
        · exact ⟨_, rfl, hsame⟩
        · obtain rfl : ino = ino' := by simpa [hw] using hw'
          refine ⟨mode', rfl, hset.trans ?_⟩
          simp only [Function.update_self, Function.update_idem]

/-- The owner that is set is the one that was asked for, or with -1 the one of the file. -/
theorem Proc.askedOwner_owner (h : askedOwner owner group current = .ok (uid, gid)) :
    (owner ≠ -1 → uid = owner) ∧ (owner = -1 → ∃ gid, current = .ok (uid, gid)) := by
  unfold askedOwner at h
  split at h
  · split at h
    · cases h
    · by_cases howner : owner = -1
      · simp only [howner, if_true] at h
        cases h
        exact ⟨fun hne => absurd howner hne, fun _ => ⟨_, rfl⟩⟩
      · simp only [howner, if_false] at h
        cases h
        exact ⟨fun _ => rfl, fun heq => absurd heq howner⟩
  · rename_i hneither
    cases h
    exact ⟨fun _ => rfl, fun heq => absurd (.inl heq) hneither⟩

/-- Where the condition holds, the owner that is set is the caller. -/
theorem Proc.askedOwner_keeps (hasked : askedOwner owner group current = .ok (uid, gid))
    (hcur : ∀ uid gid, current = .ok (uid, gid) → uid = (disk ino).uid.toUInt32)
    (hkeeps : p.Owns (disk ino) ∧ (owner = -1 ∨ p.euid = owner.toUInt16.toUInt32)) :
    p.Owns (disk ino) ∧ p.euid = uid.toUInt16.toUInt32 := by
  obtain ⟨hother, hminus⟩ := askedOwner_owner hasked
  refine ⟨hkeeps.1, ?_⟩
  by_cases howner : owner = -1
  · obtain ⟨gid', heq⟩ := hminus howner
    rw [hcur _ _ heq, UInt16.toUInt16_toUInt32]
    exact hkeeps.1
  · rw [hother howner]
    exact hkeeps.2.resolve_left howner

theorem Env.vfsExt4Stat_uid (disk : Disk) (hino : env.inode path = .ok ino) :
    ∀ uid gid, env.vfsExt4Stat disk path = .ok (uid, gid) → uid = (disk ino).uid.toUInt32 := by
  intro uid gid h
  unfold Env.vfsExt4Stat at h
  rw [hino] at h
  cases h
  rfl

theorem Env.ext4OwnerGet_uid (disk : Disk) (hino : env.inode path = .ok ino) :
    ∀ uid gid, env.ext4OwnerGet disk path = .ok (uid, gid) → uid = (disk ino).uid.toUInt32 := by
  intro uid gid h
  unfold Env.ext4OwnerGet at h
  rw [hino] at h
  simp only at h
  split at h
  · cases h
    rfl
  · cases h

/-- Where the owner cannot be asked for although there is a file, the disk has failed. -/
theorem Env.ext4OwnerGet_error (hino : env.inode path = .ok ino)
    (h : env.ext4OwnerGet disk path = .error e) : e ≠ 0 := by
  unfold Env.ext4OwnerGet at h
  rw [hino] at h
  simp only at h
  split at h
  · cases h
  · rename_i hne
    cases h
    exact hne

theorem Env.vfsExt4Stat_ok (disk : Disk) (hino : env.inode path = .ok ino) :
    ∃ uid gid, env.vfsExt4Stat disk path = .ok (uid, gid) := by
  unfold Env.vfsExt4Stat
  rw [hino]
  exact ⟨_, _, rfl⟩

theorem Proc.askedOwner_error (h : askedOwner owner group current = .error e) : current = .error e := by
  unfold askedOwner at h
  split at h
  · split at h
    · exact h
    · cases h
  · cases h

/-- What a call comes to: it is refused, or it ends in one of the two changes. A refusal that comes
after the call is on a file has an error code. -/
inductive Proc.Fate (p : Proc) (env : Env) (disk : Disk) (call : Call) (r : Int × Disk) : Prop where
  | refused (unchanged : r.2 = disk) (error : ∀ ino, p.On env call ino → r.1 ≠ 0)
  | mode (path : String) (mode : UInt32) (on : p.path env call = some path)
      (result : r = p.changeMode env disk path mode)
  | owner (path : String) (owner group : UInt32) (on : p.path env call = some path)
      (result : r = p.changeOwner env disk path owner group)
      (keeps : ∀ ino, p.KeepsOwner env disk call → env.inodeToWrite path = .ok ino →
        p.Owns (disk ino) ∧ p.euid = owner.toUInt16.toUInt32)

theorem Proc.Fate.error (he : e ≠ 0) : p.Fate env disk call (-e, disk) := by
  refine .refused rfl fun _ _ => ?_
  simpa using he

theorem Proc.sysFchmod_fate (p : Proc) (env : Env) (disk : Disk) (fd : Int) (mode : UInt32) :
    p.Fate env disk (.fchmod fd mode) (p.sysFchmod env disk fd mode) := by
  unfold Proc.sysFchmod
  split
  · exact .error (by decide)
  rename_i hfd
  split
  · exact .error (by decide)
  rename_i file hfile
  split
  · exact .error (by decide)
  rename_i hflags
  refine .mode file.path mode ?_ rfl
  simp only [Proc.path, Proc.filePath, if_neg hfd, hfile, if_neg hflags]

theorem Proc.sysFchmodat_fate (p : Proc) (env : Env) (disk : Disk) (dirfd : Int) (pathname : UInt64)
    (mode : UInt32) :
    p.Fate env disk (.fchmodat dirfd pathname mode) (p.sysFchmodat env disk dirfd pathname mode) := by
  unfold Proc.sysFchmodat
  split
  · exact .error (by decide)
  rename_i path hcopy
  split
  · exact .error (by decide)
  split
  · exact .error (by decide)
  split
  · exact .error (by decide)
  rename_i hdirfd
  simp only
  split
  · exact .refused rfl fun _ _ => ‹_›
  refine .mode _ mode ?_ rfl
  simp only [Proc.path, Proc.namedPath, if_neg hdirfd, hcopy]

theorem Proc.sysFchown_fate (p : Proc) (env : Env) (disk : Disk) (fd : Int) (owner group : UInt32) :
    p.Fate env disk (.fchown fd owner group) (p.sysFchown env disk fd owner group) := by
  unfold Proc.sysFchown
  split
  · exact .error (by decide)
  rename_i hfd
  split
  · exact .error (by decide)
  rename_i file hfile
  split
  · exact .error (by decide)
  rename_i hflags
  have hpath : p.path env (.fchown fd owner group) = some file.path := by
    simp only [Proc.path, Proc.filePath, if_neg hfd, hfile, if_neg hflags]
  split
  · rename_i hask
    refine .refused rfl ?_
    rintro ino ⟨path, hpath', hino⟩
    cases hpath.symm.trans hpath'
    obtain ⟨uid, gid, hstat⟩ := Env.vfsExt4Stat_ok disk hino
    cases (Proc.askedOwner_error hask).symm.trans hstat
  · rename_i hask
    refine .owner _ _ _ hpath rfl ?_
    intro ino hkeeps hw
    have huid := Env.vfsExt4Stat_uid disk (Env.inode_of_toWrite hw)
    exact Proc.askedOwner_keeps hask huid (hkeeps _ ino hpath hw)

theorem Proc.sysFchownat_fate (p : Proc) (env : Env) (disk : Disk) (dirfd : Int) (pathname : UInt64)
    (owner group : UInt32) :
    p.Fate env disk (.fchownat dirfd pathname owner group)
      (p.sysFchownat env disk dirfd pathname owner group) := by
  unfold Proc.sysFchownat
  split
  · exact .error (by decide)
  rename_i path hcopy
  split
  · exact .error (by decide)
  rename_i hdirfd
  have hpath : p.path env (.fchownat dirfd pathname owner group) =
      some (env.absolutePath path (p.dirPath env dirfd)) := by
    simp only [Proc.path, Proc.namedPath, if_neg hdirfd, hcopy]
  simp only
  split
  · rename_i hask
    refine .refused rfl ?_
    rintro ino ⟨path, hpath', hino⟩
    cases hpath.symm.trans hpath'
    have hne := Env.ext4OwnerGet_error hino (Proc.askedOwner_error hask)
    simpa using hne
  · rename_i hask
    refine .owner _ _ _ hpath rfl ?_
    intro ino hkeeps hw
    have huid := Env.ext4OwnerGet_uid disk (Env.inode_of_toWrite hw)
    exact Proc.askedOwner_keeps hask huid (hkeeps _ ino hpath hw)

theorem Proc.call_fate (p : Proc) (env : Env) (disk : Disk) (call : Call) :
    p.Fate env disk call (p.call env disk call) := by
  cases call with
  | fchmod fd mode => exact p.sysFchmod_fate env disk fd mode
  | fchmodat dirfd pathname mode => exact p.sysFchmodat_fate env disk dirfd pathname mode
  | fchown fd owner group => exact p.sysFchown_fate env disk fd owner group
  | fchownat dirfd pathname owner group => exact p.sysFchownat_fate env disk dirfd pathname owner group

/-- A call that keeps the owner leaves the file of another user as it is, and says that it did. -/
theorem Proc.call_other (hroot : p.euid ≠ 0) (hkeeps : p.KeepsOwner env disk call) (howns : ¬ p.Owns (disk ino)) :
    (p.call env disk call).2 ino = disk ino ∧ (p.On env call ino → (p.call env disk call).1 ≠ 0) := by
  cases p.call_fate env disk call with
  | refused hsame herror => exact ⟨by rw [hsame], herror ino⟩
  | mode path mode hpath hresult =>
    rw [hresult]
    refine ⟨?_, ?_⟩
    · rcases p.changeMode_cases env disk path mode with hsame | ⟨ino', mode', hw, hset⟩
      · rw [hsame]
      · by_cases hino : ino' = ino
        · subst hino
          rw [p.changeMode_refused hroot (Env.inode_of_toWrite hw) howns]
        · rw [hset, update_of_ne (Ne.symm hino)]
    · rintro ⟨path', hpath', hino⟩
      cases hpath.symm.trans hpath'
      rw [p.changeMode_refused hroot hino howns]
      exact Int.neg_ne_zero.mpr (by decide)
  | owner path owner group hpath hresult howner =>
    rw [hresult]
    rcases p.changeOwner_cases env disk path owner group with ⟨e, hw, hsame, herror⟩ | ⟨ino', mode, hw, hset⟩
    · refine ⟨by rw [hsame], ?_⟩
      rintro ⟨path', hpath', hino⟩
      cases hpath.symm.trans hpath'
      exact herror (by rw [Env.readOnly_of_inode hino hw]; decide)
    · -- the file whose owner is set is one of the caller's, so it is another one
      have hother : ino ≠ ino' := by
        rintro rfl
        exact howns (howner ino hkeeps hw).1
      refine ⟨by rw [hset, update_of_ne hother], ?_⟩
      rintro ⟨path', hpath', hino⟩
      cases hpath.symm.trans hpath'
      cases hino.symm.trans (Env.inode_of_toWrite hw)
      exact absurd rfl hother

/-- A call that keeps the owner does not give a file away. -/
theorem Proc.call_own (hkeeps : p.KeepsOwner env disk call) (howns : p.Owns (disk ino)) :
    p.Owns ((p.call env disk call).2 ino) := by
  cases p.call_fate env disk call with
  | refused hsame _ =>
    rw [hsame]
    exact howns
  | mode path mode _ hresult =>
    rw [hresult]
    rcases p.changeMode_cases env disk path mode with hsame | ⟨ino', mode', _, hset⟩
    · rw [hsame]
      exact howns
    · rw [hset]
      by_cases hino : ino = ino'
      · subst hino
        simpa [Proc.Owns] using howns
      · rw [update_of_ne hino]
        exact howns
  | owner path owner group _ hresult howner =>
    rw [hresult]
    rcases p.changeOwner_cases env disk path owner group with ⟨_, _, hsame, _⟩ | ⟨ino', mode, hw, hset⟩
    · rw [hsame]
      exact howns
    · rw [hset]
      by_cases hino : ino = ino'
      · subst hino
        simpa [Proc.Owns] using (howner ino hkeeps hw).2
      · rw [update_of_ne hino]
        exact howns

end

/-! ## Runs -/

/-- What the calls of an unprivileged process leave of the files there were in `disk`. -/
structure Proc.Respects (p : Proc) (disk disk' : Disk) : Prop where
  other : ∀ ino, ¬ p.Owns (disk ino) → disk' ino = disk ino
  own : ∀ ino, p.Owns (disk ino) → p.Owns (disk' ino)

/-- In every run whose `chown` calls keep the owner, the files of other users stay as they are and a call
on one of them fails, and no file of the caller gets another owner. -/
theorem metadata_of_owner {p : Proc} {disk disk' : Disk} (hroot : p.euid ≠ 0)
    (hrun : Reaches (p.Step p.KeepsOwner) disk disk') :
    p.Respects disk disk' ∧
      ∀ env call ino, p.KeepsOwner env disk' call → ¬ p.Owns (disk ino) → p.On env call ino →
        (p.call env disk' call).1 ≠ 0 := by
  have hresp : p.Respects disk disk' := by
    refine hrun.invariant ⟨fun _ _ => rfl, fun _ h => h⟩ ?_
    rintro mid next ⟨hother, hown⟩ ⟨env, call, hkeeps, rfl⟩
    refine ⟨fun ino hno => ?_, fun ino h => Proc.call_own hkeeps (hown ino h)⟩
    have hsame := hother ino hno
    rw [(Proc.call_other hroot hkeeps (by rwa [hsame])).1, hsame]
  refine ⟨hresp, fun env call ino hkeeps hno hon => ?_⟩
  exact (Proc.call_other hroot hkeeps (by rwa [hresp.other ino hno])).2 hon

/-- A process of user 1000 with one file of the superuser open for reading. -/
def reader : Proc where
  euid := 1000
  egid := 1000
  groups := []
  ofile fd := if fd = 3 then some ⟨0, "/etc/passwd"⟩ else none
  cwd := "/"

/-- A disk without errors on which every path leads to inode 12. -/
def plain : Env where
  copyinstr _ := some "/etc/passwd"
  absolutePath path _ := path
  nullPath := ""
  checkPath _ := 0
  mount _ := some false
  lookup _ := .ok 12
  ownerPut := 0
  modePut := 0
  ownerGetPut := 0
  modeGetPut := 0

/-- A file of the superuser that everybody may read. -/
def passwd : Disk := fun _ => ⟨0, 0, 0x81A4⟩

/-- The refused `fchmod` of the file of the superuser is a run of one call. -/
theorem metadata_of_owner_passwd :
    Reaches (reader.Step reader.KeepsOwner) passwd passwd ∧
      (reader.call plain passwd (.fchmod 3 0x1FF)).1 ≠ 0 := by
  have hrun : Reaches (reader.Step reader.KeepsOwner) passwd passwd :=
    .single ⟨plain, .fchmod 3 0x1FF, trivial, rfl⟩
  exact ⟨hrun, (metadata_of_owner (by decide) hrun).2 plain (.fchmod 3 0x1FF) 12 trivial (by decide)
    ⟨"/etc/passwd", by decide, rfl⟩⟩

/-- `fchown` makes the caller the owner of a file of the superuser. -/
theorem chown_takes_file :
    ¬ ∀ (p : Proc) (disk disk' : Disk), p.euid ≠ 0 → Reaches (p.Step fun _ _ _ => True) disk disk' →
      p.Respects disk disk' := by
  intro h
  have hresp := h reader passwd (reader.call plain passwd (.fchown 3 1000 1000)).2 (by decide)
    (.single ⟨plain, .fchown 3 1000 1000, trivial, rfl⟩)
  have hsame := hresp.other 12 (by decide)
  exact absurd (congrArg Inode.uid hsame) (by decide)

end SC7.Owner
