-- SUMMARY: `unlinkat`: its routes to a removal, and which of them ask for the rights on the directory.
import SC7.Fs.Path
import SC7.Kernel.Access

/-!
# `unlinkat`

The path is made absolute, and its prefixes have to be directories. Then there are three routes: a directory goes through
`vfs_ext4_rm`, a file that some process has open is marked as removed, and any other file goes through
`vfs_ext4_unlinkat`. The ext4 library is a parameter: how it finds a path in the tree, and what its two removals do.

The permission on the directory is that of `check_file_access`, or the one of the class of the caller.
-/

namespace SC7.Unlink

open Exec (Str str)
open Path (slash getAbsolutePath)
open Credentials (Cred Perm Request W_OK X_OK checkFileAccess)

abbrev EPERM : Int := 1
abbrev ENOENT : Int := 2
abbrev EBADF : Int := 9
abbrev EACCES : Int := 13
abbrev EFAULT : Int := 14
abbrev ENOTDIR : Int := 20
abbrev EISDIR : Int := 21
abbrev EINVAL : Int := 22
abbrev ENAMETOOLONG : Int := 36

abbrev AT_FDCWD : Int := -100
abbrev AT_REMOVEDIR : UInt32 := 0x200
abbrev NOFILE : Int := 256
abbrev MAXPATH : Nat := 1024
abbrev NAME_MAX : Nat := 255

abbrev S_IFMT : UInt32 := 0o170000
abbrev S_IFLNK : UInt32 := 0o120000
abbrev S_IFREG : UInt32 := 0o100000
abbrev S_IFDIR : UInt32 := 0o40000
abbrev S_ISVTX : UInt32 := 0o1000

/-- A status of the ext4 library that is an error. -/
abbrev Status := { status : Nat // status ≠ 0 }

/-- The ext4 library on trees of type `T`. -/
structure Ext4 (T : Type) where
  /-- `ext4_raw_inode_fill`: owner, group and mode of the inode. -/
  rawInodeFill : T → Str → Except Status Perm
  /-- The name of a mount point is not empty, so there is none for the empty path. -/
  rawInodeFill_nil : ∀ t, rawInodeFill t [] = .error ⟨2, by decide⟩
  vfsRm : T → Str → Int × T
  vfsUnlinkat : T → Str → Str → Int × T

abbrev FileId := Nat

structure OpenFile where
  path : Str
  count : Int
  removed : Bool

structure Proc where
  cred : Cred
  root : Str
  cwd : Str
  ofile : Nat → Option FileId

/-- The tree, and the open files. -/
structure State (T : Type) where
  tree : T
  file : FileId → OpenFile

/-- The arguments; the path is `none` where `access_ok` refuses it. -/
structure Args where
  dirfd : Int
  path : Option Str
  flags : UInt32

variable {T : Type}

/-! ## Paths -/

/-- `strrchr(path, '/')`, as an index. -/
def lastSlash (path : Str) : Option Nat := ((List.range path.length).filter fun i => path[i]? = some slash).getLast?

def getParentPath (path : Str) : Str :=
  match lastSlash path with
  | none => []
  | some 0 => []
  | some (n + 1) => path.take (n + 1)

/-- The directory that `unlinkat` computes for a file. -/
def parentDir (dirpath path : Str) : Str :=
  match lastSlash path with
  | none => dirpath
  | some 0 => [slash]
  | some (n + 1) => path.take (n + 1)

def vfsCheckLen (path : Str) : Int :=
  if path.length ≥ MAXPATH then -ENAMETOOLONG
  else if (path.splitOn slash).any fun name => name.length > NAME_MAX then -ENAMETOOLONG
  else 0

def isDir (mode : UInt32) : Bool := mode &&& S_IFMT = S_IFDIR

section Calls

variable (e : Ext4 T) (pr : Proc) (pool : List FileId) (s : State T)

/-- A status other than `ENOENT` is a panic. -/
def getFiletypeOfPath (t : T) (path : Str) : Option Int :=
  match e.rawInodeFill t path with
  | .error status => if status.val = 2 then some (-ENOENT) else none
  | .ok st =>
    some (if isDir st.mode then 0 else if st.mode &&& S_IFMT = S_IFREG then 1
      else if st.mode &&& S_IFMT = S_IFLNK then 2 else -1)

/-- The loop of `do_path_containFile_or_notExist` over the letters of the path. -/
def checkPrefixes (t : T) (path : Str) : List Nat → Option Int
  | [] => some 0
  | i :: is =>
    if path[i]? = some slash then
      (getFiletypeOfPath e t (path.take i)).bind fun fileType =>
        if fileType = -2 then some (-ENOENT)
        else if fileType ≠ 0 then some (-ENOTDIR)
        else checkPrefixes t path is
    else checkPrefixes t path is

def doPathContainFileOrNotExist (t : T) (path : Str) : Option Int :=
  checkPrefixes e t path (List.range' 1 (path.length - 1))

/-- The path of the directory that the call starts from. -/
def dirPath (dirfd : Int) : Option Str :=
  if dirfd = AT_FDCWD then some pr.cwd
  else if dirfd < 0 ∨ dirfd ≥ NOFILE then none
  else (pr.ofile dirfd.toNat).map fun f => (s.file f).path

/-! ## The call -/

/-- `pool` are the open files of all processes, in the order of their descriptors. -/
def findFile (path : Str) : Option FileId := pool.find? fun f => (s.file f).count > 0 ∧ (s.file f).path = path

def State.remove (f : FileId) : State T :=
  { s with file := Function.update s.file f { s.file f with removed := true } }

/-- A sticky directory gives a file to its own owner and that of the file only. -/
def stickyRefuses (c : Cred) (dir target : Perm) : Bool :=
  dir.mode &&& S_ISVTX ≠ 0 ∧ c.uid.effective ≠ 0 ∧ c.uid.effective ≠ dir.uid ∧ c.uid.effective ≠ target.uid

/-- The route of `AT_REMOVEDIR`. -/
def removeDir (path : Str) : Int × State T :=
  match e.rawInodeFill s.tree (getParentPath path) with
  | .error status => (-(status.val : Int), s)
  | .ok dir =>
    match e.rawInodeFill s.tree path with
    | .error status => (-(status.val : Int), s)
    | .ok target =>
      if checkFileAccess pr.cred dir X_OK = false then (-EACCES, s)
      else if checkFileAccess pr.cred dir W_OK = false then (-EACCES, s)
      else if stickyRefuses pr.cred dir target then (-EPERM, s)
      else if (e.vfsRm s.tree path).1 < 0 then (-ENOENT, { s with tree := (e.vfsRm s.tree path).2 })
      else (0, { s with tree := (e.vfsRm s.tree path).2 })

/-- The two routes of a file. -/
def removeFile (dirpath path : Str) : Int × State T :=
  match findFile pool s path with
  | some f => (0, s.remove f)
  | none =>
    match e.rawInodeFill s.tree (parentDir dirpath path) with
    | .error status => (-(status.val : Int), s)
    | .ok dir =>
      if checkFileAccess pr.cred dir W_OK = false then (-EACCES, s)
      else if checkFileAccess pr.cred dir X_OK = false then (-EACCES, s)
      else
        ((e.vfsUnlinkat s.tree (parentDir dirpath path) path).1,
          { s with tree := (e.vfsUnlinkat s.tree (parentDir dirpath path) path).2 })

/-- `sys_unlinkat`. -/
def sysUnlinkat (a : Args) : Option (Int × State T) :=
  if a.flags &&& ~~~AT_REMOVEDIR ≠ 0 then some (-EINVAL, s)
  else
    match a.path with
    | none => some (-EFAULT, s)
    | some buf =>
      match dirPath pr s a.dirfd with
      | none => some (-EBADF, s)
      | some dirpath =>
        (getAbsolutePath pr.root (some buf) dirpath).bind fun path =>
          if buf = [] then some (-ENOENT, s)
          else if vfsCheckLen path < 0 then some (-ENAMETOOLONG, s)
          else
            (doPathContainFileOrNotExist e s.tree path).bind fun check =>
              if check ≠ 0 then some (check, s)
              else if a.flags &&& AT_REMOVEDIR ≠ 0 then some (removeDir e pr s path)
              else
                (getFiletypeOfPath e s.tree path).bind fun fileType =>
                  if fileType = 0 then some (-EISDIR, s) else some (removeFile e pr pool s dirpath path)

end Calls

/-! ## What is asked of `unlinkat` -/

/-- `check_file_access` grants writing and searching. -/
def ByCheck (c : Cred) (dir : Perm) : Prop := checkFileAccess c dir W_OK = true ∧ checkFileAccess c dir X_OK = true

/-- The class of the caller allows both, or the caller is root. -/
def ByClass (c : Cred) (dir : Perm) : Prop :=
  c.uid.effective = 0 ∨ (c.classOf dir).Allows dir.mode ⟨false, true, true⟩

/-- The call gets to the file system with this path. -/
structure Resolves (e : Ext4 T) (pr : Proc) (s : State T) (a : Args) (dirpath path : Str) : Prop where
  flags : a.flags &&& ~~~AT_REMOVEDIR = 0
  absolute : ∃ buf, a.path = some buf ∧ buf ≠ [] ∧ dirPath pr s a.dirfd = some dirpath ∧
    getAbsolutePath pr.root (some buf) dirpath = some path
  length : vfsCheckLen path = 0
  prefixes : doPathContainFileOrNotExist e s.tree path = some 0

/-- A success has the permission on the directory, and under `AT_REMOVEDIR` the target is one too; nothing else has an
effect. -/
structure Contract (may : Perm → Prop) (e : Ext4 T) (pr : Proc) (pool : List FileId) (s : State T) (a : Args) : Prop where
  success : ∀ s', sysUnlinkat e pr pool s a = some (0, s') → ∃ dirpath path dir, Resolves e pr s a dirpath path ∧
    e.rawInodeFill s.tree (parentDir dirpath path) = .ok dir ∧ may dir ∧
    (a.flags &&& AT_REMOVEDIR ≠ 0 → ∃ target, e.rawInodeFill s.tree path = .ok target ∧ isDir target.mode = true)
  failure : ∀ ret s', sysUnlinkat e pr pool s a = some (ret, s') → ret ≠ 0 → s' = s

/-- A removal of the ext4 library comes to pass. -/
structure RmReached (e : Ext4 T) (pr : Proc) (s : State T) (path : Str) (dir target : Perm) : Prop where
  parent : e.rawInodeFill s.tree (getParentPath path) = .ok dir
  found : e.rawInodeFill s.tree path = .ok target
  granted : ByCheck pr.cred dir
  sticky : stickyRefuses pr.cred dir target = false

structure UnlinkReached (e : Ext4 T) (pr : Proc) (pool : List FileId) (s : State T) (dirpath path : Str) (dir : Perm) : Prop where
  closed : findFile pool s path = none
  parent : e.rawInodeFill s.tree (parentDir dirpath path) = .ok dir
  granted : ByCheck pr.cred dir

/-- `AT_REMOVEDIR` comes to `vfs_ext4_rm` with directories only, a file that is open is in a directory that the caller
may write and search, and a removal of the ext4 library that fails changes nothing. -/
structure Fits (may : Perm → Prop) (e : Ext4 T) (pr : Proc) (pool : List FileId) (s : State T) (a : Args) : Prop where
  removeDir : ∀ dirpath path dir target, Resolves e pr s a dirpath path → a.flags &&& AT_REMOVEDIR ≠ 0 →
    RmReached e pr s path dir target →
    (0 ≤ (e.vfsRm s.tree path).1 → isDir target.mode = true) ∧ ((e.vfsRm s.tree path).1 < 0 → (e.vfsRm s.tree path).2 = s.tree)
  opened : ∀ dirpath path fileType, Resolves e pr s a dirpath path → a.flags &&& AT_REMOVEDIR = 0 →
    getFiletypeOfPath e s.tree path = some fileType → fileType ≠ 0 → findFile pool s path ≠ none →
    ∃ dir, e.rawInodeFill s.tree (parentDir dirpath path) = .ok dir ∧ may dir
  unlinked : ∀ dirpath path fileType dir, Resolves e pr s a dirpath path → a.flags &&& AT_REMOVEDIR = 0 →
    getFiletypeOfPath e s.tree path = some fileType → fileType ≠ 0 → UnlinkReached e pr pool s dirpath path dir →
    (e.vfsUnlinkat s.tree (parentDir dirpath path) path).1 ≠ 0 →
    (e.vfsUnlinkat s.tree (parentDir dirpath path) path).2 = s.tree

/-- Where the checks of a removal that succeeds grant, the permission is there. -/
structure Decides (may : Perm → Prop) (e : Ext4 T) (pr : Proc) (pool : List FileId) (s : State T) (a : Args) : Prop where
  removeDir : ∀ dirpath path dir target, Resolves e pr s a dirpath path → a.flags &&& AT_REMOVEDIR ≠ 0 →
    RmReached e pr s path dir target → 0 ≤ (e.vfsRm s.tree path).1 → may dir
  unlinked : ∀ dirpath path fileType dir, Resolves e pr s a dirpath path → a.flags &&& AT_REMOVEDIR = 0 →
    getFiletypeOfPath e s.tree path = some fileType → fileType ≠ 0 → UnlinkReached e pr pool s dirpath path dir →
    (e.vfsUnlinkat s.tree (parentDir dirpath path) path).1 = 0 → may dir

variable {e : Ext4 T} {pr : Proc} {pool : List FileId} {s s' : State T} {a : Args} {may : Perm → Prop} {c : Cred}
  {dirpath dirpath' path path' : Str} {dir target : Perm} {ret : Int} {fileType : Int} {f : FileId}

/-! ## The routes -/

section Routes

/-- A directory that was found has a name. -/
theorem parentDir_eq (h : e.rawInodeFill s.tree (getParentPath path) = .ok dir) :
    parentDir dirpath path = getParentPath path := by
  have hne : getParentPath path ≠ [] := by
    intro hnil
    rw [hnil, e.rawInodeFill_nil] at h
    cases h
  unfold getParentPath parentDir at *
  split at hne
  · exact absurd rfl hne
  · exact absurd rfl hne
  · rfl

theorem removeDir_cases (e : Ext4 T) (pr : Proc) (s : State T) (path : Str) :
    (∃ ret, ret ≠ 0 ∧ removeDir e pr s path = (ret, s)) ∨ ∃ dir target, RmReached e pr s path dir target := by
  unfold removeDir
  cases hparent : e.rawInodeFill s.tree (getParentPath path) with
  | error status => exact .inl ⟨_, by have := status.property; omega, rfl⟩
  | ok dir =>
    cases hfound : e.rawInodeFill s.tree path with
    | error status => exact .inl ⟨_, by have := status.property; omega, rfl⟩
    | ok target =>
      dsimp only
      by_cases hexec : checkFileAccess pr.cred dir X_OK = false
      · exact .inl ⟨_, by decide, if_pos hexec⟩
      rw [if_neg hexec]
      by_cases hwrite : checkFileAccess pr.cred dir W_OK = false
      · exact .inl ⟨_, by decide, if_pos hwrite⟩
      rw [if_neg hwrite]
      cases hsticky : stickyRefuses pr.cred dir target with
      | true => exact .inl ⟨_, by decide, if_pos rfl⟩
      | false =>
        exact .inr ⟨dir, target, hparent, hfound, ⟨eq_true_of_ne_false hwrite, eq_true_of_ne_false hexec⟩, hsticky⟩

theorem RmReached.removeDir_eq (h : RmReached e pr s path dir target) : removeDir e pr s path =
    if (e.vfsRm s.tree path).1 < 0 then (-ENOENT, { s with tree := (e.vfsRm s.tree path).2 })
    else (0, { s with tree := (e.vfsRm s.tree path).2 }) := by
  unfold removeDir
  simp only [h.parent, h.found, h.granted.1, h.granted.2, h.sticky, Bool.true_eq_false, Bool.false_eq_true, if_false]

theorem removeFile_opened (h : findFile pool s path = some f) : removeFile e pr pool s dirpath path = (0, s.remove f) := by
  unfold removeFile
  rw [h]

theorem removeFile_cases (e : Ext4 T) (pr : Proc) (dirpath : Str) (h : findFile pool s path = none) :
    (∃ ret, ret ≠ 0 ∧ removeFile e pr pool s dirpath path = (ret, s)) ∨
      ∃ dir, UnlinkReached e pr pool s dirpath path dir := by
  unfold removeFile
  rw [h]
  dsimp only
  cases hparent : e.rawInodeFill s.tree (parentDir dirpath path) with
  | error status => exact .inl ⟨_, by have := status.property; omega, rfl⟩
  | ok dir =>
    dsimp only
    by_cases hwrite : checkFileAccess pr.cred dir W_OK = false
    · exact .inl ⟨_, by decide, if_pos hwrite⟩
    rw [if_neg hwrite]
    by_cases hexec : checkFileAccess pr.cred dir X_OK = false
    · exact .inl ⟨_, by decide, if_pos hexec⟩
    exact .inr ⟨dir, h, hparent, eq_true_of_ne_false hwrite, eq_true_of_ne_false hexec⟩

theorem UnlinkReached.removeFile_eq (h : UnlinkReached e pr pool s dirpath path dir) :
    removeFile e pr pool s dirpath path = ((e.vfsUnlinkat s.tree (parentDir dirpath path) path).1,
      { s with tree := (e.vfsUnlinkat s.tree (parentDir dirpath path) path).2 }) := by
  unfold removeFile
  simp only [h.closed, h.parent, h.granted.1, h.granted.2, Bool.true_eq_false, if_false]

end Routes

/-! ## The call -/

section Calls

theorem Resolves.unique (h : Resolves e pr s a dirpath path) (h' : Resolves e pr s a dirpath' path') :
    dirpath = dirpath' ∧ path = path' := by
  obtain ⟨buf, hbuf, -, hdir, habs⟩ := h.absolute
  obtain ⟨buf', hbuf', -, hdir', habs'⟩ := h'.absolute
  cases hbuf.symm.trans hbuf'
  cases hdir.symm.trans hdir'
  cases habs.symm.trans habs'
  exact ⟨rfl, rfl⟩

theorem vfsCheckLen_nonneg (h : ¬vfsCheckLen path < 0) : vfsCheckLen path = 0 := by
  unfold vfsCheckLen at *
  split at h
  · exact absurd (by decide) h
  · split at h
    · exact absurd (by decide) h
    · rename_i hlong hname
      rw [if_neg hlong, if_neg hname]

/-- A call is refused without an effect, or takes one of the routes. -/
theorem unlinkat_cases (h : sysUnlinkat e pr pool s a = some (ret, s')) : (ret ≠ 0 ∧ s' = s) ∨
    (∃ dirpath path, Resolves e pr s a dirpath path ∧ a.flags &&& AT_REMOVEDIR ≠ 0 ∧ removeDir e pr s path = (ret, s')) ∨
      ∃ dirpath path fileType, Resolves e pr s a dirpath path ∧ a.flags &&& AT_REMOVEDIR = 0 ∧
        getFiletypeOfPath e s.tree path = some fileType ∧ fileType ≠ 0 ∧ removeFile e pr pool s dirpath path = (ret, s') := by
  unfold sysUnlinkat at h
  split at h
  · cases h
    exact .inl ⟨by decide, rfl⟩
  rename_i hflags
  split at h
  · cases h
    exact .inl ⟨by decide, rfl⟩
  rename_i buf hbuf
  split at h
  · cases h
    exact .inl ⟨by decide, rfl⟩
  rename_i dirpath hdir
  obtain ⟨path, habs, h⟩ := Option.bind_eq_some_iff.mp h
  split at h
  · cases h
    exact .inl ⟨by decide, rfl⟩
  rename_i hempty
  split at h
  · cases h
    exact .inl ⟨by decide, rfl⟩
  rename_i hlength
  obtain ⟨check, hcheck, h⟩ := Option.bind_eq_some_iff.mp h
  split at h
  · rename_i hne
    cases h
    exact .inl ⟨hne, rfl⟩
  rename_i hlegal
  have hresolves : Resolves e pr s a dirpath path :=
    ⟨not_not.mp hflags, ⟨buf, hbuf, hempty, hdir, habs⟩, vfsCheckLen_nonneg hlength, by rw [hcheck, not_not.mp hlegal]⟩
  split at h
  · rename_i hremove
    exact .inr (.inl ⟨dirpath, path, hresolves, hremove, Option.some.inj h⟩)
  · rename_i hremove
    obtain ⟨fileType, htype, h⟩ := Option.bind_eq_some_iff.mp h
    split at h
    · cases h
      exact .inl ⟨by decide, rfl⟩
    · rename_i hfile
      exact .inr (.inr ⟨dirpath, path, fileType, hresolves, not_not.mp hremove, htype, hfile, Option.some.inj h⟩)

theorem Resolves.unlinkat_eq (h : Resolves e pr s a dirpath path) : sysUnlinkat e pr pool s a =
    if a.flags &&& AT_REMOVEDIR ≠ 0 then some (removeDir e pr s path)
    else
      (getFiletypeOfPath e s.tree path).bind fun fileType =>
        if fileType = 0 then some (-EISDIR, s) else some (removeFile e pr pool s dirpath path) := by
  obtain ⟨buf, hbuf, hempty, hdir, habs⟩ := h.absolute
  unfold sysUnlinkat
  rw [if_neg (not_not.mpr h.flags), hbuf]
  dsimp only
  rw [hdir]
  dsimp only
  rw [habs, Option.bind_some, if_neg hempty, if_neg (by rw [h.length]; decide), h.prefixes, Option.bind_some,
    if_neg (not_not.mpr rfl)]

theorem Resolves.unlinkat_dir (h : Resolves e pr s a dirpath path) (hflags : a.flags &&& AT_REMOVEDIR ≠ 0) :
    sysUnlinkat e pr pool s a = some (removeDir e pr s path) := by
  rw [h.unlinkat_eq, if_pos hflags]

theorem Resolves.unlinkat_file (h : Resolves e pr s a dirpath path) (hflags : a.flags &&& AT_REMOVEDIR = 0)
    (htype : getFiletypeOfPath e s.tree path = some fileType) (hfile : fileType ≠ 0) :
    sysUnlinkat e pr pool s a = some (removeFile e pr pool s dirpath path) := by
  rw [h.unlinkat_eq, if_neg (not_not.mpr hflags), htype, Option.bind_some, if_neg hfile]

/-- A success, at the path that the call resolves to. -/
theorem Contract.at (h : Contract may e pr pool s a) (hresolves : Resolves e pr s a dirpath path)
    (hcall : sysUnlinkat e pr pool s a = some (0, s')) : ∃ dir, e.rawInodeFill s.tree (parentDir dirpath path) = .ok dir ∧
      may dir ∧ (a.flags &&& AT_REMOVEDIR ≠ 0 → ∃ target, e.rawInodeFill s.tree path = .ok target ∧ isDir target.mode = true) := by
  obtain ⟨dirpath', path', dir, hresolves', hdir⟩ := h.success s' hcall
  obtain ⟨rfl, rfl⟩ := hresolves.unique hresolves'
  exact ⟨dir, hdir⟩

theorem Contract.fits (h : Contract may e pr pool s a) : Fits may e pr pool s a where
  removeDir dirpath path dir target hresolves hflags hreached := by
    have hcall : sysUnlinkat e pr pool s a = some (removeDir e pr s path) := hresolves.unlinkat_dir hflags
    rw [hreached.removeDir_eq] at hcall
    refine ⟨fun hdone => ?_, fun hfailed => ?_⟩
    · rw [if_neg (Int.not_lt.mpr hdone)] at hcall
      obtain ⟨-, -, -, htarget⟩ := h.at hresolves hcall
      obtain ⟨target', hfound, hdir⟩ := htarget hflags
      cases hfound.symm.trans hreached.found
      exact hdir
    · rw [if_pos hfailed] at hcall
      exact congrArg State.tree (h.failure _ _ hcall (by decide))
  opened dirpath path fileType hresolves hflags htype hfile hopen := by
    obtain ⟨f, hf⟩ := Option.ne_none_iff_exists'.mp hopen
    have hcall : sysUnlinkat e pr pool s a = some (removeFile e pr pool s dirpath path) :=
      hresolves.unlinkat_file hflags htype hfile
    rw [removeFile_opened hf] at hcall
    obtain ⟨dir, hdir, hmay, -⟩ := h.at hresolves hcall
    exact ⟨dir, hdir, hmay⟩
  unlinked dirpath path fileType dir hresolves hflags htype hfile hreached hfailed := by
    have hcall : sysUnlinkat e pr pool s a = some (removeFile e pr pool s dirpath path) :=
      hresolves.unlinkat_file hflags htype hfile
    rw [hreached.removeFile_eq] at hcall
    exact congrArg State.tree (h.failure _ _ hcall hfailed)

theorem Contract.decides (h : Contract may e pr pool s a) : Decides may e pr pool s a where
  removeDir dirpath path dir target hresolves hflags hreached hdone := by
    have hcall : sysUnlinkat e pr pool s a = some (removeDir e pr s path) := hresolves.unlinkat_dir hflags
    rw [hreached.removeDir_eq, if_neg (Int.not_lt.mpr hdone)] at hcall
    obtain ⟨dir', hdir, hmay, -⟩ := h.at hresolves hcall
    rw [parentDir_eq hreached.parent] at hdir
    cases hdir.symm.trans hreached.parent
    exact hmay
  unlinked dirpath path fileType dir hresolves hflags htype hfile hreached hdone := by
    have hcall : sysUnlinkat e pr pool s a = some (removeFile e pr pool s dirpath path) :=
      hresolves.unlinkat_file hflags htype hfile
    rw [hreached.removeFile_eq, hdone] at hcall
    obtain ⟨dir', hdir, hmay, -⟩ := h.at hresolves hcall
    cases hdir.symm.trans hreached.parent
    exact hmay

theorem contract_of_fits (h : Fits may e pr pool s a) (hdecides : Decides may e pr pool s a) : Contract may e pr pool s a where
  success s' hcall := by
    rcases unlinkat_cases hcall with ⟨hne, -⟩ | ⟨dirpath, path, hresolves, hflags, hroute⟩ |
      ⟨dirpath, path, fileType, hresolves, hflags, htype, hfile, hroute⟩
    · exact absurd rfl hne
    · rcases removeDir_cases e pr s path with ⟨ret, hne, hrefused⟩ | ⟨dir, target, hreached⟩
      · exact absurd (Prod.mk.inj (hrefused.symm.trans hroute)).1 hne
      · rw [hreached.removeDir_eq] at hroute
        have hdone : 0 ≤ (e.vfsRm s.tree path).1 := by
          by_contra hfailed
          rw [if_pos (Int.not_le.mp hfailed)] at hroute
          exact absurd (Prod.mk.inj hroute).1 (by decide)
        refine ⟨dirpath, path, dir, hresolves, ?_, hdecides.removeDir _ _ _ _ hresolves hflags hreached hdone, fun _ => ?_⟩
        · rw [parentDir_eq hreached.parent]
          exact hreached.parent
        · exact ⟨target, hreached.found, (h.removeDir _ _ _ _ hresolves hflags hreached).1 hdone⟩
    · cases hopen : findFile pool s path with
      | some f =>
        obtain ⟨dir, hdir, hmay⟩ := h.opened _ _ _ hresolves hflags htype hfile (by rw [hopen]; nofun)
        exact ⟨dirpath, path, dir, hresolves, hdir, hmay, fun hne => absurd hflags hne⟩
      | none =>
        rcases removeFile_cases e pr dirpath hopen with ⟨ret, hne, hrefused⟩ | ⟨dir, hreached⟩
        · exact absurd (Prod.mk.inj (hrefused.symm.trans hroute)).1 hne
        · rw [hreached.removeFile_eq] at hroute
          have hmay := hdecides.unlinked _ _ _ _ hresolves hflags htype hfile hreached (Prod.mk.inj hroute).1
          exact ⟨dirpath, path, dir, hresolves, hreached.parent, hmay, fun hne => absurd hflags hne⟩
  failure ret s' hcall hret := by
    rcases unlinkat_cases hcall with ⟨-, hsame⟩ | ⟨dirpath, path, hresolves, hflags, hroute⟩ |
      ⟨dirpath, path, fileType, hresolves, hflags, htype, hfile, hroute⟩
    · exact hsame
    · rcases removeDir_cases e pr s path with ⟨ret', -, hrefused⟩ | ⟨dir, target, hreached⟩
      · exact (Prod.mk.inj (hroute.symm.trans hrefused)).2
      · rw [hreached.removeDir_eq] at hroute
        split at hroute
        · rename_i hfailed
          rw [(h.removeDir _ _ _ _ hresolves hflags hreached).2 hfailed] at hroute
          exact (Prod.mk.inj hroute).2.symm
        · exact absurd (Prod.mk.inj hroute).1.symm hret
    · cases hopen : findFile pool s path with
      | some f =>
        rw [removeFile_opened hopen] at hroute
        exact absurd (Prod.mk.inj hroute).1.symm hret
      | none =>
        rcases removeFile_cases e pr dirpath hopen with ⟨ret', -, hrefused⟩ | ⟨dir, hreached⟩
        · exact (Prod.mk.inj (hroute.symm.trans hrefused)).2
        · rw [hreached.removeFile_eq] at hroute
          obtain ⟨hvalue, hstate⟩ := Prod.mk.inj hroute
          rw [h.unlinked _ _ _ _ hresolves hflags htype hfile hreached (by rw [hvalue]; exact hret)] at hstate
          exact hstate.symm

theorem contract_iff : Contract may e pr pool s a ↔ Fits may e pr pool s a ∧ Decides may e pr pool s a :=
  ⟨fun h => ⟨h.fits, h.decides⟩, fun h => contract_of_fits h.1 h.2⟩

/-- The checks of a removal are those of `check_file_access`. -/
theorem decides_byCheck : Decides (ByCheck pr.cred) e pr pool s a where
  removeDir _ _ _ _ _ _ hreached _ := hreached.granted
  unlinked _ _ _ _ _ _ _ _ hreached _ := hreached.granted

/-- `unlinkat` keeps its contract exactly when it fits, and that for the class of the caller exactly when the checks of its
removals decide for that class as well. -/
theorem unlinkat_contract_iff (e : Ext4 T) (pr : Proc) (pool : List FileId) (s : State T) (a : Args) :
    (Contract (ByCheck pr.cred) e pr pool s a ↔ Fits (ByCheck pr.cred) e pr pool s a) ∧
      (Contract (ByClass pr.cred) e pr pool s a ↔
        Fits (ByClass pr.cred) e pr pool s a ∧ Decides (ByClass pr.cred) e pr pool s a) :=
  ⟨contract_iff.trans (and_iff_left decides_byCheck), contract_iff⟩

/-- The file `/a` in a directory of root. -/
def oneFile : Ext4 Unit where
  rawInodeFill _ path :=
    if path = [slash] then .ok ⟨0, 0, 0o40755⟩ else if path = str "/a" then .ok ⟨0, 0, 0o100644⟩ else .error ⟨2, by decide⟩
  rawInodeFill_nil _ := rfl
  vfsRm t _ := (0, t)
  vfsUnlinkat t _ _ := (0, t)

/-- A user without privilege. -/
def user : Proc := ⟨⟨⟨1000, 1000, 1000⟩, ⟨1000, 1000, 1000⟩, fun _ => 0, 0⟩, [slash], [slash], fun _ => none⟩

/-- The user unlinks `/a`, which somebody has open. -/
theorem not_contract_opened : ¬∀ (T : Type) e pr pool (s : State T) a, Contract (ByCheck pr.cred) e pr pool s a := by
  intro h
  have hresolves : Resolves oneFile user ⟨(), fun _ => ⟨str "/a", 1, false⟩⟩ ⟨AT_FDCWD, some (str "/a"), 0⟩ [slash] (str "/a") :=
    ⟨by decide, ⟨str "/a", rfl, by decide, rfl, by decide⟩, by decide, by decide⟩
  obtain ⟨dir, hdir, hmay⟩ := (h Unit oneFile user [0] _ _).fits.opened _ _ 1 hresolves rfl (by decide) (by decide) (by decide)
  cases hdir
  exact absurd hmay.1 (by decide)

end Calls

end SC7.Unlink
