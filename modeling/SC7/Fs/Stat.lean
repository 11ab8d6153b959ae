-- SUMMARY: The three functions of `vfs_ext4.c` that report the metadata of a file, what they report alike, and what they never do.
import Mathlib.Algebra.Group.Nat.Defs

/-!
# stat, fstat and statx

`vfs_ext4_stat`, `vfs_ext4_fstat` and `vfs_ext4_statx` read the inode and the superblock of a path and
translate the fields of the inode one by one. Each computes the block size and the number of blocks in a way
of its own. A division by zero is `none`.
-/

namespace SC7.Stat

abbrev ENOENT : Int := 2
abbrev EOK : Int := 0

abbrev EXT4_SUPERBLOCK_OS_HURD : UInt32 := 1
abbrev EXT4_INODE_MODE_CHARDEV : UInt32 := 0x2000
abbrev EXT4_INODE_MODE_BLOCKDEV : UInt32 := 0x6000
abbrev EXT4_INODE_MODE_TYPE_MASK : UInt32 := 0xF000

abbrev STATX_TYPE : UInt32 := 0x0001
abbrev STATX_MODE : UInt32 := 0x0002
abbrev STATX_NLINK : UInt32 := 0x0004
abbrev STATX_UID : UInt32 := 0x0008
abbrev STATX_GID : UInt32 := 0x0010
abbrev STATX_ATIME : UInt32 := 0x0020
abbrev STATX_MTIME : UInt32 := 0x0040
abbrev STATX_CTIME : UInt32 := 0x0080
abbrev STATX_INO : UInt32 := 0x0100
abbrev STATX_SIZE : UInt32 := 0x0200
abbrev STATX_BLOCKS : UInt32 := 0x0400
abbrev STATX_BASIC_STATS : UInt32 := 0x07ff
abbrev STATX_RDEV : UInt32 := 0x4000

/-- The fields of `struct ext4_inode` that are read; `modeHigh` is the one of the Hurd. -/
structure Inode where
  mode : UInt16
  uid : UInt16
  sizeLo : UInt32
  accessTime : UInt32
  changeInodeTime : UInt32
  modificationTime : UInt32
  gid : UInt16
  linksCount : UInt16
  blocksCountLo : UInt32
  blocks : Fin 15 → UInt32
  sizeHi : UInt32
  modeHigh : UInt16
  ctimeExtra : UInt32
  mtimeExtra : UInt32
  atimeExtra : UInt32

/-- The fields of `struct ext4_sblock` that are read. -/
structure Sblock where
  creatorOs : UInt32
  logBlockSize : UInt32

/-- What the ext4 library finds for a path: the superblock of its mount point, and its inode with its number
or a status. -/
structure Lookup where
  mount : Option Sblock
  file : Except Int (UInt32 × Inode)

/-- `struct kstat`. -/
structure Kstat where
  dev : UInt64
  ino : UInt64
  mode : UInt32
  nlink : UInt32
  uid : UInt32
  gid : UInt32
  rdev : UInt64
  size : UInt64
  blksize : UInt32
  blocks : UInt64
  atimeSec : UInt64
  atimeNsec : UInt64
  mtimeSec : UInt64
  mtimeNsec : UInt64
  ctimeSec : UInt64
  ctimeNsec : UInt64

/-- A time of `struct statx`. -/
structure Timestamp where
  sec : UInt64
  nsec : UInt32

/-- `struct statx`, without `stx_attributes`, which nobody sets. -/
structure Statx where
  mask : UInt32
  blksize : UInt32
  nlink : UInt32
  uid : UInt32
  gid : UInt32
  mode : UInt16
  ino : UInt64
  size : UInt64
  blocks : UInt64
  atime : Timestamp
  btime : Timestamp
  ctime : Timestamp
  mtime : Timestamp
  rdevMajor : UInt32
  rdevMinor : UInt32
  devMajor : UInt32
  devMinor : UInt32

/-! ## The ext4 library -/

namespace Lookup

/-- `ext4_raw_inode_fill`. -/
def rawInodeFill (l : Lookup) : Except Int (UInt32 × Inode) :=
  match l.mount with
  | none => .error ENOENT
  | some _ => l.file

/-- `ext4_get_sblock`. -/
def getSblock (l : Lookup) : Except Int Sblock :=
  match l.mount with
  | none => .error ENOENT
  | some sb => .ok sb

/-- `ext4_mount_point_stats`, of which the block size is read. -/
def mountPointStats (l : Lookup) : Except Int UInt32 :=
  match l.mount with
  | none => .error ENOENT
  | some sb => .ok (1024 <<< sb.logBlockSize)

end Lookup

namespace Inode

/-- `ext4_inode_get_mode`. -/
def getMode (sb : Sblock) (inode : Inode) : UInt32 :=
  if sb.creatorOs = EXT4_SUPERBLOCK_OS_HURD then inode.mode.toUInt32 ||| inode.modeHigh.toUInt32 <<< 16
  else inode.mode.toUInt32

/-- `ext4_inode_get_dev`. -/
def getDev (inode : Inode) : UInt32 := if inode.blocks 0 ≠ 0 then inode.blocks 0 else inode.blocks 1

/-- `ext4_inode_get_access_time` and its siblings. -/
def time (seconds extra : UInt32) : UInt64 := seconds.toUInt64 ||| (extra.toUInt64 &&& 0x3) <<< 32

/-- The nanoseconds in an extra time. -/
def nsec (extra : UInt32) : UInt32 := extra >>> 2 &&& 0x3FFFFFFF

/-- The file size, of which the inode has two halves. -/
def fullSize (inode : Inode) : Nat := inode.sizeLo.toNat + 2 ^ 32 * inode.sizeHi.toNat

end Inode

/-- A division of the kernel. -/
def div32 (a b : UInt32) : Option UInt32 := if b = 0 then none else some (a / b)

def div64 (a b : UInt64) : Option UInt64 := if b = 0 then none else some (a / b)

/-! ## The three functions -/

/-- The assignments that `vfs_ext4_stat` and `vfs_ext4_fstat` have in common. -/
def fillCommon (sb : Sblock) (ino : UInt32) (inode : Inode) (st : Kstat) : Kstat :=
  { st with
    dev := 0
    ino := ino.toUInt64
    mode := inode.getMode sb
    nlink := inode.linksCount.toUInt32
    uid := inode.uid.toUInt32
    gid := inode.gid.toUInt32
    rdev := inode.getDev.toUInt64
    size := inode.sizeLo.toUInt64
    atimeSec := Inode.time inode.accessTime inode.atimeExtra
    atimeNsec := (Inode.nsec inode.atimeExtra).toUInt64
    mtimeSec := Inode.time inode.modificationTime inode.mtimeExtra
    mtimeNsec := (Inode.nsec inode.mtimeExtra).toUInt64
    ctimeSec := Inode.time inode.changeInodeTime inode.ctimeExtra
    ctimeNsec := (Inode.nsec inode.ctimeExtra).toUInt64 }

/-- `vfs_ext4_stat(path, st)`. -/
def vfsExt4Stat (l : Lookup) (st : Kstat) : Option (Int × Kstat) :=
  match l.rawInodeFill with
  | .error status => some (-status, st)
  | .ok (ino, inode) =>
    match l.getSblock with
    | .error status => some (-status, st)
    | .ok sb =>
      let st := fillCommon sb ino inode st
      match l.mountPointStats with
      | .error _ => some (0, st)
      | .ok blockSize => do
          let blocks ← div64 (st.size + blockSize.toUInt64) blockSize.toUInt64
          return (0, { st with blksize := blockSize, blocks })

/-- `vfs_ext4_fstat(f, st)`. -/
def vfsExt4Fstat (l : Lookup) (st : Kstat) : Option (Int × Kstat) :=
  match l.rawInodeFill with
  | .error status => some (-status, st)
  | .ok (ino, inode) =>
    match l.getSblock with
    | .error status => some (-status, st)
    | .ok sb => do
        let blksize ← div32 inode.sizeLo inode.blocksCountLo
        return (EOK, { fillCommon sb ino inode st with blksize, blocks := inode.blocksCountLo.toUInt64 })

/-- The mode is one of a device file. -/
def IsDevice (mode : UInt32) : Prop :=
  mode &&& EXT4_INODE_MODE_TYPE_MASK = EXT4_INODE_MODE_CHARDEV ∨
  mode &&& EXT4_INODE_MODE_TYPE_MASK = EXT4_INODE_MODE_BLOCKDEV

instance (mode : UInt32) : Decidable (IsDevice mode) := inferInstanceAs (Decidable (_ ∨ _))

/-- `vfs_ext4_statx(path, st)`; the sum for the blocks is one of 32 bits. -/
def vfsExt4Statx (l : Lookup) (st : Statx) : Option (Int × Statx) :=
  match l.rawInodeFill with
  | .error status => some (-status, st)
  | .ok (ino, inode) =>
    match l.getSblock with
    | .error status => some (-status, st)
    | .ok sb =>
      let mode := inode.getMode sb
      let device := IsDevice mode
      let ctime := ⟨Inode.time inode.changeInodeTime inode.ctimeExtra, Inode.nsec inode.ctimeExtra⟩
      let mask := STATX_TYPE ||| STATX_MODE ||| STATX_NLINK ||| STATX_UID ||| STATX_GID ||| STATX_ATIME |||
        STATX_MTIME ||| STATX_CTIME ||| STATX_INO ||| STATX_SIZE ||| STATX_BLOCKS ||| STATX_BASIC_STATS
      some (EOK,
        { st with
          rdevMajor := if device then inode.blocks 0 >>> 8 &&& 0xFF else 0
          rdevMinor := if device then inode.blocks 0 &&& 0xFF else 0
          devMajor := 0
          devMinor := 0
          ino := ino.toUInt64
          mode := mode.toUInt16
          nlink := inode.linksCount.toUInt32
          uid := inode.uid.toUInt32
          gid := inode.gid.toUInt32
          size := inode.sizeLo.toUInt64
          blksize := 512
          blocks := if inode.blocksCountLo > 0 then ((inode.sizeLo + 511) / 512).toUInt64 else 0
          atime := ⟨Inode.time inode.accessTime inode.atimeExtra, Inode.nsec inode.atimeExtra⟩
          ctime
          mtime := ⟨Inode.time inode.modificationTime inode.mtimeExtra, Inode.nsec inode.mtimeExtra⟩
          btime := ctime
          mask := if device then mask ||| STATX_RDEV else mask })

/-! ## Agreement -/

/-- What the three structures report of the same name. -/
structure Same (s f : Kstat) (x : Statx) : Prop where
  size : s.size = f.size ∧ s.size = x.size
  blocks : s.blocks = f.blocks ∧ s.blocks = x.blocks
  blksize : s.blksize = f.blksize ∧ s.blksize = x.blksize
  mode : s.mode = f.mode ∧ s.mode = x.mode.toUInt32
  uid : s.uid = f.uid ∧ s.uid = x.uid
  gid : s.gid = f.gid ∧ s.gid = x.gid
  nlink : s.nlink = f.nlink ∧ s.nlink = x.nlink
  ino : s.ino = f.ino ∧ s.ino = x.ino

/-- A path that is found. -/
def Lookup.found (sb : Sblock) (ino : UInt32) (inode : Inode) : Lookup := ⟨some sb, .ok (ino, inode)⟩

/-- The three functions return, whatever the structures held, report the same, and report the full size. -/
def Agree (sb : Sblock) (ino : UInt32) (inode : Inode) (st₁ st₂ : Kstat) (st₃ : Statx) : Prop :=
  ∃ s f x, vfsExt4Stat (.found sb ino inode) st₁ = some (0, s) ∧
    vfsExt4Fstat (.found sb ino inode) st₂ = some (0, f) ∧
    vfsExt4Statx (.found sb ino inode) st₃ = some (0, x) ∧
    Same s f x ∧ s.size.toNat = inode.fullSize

variable {sb : Sblock} {ino : UInt32} {inode : Inode} {st₁ st₂ s f : Kstat} {st₃ x : Statx}

/-- Where `vfs_ext4_stat` returns, the block size of the file system is not zero. -/
theorem stat_found (h : vfsExt4Stat (.found sb ino inode) st₁ = some (0, s)) :
    s = { fillCommon sb ino inode st₁ with
      blksize := 1024 <<< sb.logBlockSize
      blocks := (inode.sizeLo.toUInt64 + (1024 <<< sb.logBlockSize : UInt32).toUInt64) /
        (1024 <<< sb.logBlockSize : UInt32).toUInt64 } := by
  unfold vfsExt4Stat Lookup.found at h
  simp only [Lookup.rawInodeFill, Lookup.getSblock, Lookup.mountPointStats, div64] at h
  split at h
  · cases h
  · cases h
    rfl

/-- Where `vfs_ext4_fstat` returns, the inode has blocks. -/
theorem fstat_found (h : vfsExt4Fstat (.found sb ino inode) st₂ = some (0, f)) :
    inode.blocksCountLo ≠ 0 ∧ f = { fillCommon sb ino inode st₂ with
      blksize := inode.sizeLo / inode.blocksCountLo
      blocks := inode.blocksCountLo.toUInt64 } := by
  unfold vfsExt4Fstat Lookup.found at h
  simp only [Lookup.rawInodeFill, Lookup.getSblock, div32] at h
  split at h
  · cases h
  · cases h
    exact ⟨‹_›, rfl⟩

/-- It divides by zero exactly for an inode without blocks. -/
theorem fstat_eq_none_iff : vfsExt4Fstat (.found sb ino inode) st₂ = none ↔ inode.blocksCountLo = 0 := by
  unfold vfsExt4Fstat Lookup.found
  simp only [Lookup.rawInodeFill, Lookup.getSblock, div32]
  split
  · exact iff_of_true rfl ‹_›
  · exact iff_of_false (fun h => by cases h) ‹_›

/-- `vfs_ext4_statx` always returns. -/
theorem statx_found (h : vfsExt4Statx (.found sb ino inode) st₃ = some (0, x)) :
    x.ino = ino.toUInt64 ∧ x.mode = (inode.getMode sb).toUInt16 ∧ x.nlink = inode.linksCount.toUInt32 ∧
      x.uid = inode.uid.toUInt32 ∧ x.gid = inode.gid.toUInt32 ∧ x.size = inode.sizeLo.toUInt64 ∧ x.blksize = 512 := by
  unfold vfsExt4Statx Lookup.found at h
  simp only [Lookup.rawInodeFill, Lookup.getSblock, Option.some.injEq, Prod.mk.injEq] at h
  obtain ⟨-, rfl⟩ := h
  exact ⟨rfl, rfl, rfl, rfl, rfl, rfl, rfl⟩

/-- The attributes that are copied from the inode are the same, but for the mode, of which `struct statx` has
16 bits. -/
theorem attributes_same (hs : vfsExt4Stat (.found sb ino inode) st₁ = some (0, s))
    (hf : vfsExt4Fstat (.found sb ino inode) st₂ = some (0, f)) (hx : vfsExt4Statx (.found sb ino inode) st₃ = some (0, x)) :
    (s.size = f.size ∧ s.size = x.size) ∧ (s.mode = f.mode ∧ s.mode.toUInt16 = x.mode) ∧
      (s.uid = f.uid ∧ s.uid = x.uid) ∧ (s.gid = f.gid ∧ s.gid = x.gid) ∧
      (s.nlink = f.nlink ∧ s.nlink = x.nlink) ∧ s.ino = f.ino ∧ s.ino = x.ino := by
  cases stat_found hs
  cases (fstat_found hf).2
  simp [statx_found hx, fillCommon]

/-- The size that is reported is the full one of a file below 4 GiB. -/
theorem size_full_iff (hs : vfsExt4Stat (.found sb ino inode) st₁ = some (0, s)) :
    s.size.toNat = inode.fullSize ↔ inode.sizeHi = 0 := by
  cases stat_found hs
  rw [Inode.fullSize, ← UInt32.toNat_inj, fillCommon, UInt32.toNat_toUInt64, UInt32.toNat_zero]
  omega

/-- No block size satisfies both `vfs_ext4_fstat`, for which it is the number of bytes in one of the blocks of
the inode, and `vfs_ext4_stat`, which counts one block more than the bytes fill. -/
theorem blocks_differ {size blocks : Nat} (hblksize : size / blocks = 512) : (size + 512) / 512 ≠ blocks := by
  intro hblocks
  have hpos : 0 < blocks := by omega
  have hle : 512 * blocks ≤ size := by
    rw [← hblksize]
    exact Nat.div_mul_le_self size blocks
  omega

/-- The three functions never agree. -/
theorem not_agree (sb : Sblock) (ino : UInt32) (inode : Inode) (st₁ st₂ : Kstat) (st₃ : Statx) :
    ¬Agree sb ino inode st₁ st₂ st₃ := by
  rintro ⟨s, f, x, hs, hf, hx, hsame, -⟩
  obtain rfl := stat_found hs
  obtain ⟨-, rfl⟩ := fstat_found hf
  obtain ⟨-, -, -, -, -, -, hblksize⟩ := statx_found hx
  have hbs : (1024 <<< sb.logBlockSize : UInt32) = 512 := hsame.blksize.2.trans hblksize
  have hdiv : (1024 <<< sb.logBlockSize : UInt32) = inode.sizeLo / inode.blocksCountLo := hsame.blksize.1
  have hcount : (inode.sizeLo.toUInt64 + (1024 <<< sb.logBlockSize : UInt32).toUInt64) /
      (1024 <<< sb.logBlockSize : UInt32).toUInt64 = inode.blocksCountLo.toUInt64 := hsame.blocks.1
  rw [hbs] at hdiv hcount
  have hlt := inode.sizeLo.toNat_lt
  have hdiv' : inode.sizeLo.toNat / inode.blocksCountLo.toNat = 512 := by
    rw [← UInt32.toNat_div, ← hdiv]
    rfl
  refine blocks_differ hdiv' ?_
  have h512 : (512 : UInt32).toNat = 512 := rfl
  have hnat := congrArg UInt64.toNat hcount
  rw [UInt64.toNat_div, UInt64.toNat_add, UInt32.toNat_toUInt64, UInt32.toNat_toUInt64, UInt32.toNat_toUInt64, h512,
    Nat.mod_eq_of_lt (by omega)] at hnat
  exact hnat

/-- An empty file, for which `vfs_ext4_fstat` divides by zero. -/
def Inode.empty : Inode := ⟨0x81A4, 0, 0, 0, 0, 0, 0, 1, 0, fun _ => 0, 0, 0, 0, 0, 0⟩

def Kstat.zero : Kstat := ⟨0, 0, 0, 0, 0, 0, 0, 0, 0, 0, 0, 0, 0, 0, 0, 0⟩

def Statx.zero : Statx := ⟨0, 0, 0, 0, 0, 0, 0, 0, 0, ⟨0, 0⟩, ⟨0, 0⟩, ⟨0, 0⟩, ⟨0, 0⟩, 0, 0, 0, 0⟩

theorem not_agree_empty : ¬Agree ⟨0, 2⟩ 12 .empty .zero .zero .zero := by
  rintro ⟨s, f, x, -, hf, -⟩
  have hnone : vfsExt4Fstat (.found ⟨0, 2⟩ 12 .empty) .zero = none := fstat_eq_none_iff.mpr rfl
  rw [hnone] at hf
  cases hf

end SC7.Stat
