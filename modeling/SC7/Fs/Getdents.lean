-- SUMMARY: Directory listings (`sys_getdents64`, `vfs_ext4_getdents`): when a sequence of calls lists a directory completely, and when a call stays within its buffers.
import SC7.Base.CString
import SC7.Kernel.Exec
import Mathlib.Data.List.TakeWhile

/-!
# Directory listings

The state of an open directory is the list of the entries that `ext4_dir_entry_next` has still to deliver.
`vfs_ext4_getdents` takes an entry before it knows whether its record fits. A write or a read outside of the
staging buffer is a failure (`none`).

The branch of `sys_getdents64` for the thread directories of procfs, whose entries do not come from ext4, is
not modelled.
-/

namespace SC7.Getdents

open Exec (Str str)

abbrev EINVAL : Int := 22
abbrev NAME_MAX : Nat := 255
abbrev GETDENTS64_BUF_SIZE : Nat := 4 * 4096

abbrev DT_UNKNOWN : UInt8 := 0
abbrev DT_CHR : UInt8 := 2
abbrev DT_DIR : UInt8 := 4
abbrev DT_REG : UInt8 := 8

abbrev EXT4_DE_REG_FILE : UInt8 := 1
abbrev EXT4_DE_DIR : UInt8 := 2
abbrev EXT4_DE_CHRDEV : UInt8 := 3

/-- `ext4_direntry`, with the `name_length` first bytes of its name. -/
structure Direntry where
  inode : UInt32
  inodeType : UInt8
  name : Str
  /-- `name_length` is a `uint8_t`. -/
  nameLength : name.length ≤ 255

/-- An open directory and the process that reads it. -/
structure Dir where
  path : Str
  path_ends : 0 ∉ path
  cwd : Str
  entries : List Direntry

/-- The buffer of a call: its length as it is passed, and how many bytes can be written there before the first
page that is not mapped. -/
structure Buffer where
  len : Int
  mapped : Nat

/-- What a call returns, and the bytes that it writes to the user. -/
structure Answer where
  value : Int
  copied : List UInt8

/-! ## The code -/

def nameLen (rentry : Direntry) : Nat :=
  if rentry.name.length > NAME_MAX then NAME_MAX else rentry.name.length

/-- The string in `temp_name`. -/
def tempName (rentry : Direntry) : Str := (rentry.name.take (nameLen rentry)).takeWhile (· ≠ 0)

/-- `(offsetof(struct linux_dirent64, d_name) + namelen + 1 + 7) & ~7`. -/
def reclen (namelen : Nat) : Nat := (19 + namelen + 1 + 7) / 8 * 8

def dType (inodeType : UInt8) : UInt8 :=
  if inodeType = EXT4_DE_DIR then DT_DIR
  else if inodeType = EXT4_DE_REG_FILE then DT_REG
  else if inodeType = EXT4_DE_CHRDEV then DT_CHR
  else DT_UNKNOWN

def dIno (cwd : Str) (rentry : Direntry) : Nat :=
  if (CString.strcmp cwd 0 (str "/glibc/ltp/testcases/bin") = some 0 ∨
      CString.strcmp cwd 0 (str "/musl/ltp/testcases/bin") = some 0) ∧
      CString.strcmp (tempName rentry) 0 (str "tmpfile") ≠ some 0 then 0
  else rentry.inode.toNat

/-- The bytes of a record; what is not written is as `memset` left it. -/
def record (cwd : Str) (totlen : Nat) (rentry : Direntry) : List UInt8 :=
  Blocks.leBytes 8 (dIno cwd rentry) ++ Blocks.leBytes 8 (totlen + reclen (nameLen rentry)) ++
  Blocks.leBytes 2 (reclen (nameLen rentry)) ++ [dType rentry.inodeType] ++
  rentry.name.take (nameLen rentry) ++ [0] ++
  List.replicate (reclen (nameLen rentry) - (19 + nameLen rentry + 1)) 0

/-- The loop of `vfs_ext4_getdents`; `out` is what the staging buffer is filled with. -/
def getdentsLoop (cwd : Str) (count : Int) : List Direntry → List UInt8 → Option (List Direntry × List UInt8)
  | [], out => some ([], out)
  | rentry :: rest, out =>
    if CString.strncmp (tempName rentry) 0 (str ".tmp_") 5 = some 0 then getdentsLoop cwd count rest out
    -- the entry has been taken, and is dropped if its record does not fit
    else if ((out.length + reclen (nameLen rentry) : Nat) : Int) > count then some (rest, out)
    else if out.length + (19 + nameLen rentry + 1) > GETDENTS64_BUF_SIZE then none
    else getdentsLoop cwd count rest (out ++ record cwd out.length rentry)

/-- `vfs_ext4_getdents`: the return value, the entries that are left, and what the staging buffer is filled with. -/
def vfsExt4Getdents (cwd : Str) (rest : List Direntry) (count : Int) :
    Option (Int × List Direntry × List UInt8) := do
  if count ≤ 0 then return (-EINVAL, rest, [])
  let (rest, out) ← getdentsLoop cwd count rest []
  return (out.length, rest, out)

/-- `copyout` from the staging buffer, with the length as a `uint64`. -/
def copyout (out : List UInt8) (mapped : Nat) (count : Int) : Option (List UInt8) :=
  let n := min (count % 2 ^ 64).toNat mapped
  if n ≤ GETDENTS64_BUF_SIZE then
    some ((out ++ List.replicate (GETDENTS64_BUF_SIZE - out.length) 0).take n)
  else none

/-- `sys_getdents64`. -/
def sysGetdents64 (d : Dir) (rest : List Direntry) (buf : Buffer) : Option (Answer × List Direntry) := do
  if CString.strcmp d.path 0 (str "/proc") = some 0 then return (⟨0, []⟩, rest)
  let (count, rest, out) ← vfsExt4Getdents d.cwd rest buf.len
  let copied ← copyout out buf.mapped count
  return (⟨count, copied⟩, rest)

/-! ## Listings -/

/-- The name begins with `.tmp_`. -/
def Hidden (e : Direntry) : Prop := str ".tmp_" <+: e.name

instance (e : Direntry) : Decidable (Hidden e) := inferInstanceAs (Decidable (_ <+: _))

/-- The entries that a listing has to show. -/
def visible (es : List Direntry) : List Direntry := es.filter (¬Hidden ·)

/-- The bytes that their records take. -/
def total (es : List Direntry) : Nat := (es.map fun e => reclen e.name.length).sum

/-- A record for a name: it has its own length in `d_reclen`, and the name with a terminator behind the fixed part. -/
structure WellFormed (r : List UInt8) (name : Str) : Prop where
  size : r.length = reclen name.length
  dReclen : Blocks.leRead (r.getD · 0) 2 16 = r.length
  dName : name ++ [0] <+: r.drop 19

/-- One well-formed record after the other, for each of the names. -/
def Listing (bytes : List UInt8) (names : List Str) : Prop :=
  ∃ rs : List (List UInt8), bytes = rs.flatten ∧ List.Forall₂ WellFormed rs names

/-- Successive calls, from the first one on. -/
inductive Run (d : Dir) (bufs : Nat → Buffer) : List Direntry → List Answer → Prop where
  | start : Run d bufs d.entries []
  | call {rest rest' : List Direntry} {answers : List Answer} {answer : Answer} : Run d bufs rest answers →
      sysGetdents64 d rest (bufs answers.length) = some (answer, rest') → Run d bufs rest' (answers ++ [answer])

/-- The records that are returned up to the first 0 are those of the directory. -/
def Lists (d : Dir) (bufs : Nat → Buffer) : Prop :=
  ∃ rest answers copied rest', Run d bufs rest answers ∧ (∀ a ∈ answers, 0 < a.value) ∧
    sysGetdents64 d rest (bufs answers.length) = some (⟨0, copied⟩, rest') ∧
    Listing (answers.flatMap (·.copied)) ((visible d.entries).map (·.name))

/-- A call stays within the staging buffer, and writes no more than `len` bytes to the user. -/
def SafeCall (d : Dir) (rest : List Direntry) (buf : Buffer) : Prop :=
  ∃ answer rest', sysGetdents64 d rest buf = some (answer, rest') ∧ answer.copied.length ≤ buf.len.toNat

/-- The largest record fits. -/
def Large (d : Dir) (buf : Buffer) : Prop := ∀ e ∈ visible d.entries, (reclen e.name.length : Int) ≤ buf.len

/-- The directory is listed completely if each buffer is as large as the largest record, and all calls are safe. -/
structure Correct (d : Dir) (bufs : Nat → Buffer) : Prop where
  lists : (∀ i, Large d (bufs i)) → Lists d bufs
  safe : ∀ rest answers, Run d bufs rest answers → SafeCall d rest (bufs answers.length)

/-- What fits the length that the user gives fits the staging buffer, and no length below 1 comes with a buffer that
can be written. -/
def Room (rest : List Direntry) (buf : Buffer) : Prop :=
  (0 < buf.len ∨ buf.mapped = 0) ∧
  ∀ shown, shown <+: visible rest → (total shown : Int) ≤ buf.len → total shown ≤ GETDENTS64_BUF_SIZE

/-- The first call has room for the whole directory. -/
def Whole (d : Dir) (buf : Buffer) : Prop :=
  0 < buf.len ∧ (total (visible d.entries) : Int) ≤ buf.len ∧ total (visible d.entries) ≤ buf.mapped

/-- When a sequence of calls is right. -/
structure Good (d : Dir) (bufs : Nat → Buffer) : Prop where
  whole : (∀ i, Large d (bufs i)) → if d.path = str "/proc" then visible d.entries = [] else Whole d (bufs 0)
  room : d.path ≠ str "/proc" → ∀ rest answers, Run d bufs rest answers → Room rest (bufs answers.length)

variable {d : Dir} {bufs : Nat → Buffer} {buf : Buffer} {rest rest' entries es : List Direntry} {e : Direntry}
  {cwd : Str} {count : Int} {out : List UInt8} {bytes : List UInt8} {names : List Str} {answer : Answer}
  {answers : List Answer}

/-! ## Records -/

theorem nameLen_eq (e : Direntry) : nameLen e = e.name.length := if_neg (Nat.not_lt.mpr e.nameLength)

@[simp]
theorem length_record (cwd : Str) (totlen : Nat) (e : Direntry) :
    (record cwd totlen e).length = reclen e.name.length := by
  unfold record
  simp only [nameLen_eq, List.length_append, Blocks.length_leBytes, List.length_singleton, List.length_take,
    List.length_replicate, min_self, reclen]
  omega

/-- What the loop writes for an entry is a record of its name. -/
theorem record_wellFormed (cwd : Str) (totlen : Nat) (e : Direntry) : WellFormed (record cwd totlen e) e.name := by
  have hsize := length_record cwd totlen e
  refine ⟨hsize, ?_, ?_⟩
  · have hsmall : reclen e.name.length < 256 ^ 2 := by
      have := e.nameLength
      unfold reclen
      omega
    rw [hsize, Blocks.leRead_eq (w := reclen e.name.length), Nat.mod_eq_of_lt hsmall]
    intro i hi
    unfold record
    rw [nameLen_eq]
    simp only [List.append_assoc]
    rw [List.getD_append_right _ _ _ _ (by rw [Blocks.length_leBytes]; omega), Blocks.length_leBytes,
      List.getD_append_right _ _ _ _ (by rw [Blocks.length_leBytes]; omega), Blocks.length_leBytes,
      List.getD_append _ _ _ _ (by rw [Blocks.length_leBytes]; omega)]
    congr 1
    omega
  · have hfixed : (Blocks.leBytes 8 (dIno cwd e) ++ Blocks.leBytes 8 (totlen + reclen e.name.length) ++
        Blocks.leBytes 2 (reclen e.name.length) ++ [dType e.inodeType]).length = 19 := by
      simp only [List.length_append, Blocks.length_leBytes, List.length_singleton]
    unfold record
    rw [nameLen_eq, List.take_length, List.append_assoc _ [0] _, List.append_assoc _ e.name _, List.drop_left' hfixed,
      ← List.append_assoc]
    exact List.prefix_append _ _

/-- The code skips the hidden entries. -/
theorem strncmp_tmp_iff (e : Direntry) : CString.strncmp (tempName e) 0 (str ".tmp_") 5 = some 0 ↔ Hidden e := by
  have hname : tempName e = e.name.takeWhile (· ≠ 0) := by
    rw [tempName, nameLen_eq, List.take_length]
  have hzero : 0 ∉ tempName e := by
    intro hmem
    rw [hname] at hmem
    simpa using List.mem_takeWhile_imp hmem
  obtain ⟨x, hx, hiff⟩ := CString.strncmp_prefix (p := []) (n := 5) (v := str ".tmp_") rfl rfl hzero (by decide) rfl
  rw [List.nil_append, List.length_nil] at hx
  rw [hx, Option.some.injEq, hiff, hname, Hidden]
  constructor
  · exact fun h => h.trans (List.takeWhile_prefix _)
  · rintro ⟨w, hw⟩
    have hnonzero : ∀ c ∈ str ".tmp_", (decide (c ≠ 0)) = true := by
      rw [← List.all_eq_true]
      rfl
    rw [← hw, List.takeWhile_append_of_pos hnonzero]
    exact List.prefix_append _ _

@[simp]
theorem total_nil : total [] = 0 := rfl

@[simp]
theorem total_cons : total (e :: es) = reclen e.name.length + total es := by
  simp [total]

@[simp]
theorem total_append {fs : List Direntry} : total (es ++ fs) = total es + total fs := by
  simp [total]

theorem reclen_pos (n : Nat) : 0 < reclen n := by
  unfold reclen
  omega

theorem visible_hidden (h : Hidden e) : visible (e :: es) = visible es := by simp [visible, h]

theorem visible_shown (h : ¬Hidden e) : visible (e :: es) = e :: visible es := by simp [visible, h]

@[simp]
theorem listing_nil_iff : Listing [] names ↔ names = [] := by
  constructor
  · rintro ⟨rs, hflat, hall⟩
    cases hall with
    | nil => rfl
    | cons hr _ =>
      have hlen := congrArg List.length hflat
      rw [List.flatten_cons, List.length_append, hr.size, List.length_nil] at hlen
      exact absurd (Nat.add_eq_zero_iff.mp hlen.symm).1 (Nat.ne_of_gt (reclen_pos _))
  · rintro rfl
    exact ⟨[], rfl, .nil⟩

/-- A listing of entries has as many bytes as their records. -/
theorem Listing.length_eq (h : Listing bytes (es.map (·.name))) : bytes.length = total es := by
  obtain ⟨rs, rfl, hall⟩ := h
  induction es generalizing rs with
  | nil =>
    cases hall
    rfl
  | cons e es ih =>
    rw [List.map_cons] at hall
    cases hall with
    | cons hr hall =>
      rw [List.flatten_cons, List.length_append, hr.size, ih _ hall, total_cons]

theorem Listing.append {bytes' : List UInt8} {names' : List Str} (h : Listing bytes names) (h' : Listing bytes' names') :
    Listing (bytes ++ bytes') (names ++ names') := by
  obtain ⟨rs, rfl, hall⟩ := h
  obtain ⟨rs', rfl, hall'⟩ := h'
  exact ⟨rs ++ rs', List.flatten_append.symm, List.rel_append hall hall'⟩

theorem listing_record (cwd : Str) (totlen : Nat) (e : Direntry) : Listing (record cwd totlen e) [e.name] :=
  ⟨[_], by simp, .cons (record_wellFormed cwd totlen e) .nil⟩

/-! ## The loop -/

/-- The loop fills the buffer with the records of some entries; it goes to the end, or drops the entry that does
not fit behind them. -/
theorem getdentsLoop_some (h : getdentsLoop cwd count entries out = some (rest, bytes)) :
    ∃ shown written, bytes = out ++ written ∧ Listing written (shown.map (·.name)) ∧
      (shown = [] ∨ ((out.length + total shown : Nat) : Int) ≤ count) ∧
      (rest = [] ∧ visible entries = shown ∨
        ∃ e, visible entries = shown ++ e :: visible rest ∧ count < (out.length + total shown + reclen e.name.length : Nat)) := by
  induction entries generalizing out with
  | nil =>
    cases h
    exact ⟨[], [], (List.append_nil _).symm, listing_nil_iff.mpr rfl, .inl rfl, .inl ⟨rfl, rfl⟩⟩
  | cons e entries ih =>
    unfold getdentsLoop at h
    simp only [strncmp_tmp_iff, nameLen_eq] at h
    by_cases hhid : Hidden e
    · rw [if_pos hhid] at h
      rw [visible_hidden hhid]
      exact ih h
    · rw [if_neg hhid] at h
      rw [visible_shown hhid]
      by_cases hfull : ((out.length + reclen e.name.length : Nat) : Int) > count
      · rw [if_pos hfull] at h
        cases h
        exact ⟨[], [], (List.append_nil _).symm, listing_nil_iff.mpr rfl, .inl rfl, .inr ⟨e, rfl, hfull⟩⟩
      · rw [if_neg hfull] at h
        by_cases hover : out.length + (19 + e.name.length + 1) > GETDENTS64_BUF_SIZE
        · rw [if_pos hover] at h
          cases h
        · rw [if_neg hover] at h
          obtain ⟨shown, written, rfl, hlist, hfit, hend⟩ := ih h
          rw [List.length_append, length_record] at hfit hend
          refine ⟨e :: shown, record cwd out.length e ++ written, List.append_assoc .., ?_, ?_, ?_⟩
          · exact (listing_record cwd out.length e).append hlist
          · right
            rw [total_cons, ← Nat.add_assoc]
            obtain rfl | hfit := hfit
            · rw [total_nil, Nat.add_zero]
              omega
            · exact hfit
          · obtain ⟨hrest, hvis⟩ | ⟨e', hvis, hlt⟩ := hend
            · exact .inl ⟨hrest, by rw [hvis]⟩
            · exact .inr ⟨e', by rw [hvis, List.cons_append], by rw [total_cons, ← Nat.add_assoc]; exact hlt⟩

/-- Too many records with the next one, or behind it. -/
theorem exists_prefix_cons {n : Nat} (hle : n ≤ GETDENTS64_BUF_SIZE) :
    (∃ shown, shown <+: e :: es ∧ ((n + total shown : Nat) : Int) ≤ count ∧ GETDENTS64_BUF_SIZE < n + total shown) ↔
      ∃ shown, shown <+: es ∧ ((n + reclen e.name.length + total shown : Nat) : Int) ≤ count ∧
        GETDENTS64_BUF_SIZE < n + reclen e.name.length + total shown := by
  simp only [List.prefix_cons_iff]
  constructor
  · rintro ⟨shown, rfl | ⟨shown, rfl, hpre⟩, hfit, hlt⟩
    · rw [total_nil] at hlt
      omega
    · rw [total_cons, ← Nat.add_assoc] at hfit hlt
      exact ⟨shown, hpre, hfit, hlt⟩
  · rintro ⟨shown, hpre, hfit, hlt⟩
    refine ⟨e :: shown, .inr ⟨shown, rfl, hpre⟩, ?_⟩
    rw [total_cons, ← Nat.add_assoc]
    exact ⟨hfit, hlt⟩

/-- It leaves the staging buffer exactly if some of the next records fit the length but not the buffer. -/
theorem getdentsLoop_none_iff (hout : 8 ∣ out.length) (hle : out.length ≤ GETDENTS64_BUF_SIZE) :
    getdentsLoop cwd count entries out = none ↔
      ∃ shown, shown <+: visible entries ∧ ((out.length + total shown : Nat) : Int) ≤ count ∧
        GETDENTS64_BUF_SIZE < out.length + total shown := by
  induction entries generalizing out with
  | nil =>
    refine iff_of_false (by simp [getdentsLoop]) ?_
    rintro ⟨shown, hpre, -, hlt⟩
    rw [List.prefix_nil.mp hpre, total_nil] at hlt
    omega
  | cons e entries ih =>
    unfold getdentsLoop
    simp only [strncmp_tmp_iff, nameLen_eq]
    by_cases hhid : Hidden e
    · rw [if_pos hhid, visible_hidden hhid]
      exact ih hout hle
    · rw [if_neg hhid, visible_shown hhid]
      rw [exists_prefix_cons hle]
      by_cases hfull : ((out.length + reclen e.name.length : Nat) : Int) > count
      · rw [if_pos hfull]
        refine iff_of_false (by simp) ?_
        rintro ⟨shown, -, hfit, -⟩
        omega
      · rw [if_neg hfull]
        -- both the buffer and the record end at a multiple of 8
        have hround : out.length + (19 + e.name.length + 1) > GETDENTS64_BUF_SIZE ↔
            out.length + reclen e.name.length > GETDENTS64_BUF_SIZE := by
          unfold reclen GETDENTS64_BUF_SIZE
          omega
        by_cases hover : out.length + (19 + e.name.length + 1) > GETDENTS64_BUF_SIZE
        · rw [if_pos hover]
          refine iff_of_true rfl ⟨[], List.nil_prefix, ?_, ?_⟩
          · rw [total_nil]
            omega
          · rw [total_nil]
            exact hround.mp hover
        · rw [if_neg hover, ih, List.length_append, length_record]
          · rw [List.length_append, length_record]
            refine Nat.dvd_add hout ?_
            exact Dvd.intro_left _ rfl
          · rw [List.length_append, length_record]
            omega

/-- From an empty buffer. -/
theorem getdentsLoop_start_none_iff (cwd : Str) (count : Int) (entries : List Direntry) :
    getdentsLoop cwd count entries [] = none ↔
      ∃ shown, shown <+: visible entries ∧ (total shown : Int) ≤ count ∧ GETDENTS64_BUF_SIZE < total shown := by
  have hout : 8 ∣ ([] : List UInt8).length := Nat.dvd_zero 8
  rw [getdentsLoop_none_iff hout (Nat.zero_le _)]
  simp only [List.length_nil, Nat.zero_add]

/-! ## One call -/

theorem strcmp_proc_iff : CString.strcmp d.path 0 (str "/proc") = some 0 ↔ d.path = str "/proc" := by
  obtain ⟨x, hx, hiff⟩ := CString.strcmp_spec (p := []) (v := str "/proc") rfl rfl d.path_ends (by decide)
  rw [List.nil_append, List.length_nil] at hx
  rw [hx, Option.some.injEq, hiff]

theorem sysGetdents64_proc (h : d.path = str "/proc") : sysGetdents64 d rest buf = some (⟨0, []⟩, rest) := by
  unfold sysGetdents64
  rw [if_pos (strcmp_proc_iff.mpr h)]
  rfl

theorem copyout_filled (mapped : Nat) (h : out.length ≤ GETDENTS64_BUF_SIZE) :
    copyout out mapped out.length = some (out.take mapped) := by
  have hmod : ((out.length : Int) % 2 ^ 64).toNat = out.length := by
    unfold GETDENTS64_BUF_SIZE at h
    omega
  unfold copyout
  simp only [hmod]
  rw [if_pos (by omega), List.take_append_of_le_length (Nat.min_le_left _ _)]
  congr 1
  rw [List.take_eq_take_iff]
  omega

theorem sysGetdents64_invalid (h : d.path ≠ str "/proc") (hlen : buf.len ≤ 0) :
    sysGetdents64 d rest buf = (copyout [] buf.mapped (-EINVAL)).map fun copied => (⟨-EINVAL, copied⟩, rest) := by
  unfold sysGetdents64 vfsExt4Getdents
  rw [if_neg (mt strcmp_proc_iff.mp h), if_pos hlen]
  cases hcopy : copyout [] buf.mapped (-EINVAL) with
  | none => simp [hcopy]
  | some copied => simp [hcopy]

/-- A negative count is a large length for `copyout`. -/
theorem copyout_invalid {mapped : Nat} :
    (∃ copied, copyout [] mapped (-EINVAL) = some copied ∧ copied.length ≤ 0) ↔ mapped = 0 := by
  have hcount : ((-EINVAL) % 2 ^ 64).toNat = 2 ^ 64 - 22 := by decide
  unfold copyout
  simp only [hcount]
  constructor
  · rintro ⟨copied, hcopy, hzero⟩
    split at hcopy
    · rename_i hle
      rw [← Option.some.inj hcopy, List.nil_append, List.length_take, List.length_replicate, List.length_nil] at hzero
      omega
    · cases hcopy
  · rintro rfl
    exact ⟨_, if_pos (by simp), by simp⟩

/-- A call with a positive length, from the loop. -/
theorem sysGetdents64_valid (h : d.path ≠ str "/proc") (hlen : 0 < buf.len) :
    sysGetdents64 d rest buf = (getdentsLoop d.cwd buf.len rest []).map fun result =>
      (⟨result.2.length, result.2.take buf.mapped⟩, result.1) := by
  unfold sysGetdents64 vfsExt4Getdents
  rw [if_neg (mt strcmp_proc_iff.mp h), if_neg (not_le.mpr hlen)]
  cases hloop : getdentsLoop d.cwd buf.len rest [] with
  | none => rfl
  | some result =>
    obtain ⟨rest', bytes⟩ := result
    obtain ⟨shown, written, hbytes, hlist, hfit, hend⟩ := getdentsLoop_some hloop
    rw [List.nil_append] at hbytes
    subst hbytes
    have hstaging : bytes.length ≤ GETDENTS64_BUF_SIZE := by
      by_contra hlong
      have hnone := (getdentsLoop_start_none_iff d.cwd buf.len rest).mpr
      rw [hloop] at hnone
      have hlength := hlist.length_eq
      rw [List.length_nil, Nat.zero_add] at hfit
      refine absurd (hnone ⟨shown, ?_, ?_, ?_⟩) (by simp)
      · obtain ⟨-, hvis⟩ | ⟨e, hvis, -⟩ := hend
        · rw [hvis]
        · rw [hvis]
          exact List.prefix_append _ _
      · obtain rfl | hfit := hfit
        · rw [total_nil] at hlength
          omega
        · exact hfit
      · rw [← hlength]
        omega
    have hcopy := copyout_filled buf.mapped hstaging
    simp [hcopy]

/-- A call is safe exactly if there is room for it. -/
theorem safeCall_iff (h : d.path ≠ str "/proc") : SafeCall d rest buf ↔ Room rest buf := by
  unfold SafeCall Room
  by_cases hlen : 0 < buf.len
  · have hnone := getdentsLoop_start_none_iff d.cwd buf.len rest
    rw [sysGetdents64_valid h hlen]
    constructor
    · rintro ⟨answer, rest', hcall, -⟩
      refine ⟨.inl hlen, fun shown hpre hfit => ?_⟩
      by_contra hlong
      rw [hnone.mpr ⟨shown, hpre, hfit, not_le.mp hlong⟩] at hcall
      cases hcall
    · rintro ⟨-, hroom⟩
      cases hloop : getdentsLoop d.cwd buf.len rest [] with
      | none =>
        obtain ⟨shown, hpre, hfit, hlong⟩ := hnone.mp hloop
        exact absurd (hroom shown hpre hfit) (not_le.mpr hlong)
      | some result =>
        obtain ⟨rest', bytes⟩ := result
        obtain ⟨shown, written, hbytes, hlist, hfit, -⟩ := getdentsLoop_some hloop
        refine ⟨_, _, rfl, ?_⟩
        rw [List.nil_append] at hbytes
        dsimp only
        have hlength := hlist.length_eq
        rw [List.length_take, hbytes, hlength]
        obtain rfl | hfit := hfit
        · rw [total_nil]
          omega
        · rw [List.length_nil, Nat.zero_add] at hfit
          omega
  · rw [not_lt] at hlen
    rw [sysGetdents64_invalid h hlen]
    constructor
    · rintro ⟨answer, rest', hcall, hle⟩
      obtain ⟨copied, hcopy, heq⟩ := Option.map_eq_some_iff.mp hcall
      cases heq
      refine ⟨.inr (copyout_invalid.mp ⟨copied, hcopy, ?_⟩), fun shown _ hfit => ?_⟩
      · rwa [Int.toNat_of_nonpos hlen] at hle
      · omega
    · rintro ⟨hroom, -⟩
      obtain ⟨copied, hcopy, hzero⟩ := copyout_invalid.mpr (hroom.resolve_left (not_lt.mpr hlen))
      exact ⟨_, _, by rw [hcopy]; rfl, hzero.trans (Nat.zero_le _)⟩

/-- What a call does not deliver of the entries that it takes is lost. -/
theorem call_total (h : d.path ≠ str "/proc") (hlen : 0 < buf.len)
    (hcall : sysGetdents64 d rest buf = some (answer, rest')) :
    answer.copied.length + total (visible rest') ≤ total (visible rest) ∧
    ((total (visible rest) : Int) ≤ buf.len ∧ total (visible rest) ≤ buf.mapped ∨
      answer.copied.length + total (visible rest') < total (visible rest)) := by
  rw [sysGetdents64_valid h hlen] at hcall
  obtain ⟨⟨rest', bytes⟩, hloop, heq⟩ := Option.map_eq_some_iff.mp hcall
  cases heq
  dsimp only
  obtain ⟨shown, written, hbytes, hlist, hfit, hend⟩ := getdentsLoop_some hloop
  rw [List.nil_append] at hbytes
  rw [List.length_nil, Nat.zero_add] at hfit hend
  rw [List.length_take, hbytes, hlist.length_eq]
  obtain ⟨hrest, hvis⟩ | ⟨e, hvis, hlt⟩ := hend
  · rw [hrest, hvis, show visible [] = [] from rfl, total_nil]
    obtain rfl | hfit := hfit
    · rw [total_nil]
      omega
    · omega
  · rw [hvis, total_append, total_cons]
    have := reclen_pos e.name.length
    omega

/-! ## Runs -/

section Dense

variable (hpath : d.path ≠ str "/proc")

include hpath

/-- What has been delivered and what is left never grow, and are less than the directory if the first call had no
room for it. -/
theorem Run.total (hrun : Run d bufs rest answers) (hpos : ∀ i < answers.length, 0 < (bufs i).len) :
    answers = [] ∧ rest = d.entries ∨
    (answers.flatMap (·.copied)).length + total (visible rest) ≤ total (visible d.entries) ∧
    (Whole d (bufs 0) ∨ (answers.flatMap (·.copied)).length + total (visible rest) < total (visible d.entries)) := by
  induction hrun with
  | start => exact .inl ⟨rfl, rfl⟩
  | @call rest rest' answers answer hrun hcall ih =>
    rw [List.length_append, List.length_singleton] at hpos
    have hlen := hpos answers.length (Nat.lt_succ_self _)
    obtain ⟨hle, hlt⟩ := call_total hpath hlen hcall
    rw [List.flatMap_append, List.flatMap_singleton, List.length_append]
    right
    obtain ⟨rfl, rfl⟩ | ⟨hle', hlt'⟩ := ih fun i hi => hpos i (Nat.lt_succ_of_lt hi)
    · rw [List.flatMap_nil, List.length_nil, Nat.zero_add]
      exact ⟨hle, hlt.imp_left fun h => ⟨hlen, h⟩⟩
    · exact ⟨by omega, hlt'.imp_right fun h => by omega⟩

/-- A positive return value is for a positive length. -/
theorem len_of_value
    (hcall : sysGetdents64 d rest buf = some (answer, rest')) (hvalue : 0 ≤ answer.value) : 0 < buf.len := by
  by_contra hlen
  rw [sysGetdents64_invalid hpath (not_lt.mp hlen)] at hcall
  obtain ⟨copied, -, heq⟩ := Option.map_eq_some_iff.mp hcall
  cases heq
  exact absurd hvalue (show ¬(0 : Int) ≤ -EINVAL by decide)

theorem Run.positive (hrun : Run d bufs rest answers)
    (hvalues : ∀ a ∈ answers, 0 < a.value) : ∀ i < answers.length, 0 < (bufs i).len := by
  induction hrun with
  | start =>
    intro i hi
    exact absurd hi (Nat.not_lt_zero i)
  | @call rest rest' answers answer hrun hcall ih =>
    intro i hi
    rw [List.length_append, List.length_singleton] at hi
    obtain hi | rfl := Nat.lt_succ_iff_lt_or_eq.mp hi
    · exact ih (fun a ha => hvalues a (List.mem_append_left _ ha)) i hi
    · exact len_of_value hpath hcall (hvalues answer (by simp)).le

/-- A complete listing needs room for all of it in the first call. -/
theorem Lists.whole (h : Lists d bufs) : Whole d (bufs 0) := by
  obtain ⟨rest, answers, copied, rest', hrun, hvalues, hlast, hlist⟩ := h
  have hlength := hlist.length_eq
  obtain ⟨rfl, rfl⟩ | ⟨-, hwhole | hlt⟩ := hrun.total hpath (hrun.positive hpath hvalues)
  · have hlen := len_of_value hpath hlast le_rfl
    rw [List.flatMap_nil, List.length_nil] at hlength
    rw [List.length_nil] at hlen
    exact ⟨hlen, by omega, by omega⟩
  · exact hwhole
  · omega

/-- With this room, the first call lists the directory. -/
theorem Whole.lists (hlarge : ∀ i, Large d (bufs i))
    (hsafe : SafeCall d d.entries (bufs 0)) (h : Whole d (bufs 0)) : Lists d bufs := by
  obtain ⟨hlen, hfit, hmapped⟩ := h
  obtain ⟨answer, rest, hcall, -⟩ := hsafe
  have hmap := hcall
  rw [sysGetdents64_valid hpath hlen] at hmap
  obtain ⟨⟨rest', bytes⟩, hloop, heq⟩ := Option.map_eq_some_iff.mp hmap
  cases heq
  obtain ⟨shown, written, hbytes, hlist, -, ⟨rfl, rfl⟩ | ⟨e, hvis, hlt⟩⟩ := getdentsLoop_some hloop
  · rw [List.nil_append] at hbytes
    subst hbytes
    have hlength := hlist.length_eq
    have htake : bytes.take (bufs 0).mapped = bytes := List.take_of_length_le (by omega)
    rw [htake] at hcall
    cases hvisible : visible d.entries with
    | nil =>
      rw [hvisible, total_nil] at hlength
      refine ⟨_, [], bytes, [], .start, fun a ha => absurd ha List.not_mem_nil, ?_, ?_⟩
      · rw [hlength] at hcall
        exact hcall
      · rw [hvisible]
        exact listing_nil_iff.mpr rfl
    | cons e es =>
      have hpos : 0 < (bufs 1).len := by
        have := hlarge 1 e (by rw [hvisible]; exact List.mem_cons_self)
        have := reclen_pos e.name.length
        omega
      refine ⟨[], [_], [], [], .call .start hcall, ?_, ?_, ?_⟩
      · intro a ha
        rw [List.mem_singleton.mp ha]
        rw [hvisible, total_cons] at hlength
        have := reclen_pos e.name.length
        exact Int.natCast_pos.mpr (show 0 < bytes.length by omega)
      · rw [List.length_singleton, sysGetdents64_valid hpath hpos]
        simp [getdentsLoop]
      · rw [List.flatMap_singleton]
        exact hlist
  · rw [hvis, total_append, total_cons] at hfit
    rw [List.length_nil, Nat.zero_add] at hlt
    omega

end Dense

/-- Below `/proc` nothing is listed. -/
theorem lists_proc_iff (hpath : d.path = str "/proc") : Lists d bufs ↔ visible d.entries = [] := by
  constructor
  · rintro ⟨rest, answers, copied, rest', hrun, hvalues, -, hlist⟩
    cases hrun with
    | start =>
      rw [List.flatMap_nil, listing_nil_iff] at hlist
      exact List.map_eq_nil_iff.mp hlist
    | call _ hcall =>
      rw [sysGetdents64_proc hpath] at hcall
      cases hcall
      exact absurd (hvalues _ (List.mem_append_right _ (List.mem_singleton_self _))) (lt_irrefl 0)
  · intro hnil
    refine ⟨_, [], [], d.entries, .start, fun a ha => absurd ha List.not_mem_nil, sysGetdents64_proc hpath, ?_⟩
    rw [hnil]
    exact listing_nil_iff.mpr rfl

/-- A sequence of calls is right exactly if the first call has room for the whole directory, and all of them stay in
the staging buffer. -/
theorem correct_iff (d : Dir) (bufs : Nat → Buffer) : Correct d bufs ↔ Good d bufs := by
  by_cases hpath : d.path = str "/proc"
  · constructor
    · intro h
      refine ⟨fun hlarge => ?_, fun hne => absurd hpath hne⟩
      rw [if_pos hpath]
      exact (lists_proc_iff hpath).mp (h.lists hlarge)
    · intro h
      refine ⟨fun hlarge => ?_, fun rest answers _ => ⟨_, _, sysGetdents64_proc hpath, Nat.zero_le _⟩⟩
      have := h.whole hlarge
      rw [if_pos hpath] at this
      exact (lists_proc_iff hpath).mpr this
  · constructor
    · intro h
      refine ⟨fun hlarge => ?_, fun _ rest answers hrun => (safeCall_iff hpath).mp (h.safe rest answers hrun)⟩
      rw [if_neg hpath]
      exact (h.lists hlarge).whole hpath
    · intro h
      have hsafe : ∀ rest answers, Run d bufs rest answers → SafeCall d rest (bufs answers.length) :=
        fun rest answers hrun => (safeCall_iff hpath).mpr (h.room hpath rest answers hrun)
      refine ⟨fun hlarge => ?_, hsafe⟩
      have := h.whole hlarge
      rw [if_neg hpath] at this
      exact this.lists hpath hlarge (hsafe _ [] .start)

/-- Two files `a` and `b`, read with room for one record at a time. -/
def twoFiles : Dir where
  path := str "/"
  path_ends := by decide
  cwd := str "/"
  entries := [⟨12, EXT4_DE_REG_FILE, str "a", by decide⟩, ⟨13, EXT4_DE_REG_FILE, str "b", by decide⟩]

/-- The second file is lost. -/
theorem not_correct_twoFiles : ¬Correct twoFiles fun _ => ⟨24, 24⟩ := by
  intro h
  have hlarge : Large twoFiles ⟨24, 24⟩ := by
    unfold Large
    decide
  obtain ⟨-, hfit, -⟩ := (h.lists fun _ => hlarge).whole (by decide)
  exact absurd hfit (by decide)

end SC7.Getdents
