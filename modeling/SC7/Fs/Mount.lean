-- SUMMARY: The mount table (`fs.c`, `sys_mount`): what the lookup by path finds, and the runs of mounts in which it finds the right file system.
import SC7.Base.Run
import SC7.Fs.Path

/-!
# Mounts

There is one entry for each type of file system. An entry does not hold the mount point but the pointer
that the caller passed: a literal at boot, and always the same static buffer in `sys_mount`. The lookup
cuts the path at its slashes from the end and compares what is left with the entries.

The second half compares this with the mounts that were made. `get_absolute_path` leaves double slashes
inside a path, so a mount point of two components is missed by a path that writes two slashes there, and
only few sequences of mounts have the right answer for every path.
-/

namespace SC7.Mount

open Exec (Str str)
open SC7.Path (slash Resolved getAbsolutePath)
open Components (components)

/-- The types, in the order of the table. -/
inductive FsType where
  | vfat
  | ext4
  deriving DecidableEq, Repr

/-- Where the pointer in an entry leads. -/
inductive PathPtr where
  | literal (s : Str)
  | absPath
  deriving DecidableEq, Repr

/-- An entry; the pointer is null before the first mount. -/
structure Filesystem where
  dev : Nat
  path : Option PathPtr
  deriving DecidableEq, Repr

structure Table where
  /-- The static `abs_path` of `sys_mount`. -/
  absPath : Str
  nextDevId : Nat
  fs : FsType → Filesystem

def ROOTDEV : Nat := 1
def TMPDEV : Nat := 2

namespace Table

variable (k : Table)

def deref : PathPtr → Str
  | .literal s => s
  | .absPath => k.absPath

/-! ## Mounting -/

def fsRegister (dev : Nat) (type : FsType) (path : PathPtr) : Table :=
  { k with fs := Function.update k.fs type ⟨dev, some path⟩ }

/-- The mount operation of the type. The one of ext4 reads the device; the other has nothing to do. -/
def mountOp (type : FsType) (status : Int) : Int :=
  match type with
  | .vfat => 0
  | .ext4 => status

def fsMount (dev : Nat) (type : FsType) (path : PathPtr) (status : Int) : Int × Table :=
  (mountOp type status, k.fsRegister dev type path)

/-- Everything that is not `vfat` is ext4. -/
def typeOf (fstype : Str) : FsType :=
  if fstype = str "ext4" then .ext4 else if fstype = str "vfat" then .vfat else .ext4

/-- `sys_mount`. A string that cannot be copied in is `none`; `data` may be a null pointer. -/
def sysMount (root cwd : Str) (dir fstype : Option Str) (data : Option (Option Str)) (status : Int) :
    Option (Int × Table) :=
  match dir, fstype with
  | some dir, some fstype =>
    if data = some none then some (-1, k)
    else
      (getAbsolutePath root (some dir) cwd).map fun abs =>
        fsMount { k with absPath := abs, nextDevId := k.nextDevId + 1 } k.nextDevId (typeOf fstype)
          .absPath status
  | _, _ => some (-1, k)

/-- The table after `init_fs` and the mount at boot. -/
def boot : Table := fsRegister ⟨[], TMPDEV, fun _ => ⟨0, none⟩⟩ ROOTDEV .ext4 (.literal [slash])

/-! ## Lookup -/

def getFsByMountPoint (mp : Str) : Option FsType :=
  [FsType.vfat, FsType.ext4].find? fun type => (k.fs type).path.map k.deref = some mp

/-- The loop with `pend` at this letter of the string. -/
def searchFrom (s : Str) : Nat → Option FsType
  | 0 => k.getFsByMountPoint [slash]
  | pend + 1 =>
    if s[pend + 1]? = some slash then
      match k.getFsByMountPoint (s.take (pend + 1)) with
      | some fs => some fs
      | none => searchFrom s pend
    else searchFrom s pend

def getFsFromPath (root cwd : Str) (path : Option Str) : Option (Option FsType) :=
  (getAbsolutePath root path cwd).map fun abs => k.searchFrom (abs ++ [slash]) abs.length

/-- The lookup with the device of the file system it found. -/
def found (root cwd : Str) (path : Option Str) : Option (Option (FsType × Nat)) :=
  (k.getFsFromPath root cwd path).map fun r => r.map fun type => (type, (k.fs type).dev)

end Table

variable {k : Table} {root cwd s path q mp c : Str} {type : FsType} {i n dev : Nat}

/-! ## What the search finds -/

section Search

/-- The longest cut that is a mount point wins. -/
theorem searchFrom_of_point (hpos : 0 < i) (hslash : s[i]? = some slash)
    (hpoint : k.getFsByMountPoint (s.take i) = some type) (hle : i ≤ n)
    (hlonger : ∀ j, i < j → j ≤ n → k.getFsByMountPoint (s.take j) = none) : k.searchFrom s n = some type := by
  induction n with
  | zero => omega
  | succ n ih =>
    rw [Table.searchFrom]
    rcases Nat.eq_or_lt_of_le hle with rfl | hlt
    · rw [if_pos hslash, hpoint]
    · have hrest := ih (Nat.le_of_lt_succ hlt) fun j hj hjn => hlonger j hj (Nat.le_succ_of_le hjn)
      split
      · rw [hlonger (n + 1) hlt le_rfl]
        exact hrest
      · exact hrest

/-- Without one the answer is what is mounted at the root. -/
theorem searchFrom_of_none
    (hnone : ∀ j, 0 < j → j ≤ n → s[j]? = some slash → k.getFsByMountPoint (s.take j) = none) :
    k.searchFrom s n = k.getFsByMountPoint [slash] := by
  induction n with
  | zero => rfl
  | succ n ih =>
    have hrest := ih fun j hj hjn => hnone j hj (Nat.le_succ_of_le hjn)
    rw [Table.searchFrom]
    split
    · rename_i hslash
      rw [hnone (n + 1) (Nat.succ_pos n) le_rfl hslash]
      exact hrest
    · exact hrest

/-- If nothing is mounted anywhere else, every path is found at the root. -/
theorem searchFrom_root (hroot : k.getFsByMountPoint [slash] = some type)
    (hother : ∀ mp, mp ≠ [slash] → k.getFsByMountPoint mp = none) : k.searchFrom s n = some type := by
  induction n with
  | zero => exact hroot
  | succ n ih =>
    rw [Table.searchFrom]
    split
    · by_cases hcut : s.take (n + 1) = [slash]
      · rw [hcut, hroot]
      · rw [hother _ hcut]
        exact ih
    · exact ih

end Search

/-! ## The mounts that were made -/

section Records

/-- A mount: the file system and its mount point. -/
structure Record where
  type : FsType
  dev : Nat
  point : Str
  deriving DecidableEq, Repr

/-- The components of the mount point are the first ones of the path. -/
def Record.Covers (r : Record) (q : Str) : Prop := components slash r.point <+: components slash q

instance (r : Record) (q : Str) : Decidable (r.Covers q) := inferInstanceAs (Decidable (_ <+: _))

def Record.depth (r : Record) : Nat := (components slash r.point).length

/-- `r` is the mount that the path belongs to: of the longest mount points that cover it, the one mounted
last. -/
def Answers (history : List Record) (q : Str) (r : Record) : Prop :=
  ∃ before after, history = before ++ r :: after ∧ r.Covers q ∧
    (∀ r' ∈ before, r'.Covers q → r'.depth ≤ r.depth) ∧ ∀ r' ∈ after, r'.Covers q → r'.depth < r.depth

def bootRecord : Record := ⟨.ext4, ROOTDEV, [slash]⟩

/-- The table together with the calls of `sys_mount` that succeeded. -/
structure Sys where
  table : Table
  later : List Record

def Sys.history (s : Sys) : List Record := bootRecord :: s.later

def booted : Sys := ⟨Table.boot, []⟩

/-- A call of `sys_mount` with an absolute path that returns 0. The root of a process comes from
`get_absolute_path` as well. -/
def MountStep (m : Record) (s s' : Sys) : Prop :=
  ∃ root cwd dir fstype data status, Resolved root ∧ dir[0]? = some slash ∧
    s.table.sysMount root cwd (some dir) (some fstype) data status = some (0, s'.table) ∧
    getAbsolutePath root (some dir) cwd = some m.point ∧
    m.type = Table.typeOf fstype ∧ m.dev = s.table.nextDevId ∧ s'.later = s.later ++ [m]

/-- The lookup finds the right file system. -/
def Correct (s : Sys) : Prop :=
  ∀ root cwd path, Resolved root → path[0]? = some slash →
    ∃ q r, getAbsolutePath root (some path) cwd = some q ∧ Answers s.history q r ∧
      s.table.found root cwd (some path) = some (some (r.type, r.dev))

/-- The mounts after which all lookups are right: all are at the root, with no ext4 after a vfat, or all
are vfat at one mount point of one component. -/
def Fits (later : List Record) (m : Record) : Prop :=
  (m.point = [slash] ∧ (∀ r ∈ later, r.point = [slash]) ∧ (m.type = .vfat ∨ ∀ r ∈ later, r.type = .ext4)) ∨
    (m.type = .vfat ∧ (∃ c, c ≠ [] ∧ slash ∉ c ∧ m.point = slash :: c) ∧
      ∀ r ∈ later, r.type = .vfat ∧ r.point = m.point)

def FittingStep (s s' : Sys) : Prop := ∃ m, Fits s.later m ∧ MountStep m s s'

variable {h : List Record} {r r' m : Record}

theorem covers_root (hroot : r.point = [slash]) : r.Covers q := by
  rw [Record.Covers, hroot]
  exact List.nil_prefix

theorem depth_root (hroot : r.point = [slash]) : r.depth = 0 := by
  rw [Record.depth, hroot]
  rfl

/-- All mount points are the root: the last mount answers. -/
theorem answers_last (hall : ∀ r' ∈ h, r'.point = [slash]) (hlast : r.point = [slash]) :
    Answers (h ++ [r]) q r := by
  refine ⟨h, [], rfl, covers_root hlast, fun r' hr' _ => ?_, by simp⟩
  rw [depth_root (hall r' hr'), depth_root hlast]

/-- There is at most one answer. -/
theorem Answers.unique (hr : Answers h q r) (hr' : Answers h q r') : r = r' := by
  obtain ⟨before, after, hsplit, hcovers, hbefore, hafter⟩ := hr
  obtain ⟨before', after', hsplit', hcovers', hbefore', hafter'⟩ := hr'
  rw [hsplit] at hsplit'
  rcases List.append_eq_append_iff.mp hsplit' with ⟨l, hl, hl'⟩ | ⟨l, hl, hl'⟩
  · cases l with
    | nil => exact (List.cons_eq_cons.mp hl').1
    | cons a l =>
      obtain ⟨rfl, htail⟩ := List.cons_eq_cons.mp hl'
      have hless := hafter r' (by rw [htail]; simp) hcovers'
      have hmore := hbefore' r (by rw [hl]; simp) hcovers
      omega
  · cases l with
    | nil => exact (List.cons_eq_cons.mp hl').1.symm
    | cons a l =>
      obtain ⟨rfl, htail⟩ := List.cons_eq_cons.mp hl'
      have hless := hafter' r (by rw [htail]; simp) hcovers
      have hmore := hbefore r' (by rw [hl]; simp) hcovers'
      omega

/-- A mount that does not cover the path does not change its answer. -/
theorem Answers.append (hr : Answers h q r) (hm : ¬m.Covers q) : Answers (h ++ [m]) q r := by
  obtain ⟨before, after, rfl, hcovers, hbefore, hafter⟩ := hr
  refine ⟨before, after ++ [m], by simp, hcovers, hbefore, fun r' hr' hc => ?_⟩
  rcases List.mem_append.mp hr' with hr' | hr'
  · exact hafter r' hr' hc
  · rw [List.mem_singleton.mp hr'] at hc
    exact absurd hc hm

end Records

/-! ## Runs of mounts that fit -/

section Runs

variable {s s' : Sys} {m : Record}

/-- The mount point that the entry of this type shows. -/
def Table.shows (k : Table) (type : FsType) : Option Str := (k.fs type).path.map k.deref

theorem getFsByMountPoint_vfat (h : k.shows .vfat = some mp) : k.getFsByMountPoint mp = some .vfat :=
  List.find?_cons_of_pos (by simpa [Table.shows] using h)

theorem getFsByMountPoint_ext4 (hvfat : k.shows .vfat ≠ some mp) (h : k.shows .ext4 = some mp) :
    k.getFsByMountPoint mp = some .ext4 := by
  rw [Table.getFsByMountPoint, List.find?_cons_of_neg (by simpa [Table.shows] using hvfat)]
  exact List.find?_cons_of_pos (by simpa [Table.shows] using h)

theorem getFsByMountPoint_none (hvfat : k.shows .vfat ≠ some mp) (h : k.shows .ext4 ≠ some mp) :
    k.getFsByMountPoint mp = none := by
  rw [Table.getFsByMountPoint, List.find?_cons_of_neg (by simpa [Table.shows] using hvfat),
    List.find?_cons_of_neg (by simpa [Table.shows] using h), List.find?_nil]

/-- What a successful call leaves: the entry of the type is new, and all entries that lead to the buffer
show the new mount point. -/
structure Mounted (m : Record) (s s' : Sys) : Prop where
  later : s'.later = s.later ++ [m]
  entry : s'.table.fs m.type = ⟨m.dev, some .absPath⟩
  other : ∀ type, type ≠ m.type → s'.table.fs type = s.table.fs type
  buffer : s'.table.absPath = m.point

theorem MountStep.mounted (h : MountStep m s s') : Mounted m s s' := by
  obtain ⟨root, cwd, dir, fstype, data, status, -, -, hcall, hpoint, htype, hdev, hlater⟩ := h
  rw [Table.sysMount, hpoint, Option.map_some] at hcall
  have htable : s'.table = Table.fsRegister
      { s.table with absPath := m.point, nextDevId := s.table.nextDevId + 1 } m.dev m.type .absPath := by
    split at hcall
    · have hret := (Prod.mk.injEq ..).mp (Option.some.inj hcall)
      exact absurd hret.1 (by decide)
    · rw [htype, hdev]
      exact ((Prod.mk.injEq ..).mp (Option.some.inj hcall)).2.symm
  refine ⟨hlater, ?_, fun type hne => ?_, ?_⟩
  · rw [htable]
    exact Function.update_self ..
  · rw [htable]
    exact Function.update_of_ne hne ..
  · rw [htable]
    rfl

namespace Mounted

theorem shows_entry (h : Mounted m s s') : s'.table.shows m.type = some m.point := by
  rw [Table.shows, h.entry]
  exact congrArg some h.buffer

/-- An entry that showed the new mount point before still does, whether it leads to the buffer or not. -/
theorem shows_other (h : Mounted m s s') (hne : type ≠ m.type) (hsame : s.table.shows type = some m.point) :
    s'.table.shows type = some m.point := by
  rw [Table.shows] at hsame
  rw [Table.shows, h.other type hne]
  cases hpath : (s.table.fs type).path with
  | none => simp [hpath] at hsame
  | some ptr =>
    cases ptr with
    | literal p =>
      rw [hpath] at hsame
      exact hsame
    | absPath => exact congrArg some h.buffer

theorem history (h : Mounted m s s') : s'.history = s.history ++ [m] := by
  rw [Sys.history, h.later]
  rfl

theorem forall_history {P : Record → Prop} (h : Mounted m s s') (hold : ∀ r ∈ s.history, P r) (hnew : P m) :
    ∀ r ∈ s'.history, P r := by
  intro r hr
  rw [h.history] at hr
  rcases List.mem_append.mp hr with hr | hr
  · exact hold r hr
  · rw [List.mem_singleton.mp hr]
    exact hnew

end Mounted

/-- The states of the runs in which every mount fits. -/
inductive Shape (s : Sys) : Prop where
  /-- Only ext4, only at the root. The entry leads to the literal as long as `sys_mount` has not run. -/
  | ext4Root (r : Record) (hlast : s.history.getLast? = some r)
      (hall : ∀ r' ∈ s.history, r'.type = .ext4 ∧ r'.point = [slash]) (hvfat : s.table.fs .vfat = ⟨0, none⟩)
      (hext4 : s.table.shows .ext4 = some [slash]) (hdev : (s.table.fs .ext4).dev = r.dev)
      (hboot : s.later = [] → s.table.fs .ext4 = ⟨ROOTDEV, some (.literal [slash])⟩)
  /-- Only at the root, vfat last. -/
  | vfatRoot (r : Record) (hlast : s.history.getLast? = some r) (htype : r.type = .vfat)
      (hmem : r ∈ s.later) (hall : ∀ r' ∈ s.history, r'.point = [slash])
      (hvfat : s.table.shows .vfat = some [slash]) (hext4 : s.table.shows .ext4 = some [slash])
      (hdev : (s.table.fs .vfat).dev = r.dev)
  /-- Only vfat, only at this mount point. -/
  | below (c : Str) (r : Record) (hlast : s.later.getLast? = some r) (hne : c ≠ []) (hsep : slash ∉ c)
      (hall : ∀ r' ∈ s.later, r'.type = .vfat ∧ r'.point = slash :: c)
      (hvfat : s.table.shows .vfat = some (slash :: c)) (hdev : (s.table.fs .vfat).dev = r.dev)
      (hext4 : s.table.fs .ext4 = ⟨ROOTDEV, some (.literal [slash])⟩)

theorem shape_booted : Shape booted := by
  refine .ext4Root bootRecord rfl (fun r' hr' => ?_) rfl rfl rfl fun _ => rfl
  rw [List.mem_singleton.mp hr']
  exact ⟨rfl, rfl⟩

/-- The mount at boot is at the root as well. -/
theorem history_points (hlater : ∀ r ∈ s.later, r.point = [slash]) : ∀ r ∈ s.history, r.point = [slash] := by
  intro r hr
  rcases List.mem_cons.mp hr with rfl | hr
  · rfl
  · exact hlater r hr

/-- A mount point with a component is not the root. -/
theorem below_point (hne : c ≠ []) : slash :: c ≠ [slash] := fun h => hne (List.cons_eq_cons.mp h).2

theorem Shape.mount_root (h : Shape s) (hm : Mounted m s s') (hpoint : m.point = [slash])
    (hlater : ∀ r ∈ s.later, r.point = [slash]) (htype : m.type = .vfat ∨ ∀ r ∈ s.later, r.type = .ext4) :
    Shape s' := by
  have hall := hm.forall_history (history_points hlater) hpoint
  have hlast : s'.history.getLast? = some m := by rw [hm.history, List.getLast?_concat]
  have hmem : m ∈ s'.later := by rw [hm.later]; simp
  have hentry := hm.shows_entry
  have hdev : (s'.table.fs m.type).dev = m.dev := by rw [hm.entry]
  rw [hpoint] at hentry
  -- in both cases the entry of ext4 shows the root before and after
  have hext4 : s.table.shows .ext4 = some [slash] → s'.table.shows .ext4 = some [slash] := by
    intro hold
    by_cases heq : m.type = .ext4
    · rw [← heq]
      exact hentry
    · have hother := hm.shows_other (Ne.symm heq) (by rw [hpoint]; exact hold)
      rwa [hpoint] at hother
  have hvfatRoot : m.type = .vfat → s.table.shows .ext4 = some [slash] → Shape s' := fun heq hold =>
    .vfatRoot m hlast heq hmem hall (heq ▸ hentry) (hext4 hold) (heq ▸ hdev)
  cases h with
  | ext4Root r hlast' hall' hvfat hold hdev' hboot =>
    cases heq : m.type with
    | vfat => exact hvfatRoot heq hold
    | ext4 =>
      refine .ext4Root m hlast (hm.forall_history hall' ⟨heq, hpoint⟩) ?_ (hext4 hold) (heq ▸ hdev) fun hnil => ?_
      · rw [hm.other .vfat (by rw [heq]; decide)]
        exact hvfat
      · rw [hnil] at hmem
        exact absurd hmem List.not_mem_nil
  | vfatRoot r hlast' htype' hmem' hall' hvfat hold hdev' =>
    refine hvfatRoot (htype.resolve_right fun hext => ?_) hold
    have := hext r hmem'
    rw [htype'] at this
    cases this
  | below c r hlast' hne hsep hall' hvfat hdev' hext4' =>
    have hr : r ∈ s.later := List.mem_of_getLast? hlast'
    exact absurd ((hall' r hr).2.symm.trans (hlater r hr)) (below_point hne)

theorem Shape.mount_below (h : Shape s) (hm : Mounted m s s') (htype : m.type = .vfat) (hne : c ≠ [])
    (hsep : slash ∉ c) (hpoint : m.point = slash :: c)
    (hlater : ∀ r ∈ s.later, r.type = .vfat ∧ r.point = m.point) : Shape s' := by
  have hext4 : s.table.fs .ext4 = ⟨ROOTDEV, some (.literal [slash])⟩ := by
    cases h with
    | ext4Root r hlast hall hvfat hold hdev hboot =>
      refine hboot (List.eq_nil_iff_forall_not_mem.mpr fun r' hr' => ?_)
      have := (hall r' (List.mem_cons_of_mem _ hr')).1
      rw [(hlater r' hr').1] at this
      cases this
    | vfatRoot r hlast htype' hmem hall hvfat hold hdev =>
      have heq := (hlater r hmem).2.symm.trans (hall r (List.mem_cons_of_mem _ hmem))
      exact absurd (hpoint.symm.trans heq) (below_point hne)
    | below c' r hlast hne' hsep' hall hvfat hdev hext4 => exact hext4
  refine .below c m (by rw [hm.later, List.getLast?_concat]) hne hsep (fun r hr => ?_) ?_ ?_ ?_
  · rw [hm.later] at hr
    rcases List.mem_append.mp hr with hr | hr
    · exact ⟨(hlater r hr).1, (hlater r hr).2.trans hpoint⟩
    · rw [List.mem_singleton.mp hr]
      exact ⟨htype, hpoint⟩
  · rw [← htype, hm.shows_entry, hpoint]
  · rw [← htype, hm.entry]
  · rw [hm.other .ext4 (by rw [htype]; decide)]
    exact hext4

theorem Shape.step (h : Shape s) (hstep : FittingStep s s') : Shape s' := by
  obtain ⟨m, hfits, hmount⟩ := hstep
  rcases hfits with ⟨hpoint, hlater, htype⟩ | ⟨htype, ⟨c, hne, hsep, hpoint⟩, hlater⟩
  · exact h.mount_root hmount.mounted hpoint hlater htype
  · exact h.mount_below hmount.mounted htype hne hsep hpoint hlater

/-! ## The answers -/

theorem found_eq {type : FsType} (hpath : getAbsolutePath root (some path) cwd = some q)
    (hsearch : k.searchFrom (q ++ [slash]) q.length = some type) :
    k.found root cwd (some path) = some (some (type, (k.fs type).dev)) := by
  rw [Table.found, Table.getFsFromPath, hpath, Option.map_some, hsearch]
  rfl

/-- The first component of a resolved path is all that stands before its second slash. -/
theorem resolved_cases (hq : Resolved q) :
    q = [slash] ∨ ∃ d rest l, q = slash :: (d ++ rest) ∧ d ≠ [] ∧ slash ∉ d ∧ (rest = [] ∨ ∃ t, rest = slash :: t) ∧
      components slash q = d :: l := by
  obtain ⟨a, t, rfl⟩ : ∃ a t, q = a :: t := by
    cases q with
    | nil => cases hq.head
    | cons a t => exact ⟨a, t, rfl⟩
  obtain rfl : a = slash := by simpa using hq.head
  obtain ⟨d, rest, rfl, hsep, hrest⟩ := Components.exists_first slash t
  by_cases hd : d = []
  · subst hd
    rcases hrest with rfl | ⟨t, rfl⟩
    · exact .inl rfl
    · exact absurd rfl hq.second
  · exact .inr ⟨d, rest, _, rfl, hd, hsep, hrest,
      by rw [Components.components_cons_sep, Components.components_first hsep hd hrest]⟩

/-- What the loop compares covers the path, component by component. -/
theorem components_cut (hslash : (q ++ [slash])[i]? = some slash) :
    components slash ((q ++ [slash]).take i) <+: components slash q := by
  obtain ⟨hlt, hget⟩ := List.getElem?_eq_some_iff.mp hslash
  have hsplit := List.take_append_drop i (q ++ [slash])
  rw [List.drop_eq_getElem_cons hlt, hget] at hsplit
  refine ⟨components slash ((q ++ [slash]).drop (i + 1)), ?_⟩
  rw [← Components.components_append_sep, hsplit, Components.components_append_sep, Components.components_nil,
    List.append_nil]

/-- Below the mount point its file system is found. -/
theorem searchFrom_below {rest : Str} (hrest : rest = [] ∨ ∃ t, rest = slash :: t)
    (hvfat : k.shows .vfat = some (slash :: c)) (hext4 : k.shows .ext4 = some [slash])
    (hq : q = slash :: (c ++ rest)) : k.searchFrom (q ++ [slash]) q.length = some .vfat := by
  have hlen : q.length = c.length + 1 + rest.length := by
    rw [hq, List.length_cons, List.length_append]
    omega
  have htake : (q ++ [slash]).take (c.length + 1) = slash :: c := by
    rw [hq, List.cons_append, List.take_succ_cons, List.append_assoc, List.take_left']
    rfl
  refine searchFrom_of_point (i := c.length + 1) (Nat.succ_pos _) ?_ ?_ (by omega) fun j hj hjn => ?_
  · rw [hq, List.cons_append, List.getElem?_cons_succ, List.append_assoc, List.getElem?_append_right le_rfl,
      Nat.sub_self]
    rcases hrest with rfl | ⟨t, rfl⟩ <;> rfl
  · rw [htake]
    exact getFsByMountPoint_vfat hvfat
  · have hlonger : ((q ++ [slash]).take j).length = j := by
      rw [List.length_take, List.length_append]
      exact Nat.min_eq_left (by omega)
    refine getFsByMountPoint_none ?_ ?_
    · rw [hvfat]
      intro heq
      rw [← Option.some.inj heq, List.length_cons] at hlonger
      omega
    · rw [hext4]
      intro heq
      rw [← Option.some.inj heq, List.length_singleton] at hlonger
      omega

/-- Elsewhere the root is found. -/
theorem searchFrom_beside (hq : Resolved q) (hne : c ≠ []) (hsep : slash ∉ c)
    (hvfat : k.shows .vfat = some (slash :: c)) (hext4 : k.shows .ext4 = some [slash])
    (hcovers : ¬[c] <+: components slash q) : k.searchFrom (q ++ [slash]) q.length = some .ext4 := by
  have hroot : k.getFsByMountPoint [slash] = some .ext4 := by
    refine getFsByMountPoint_ext4 ?_ hext4
    rw [hvfat]
    exact fun heq => below_point hne (Option.some.inj heq)
  rcases resolved_cases hq with rfl | ⟨d, rest, l, hq', hd, hdsep, -, -⟩
  · show k.searchFrom [slash, slash] 1 = some .ext4
    rw [Table.searchFrom, if_pos (by rfl), List.take_succ_cons, List.take_zero, hroot]
  · rw [searchFrom_of_none, hroot]
    intro j hj hjn hslash
    refine getFsByMountPoint_none ?_ ?_
    · rw [hvfat]
      intro heq
      refine hcovers ?_
      have hcut := components_cut hslash
      rwa [← Option.some.inj heq, Components.components_cons_sep, Components.components_single hsep hne] at hcut
    · rw [hext4]
      intro heq
      have hlen := congrArg List.length (Option.some.inj heq)
      rw [List.length_take, List.length_append, List.length_singleton, Nat.min_eq_left (by omega)] at hlen
      -- a cut of length one would mean that the second letter is a slash
      obtain ⟨a, d', rfl⟩ := List.exists_cons_of_ne_nil hd
      rw [← hlen, hq', List.cons_append, List.getElem?_cons_succ] at hslash
      refine hdsep ?_
      rw [List.cons_append, List.cons_append, List.getElem?_cons_zero] at hslash
      rw [← Option.some.inj hslash]
      exact List.mem_cons_self

theorem Shape.correct (h : Shape s) : Correct s := by
  intro root cwd path hroot habs
  obtain ⟨q, hpath, hq⟩ := Path.getAbsolutePath_resolved cwd hroot habs
  have hanswers : ∀ r, s.history.getLast? = some r → (∀ r' ∈ s.history, r'.point = [slash]) →
      Answers s.history q r := by
    intro r hlast hall
    obtain ⟨before, hhistory⟩ := List.getLast?_eq_some_iff.mp hlast
    rw [hhistory] at hall ⊢
    exact answers_last (fun r' hr' => hall r' (List.mem_append_left _ hr')) (hall r (by simp))
  cases h with
  | ext4Root r hlast hall hvfat hext4 hdev hboot =>
    refine ⟨q, r, hpath, hanswers r hlast fun r' hr' => (hall r' hr').2, ?_⟩
    have hnone : s.table.shows .vfat = none := by rw [Table.shows, hvfat]; rfl
    rw [found_eq hpath (searchFrom_root (getFsByMountPoint_ext4 (by rw [hnone]; nofun) hext4)
      fun mp hmp => getFsByMountPoint_none (by rw [hnone]; nofun) fun heq => hmp ?_), hdev,
      (hall r (List.mem_of_getLast? hlast)).1]
    rw [hext4] at heq
    exact (Option.some.inj heq).symm
  | vfatRoot r hlast htype hmem hall hvfat hext4 hdev =>
    refine ⟨q, r, hpath, hanswers r hlast hall, ?_⟩
    rw [found_eq hpath (searchFrom_root (getFsByMountPoint_vfat hvfat)
      fun mp hmp => getFsByMountPoint_none (fun heq => hmp ?_) fun heq => hmp ?_), hdev, htype]
    · rw [hvfat] at heq
      exact (Option.some.inj heq).symm
    · rw [hext4] at heq
      exact (Option.some.inj heq).symm
  | below c r hlast hne hsep hall hvfat hdev hext4 =>
    obtain ⟨before, hlater⟩ := List.getLast?_eq_some_iff.mp hlast
    have hcomponents : ∀ r' ∈ s.later, components slash r'.point = [c] := by
      intro r' hr'
      rw [(hall r' hr').2, Components.components_cons_sep, Components.components_single hsep hne]
    have hr : r ∈ s.later := List.mem_of_getLast? hlast
    have hshows : s.table.shows .ext4 = some [slash] := by rw [Table.shows, hext4]; rfl
    by_cases hcovers : [c] <+: components slash q
    · refine ⟨q, r, hpath, ⟨bootRecord :: before, [], ?_, ?_, fun r' hr' _ => ?_, by simp⟩, ?_⟩
      · rw [Sys.history, hlater, List.cons_append]
      · rw [Record.Covers, hcomponents r hr]
        exact hcovers
      · rw [Record.depth, Record.depth, hcomponents r hr]
        rcases List.mem_cons.mp hr' with rfl | hr'
        · exact Nat.zero_le _
        · rw [hcomponents r' (by rw [hlater]; exact List.mem_append_left _ hr')]
      · rcases resolved_cases hq with rfl | ⟨d, rest, l, hq', hd, hdsep, hrest, hl⟩
        · exact absurd hcovers.length_le (Nat.not_succ_le_zero 0)
        · rw [hl] at hcovers
          obtain rfl := (List.cons_prefix_cons.mp hcovers).1
          rw [found_eq hpath (searchFrom_below hrest hvfat hshows hq'), hdev, (hall r hr).1]
    · refine ⟨q, bootRecord, hpath, ⟨[], s.later, rfl, covers_root rfl, by simp, fun r' hr' hc => ?_⟩, ?_⟩
      · rw [Record.Covers, hcomponents r' hr'] at hc
        exact absurd hc hcovers
      · rw [found_eq hpath (searchFrom_beside hq hne hsep hvfat hshows hcovers), hext4]
        rfl

/-- In a run of mounts that fit, the lookup finds the right file system in every state, and a further
mount leaves the answers for the paths that it does not cover. -/
theorem mount_lookup (hrun : Reaches FittingStep booted s) :
    Correct s ∧ ∀ m s', Fits s.later m → MountStep m s s' →
      ∀ root cwd path q, Resolved root → path[0]? = some slash →
        getAbsolutePath root (some path) cwd = some q → ¬m.Covers q →
          s'.table.found root cwd (some path) = s.table.found root cwd (some path) := by
  have hshape : Shape s := hrun.invariant shape_booted fun _ _ => Shape.step
  refine ⟨hshape.correct, fun m s' hfits hmount root cwd path q hroot habs hpath hcovers => ?_⟩
  obtain ⟨q₁, r₁, hpath₁, hanswers₁, hfound₁⟩ := hshape.correct root cwd path hroot habs
  obtain ⟨q₂, r₂, hpath₂, hanswers₂, hfound₂⟩ := (hshape.step ⟨m, hfits, hmount⟩).correct root cwd path hroot habs
  obtain rfl : q₁ = q := Option.some.inj (hpath₁.symm.trans hpath)
  obtain rfl : q₂ = q₁ := Option.some.inj (hpath₂.symm.trans hpath)
  rw [hmount.mounted.history] at hanswers₂
  rw [hfound₁, hfound₂, hanswers₂.unique (hanswers₁.append hcovers)]

/-! ## A second mount of the same type -/

def mntRecord : Record := ⟨.vfat, 2, str "/mnt"⟩
def otherRecord : Record := ⟨.vfat, 3, str "/other"⟩

/-- `mount(special, "/mnt", "vfat", 0, NULL)` after boot. -/
def onMnt : Sys := ⟨Table.fsRegister ⟨str "/mnt", 3, Table.boot.fs⟩ 2 .vfat .absPath, [mntRecord]⟩

/-- Then `mount(special, "/other", "vfat", 0, NULL)`. -/
def onOther : Sys := ⟨Table.fsRegister ⟨str "/other", 4, onMnt.table.fs⟩ 3 .vfat .absPath, [mntRecord, otherRecord]⟩

theorem mountStep_mnt : MountStep mntRecord booted onMnt :=
  ⟨[slash], [slash], str "/mnt", str "vfat", none, 0, Path.resolved_root, by decide, by rfl, by rfl, by decide, rfl, rfl⟩

theorem mountStep_other : MountStep otherRecord onMnt onOther :=
  ⟨[slash], [slash], str "/other", str "vfat", none, 0, Path.resolved_root, by decide, by rfl, by rfl, by decide, rfl, rfl⟩

theorem fits_mnt : Fits booted.later mntRecord :=
  .inr ⟨rfl, ⟨str "mnt", by decide, by decide, by decide⟩, fun r hr => absurd hr List.not_mem_nil⟩

theorem mount_lookup_mnt :
    Reaches FittingStep booted onMnt ∧ Correct onMnt :=
  have hrun : Reaches FittingStep booted onMnt := .single ⟨mntRecord, fits_mnt, mountStep_mnt⟩
  ⟨hrun, (mount_lookup hrun).1⟩

/-- Two successful mounts, after which `/mnt` is found in the root file system. -/
theorem second_mount_hides_first :
    MountStep mntRecord booted onMnt ∧ MountStep otherRecord onMnt onOther ∧ ¬Correct onOther := by
  refine ⟨mountStep_mnt, mountStep_other, fun hcorrect => ?_⟩
  obtain ⟨q, r, hpath, hanswers, hfound⟩ :=
    hcorrect [slash] [slash] (str "/mnt") Path.resolved_root (by decide)
  obtain rfl : str "/mnt" = q := Option.some.inj (Eq.trans (by rfl) hpath)
  have hmnt : Answers onOther.history (str "/mnt") mntRecord :=
    ⟨[bootRecord], [otherRecord], rfl, by decide, by decide, by decide⟩
  obtain rfl := hmnt.unique hanswers
  have hext4 : onOther.table.found [slash] [slash] (some (str "/mnt")) = some (some (.ext4, 1)) := by rfl
  rw [hext4] at hfound
  cases hfound

end Runs

end SC7.Mount
