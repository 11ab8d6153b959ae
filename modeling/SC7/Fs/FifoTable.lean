-- SUMMARY: The FIFO table under concurrent opens and closes (`fifo.c`): the runs in which a slot is in use exactly while it is counted, and what is promised to those who hold one.
import SC7.Fs.Fifo

/-!
# The FIFO table

Any number of processes open and close FIFOs. An open is two steps, `find_or_create_fifo` under the lock of
the table and the rest under the lock of the slot; the last close is two steps as well, because it takes the
lock of the table while it holds that of the slot. Between its steps an open has a pointer to a slot that
nothing counts yet. A close of the last file may clear that slot, and an open that is refused leaves the
slot in use.
-/

namespace SC7

open Function (update update_of_ne update_self)

/-- An open file on a FIFO, with the path it was opened by. -/
structure OpenFifo where
  slot : Fin MAX_FIFOS
  flags : Nat
  path : List UInt8
  deriving DecidableEq

/-- A call between its two sections. -/
inductive FifoCall where
  | opening (slot : Fin MAX_FIFOS) (path : List UInt8) (flags : Nat)
  | closing (slot : Fin MAX_FIFOS)
  deriving DecidableEq

/-- The table, the calls of the processes, the locks that a close holds between its sections, and the files. -/
structure FifoSys where
  table : FifoTable
  calls : Nat → Option FifoCall
  locked : Fin MAX_FIFOS → Bool
  files : List OpenFifo

inductive FifoEvent where
  | find (pid : Nat) (path : List UInt8) (flags : Nat)
  | open (pid : Nat)
  | close (pid : Nat) (f : OpenFifo) (flags : Nat)
  | clear (pid : Nat)

namespace FifoSys

open Fifo

def init (data : Fin MAX_FIFOS → Nat → UInt8) : FifoSys :=
  ⟨fun i => Fifo.init (data i), fun _ => none, fun _ => false, []⟩

/-- One section. `fcntl` may have changed the flags of a file by the time it is closed, but not the access
mode. -/
def step (σ : FifoSys) : FifoEvent → Option FifoSys
  | .find pid path flags =>
    if σ.calls pid = none then
      match σ.table.findOrCreate path with
      | (some i, table) => some { σ with table, calls := update σ.calls pid (some (.opening i path flags)) }
      | (none, table) => some { σ with table }
    else none
  | .open pid =>
    match σ.calls pid with
    | some (.opening i path flags) =>
      if σ.locked i then none
      else
        let (ok, fi) := (σ.table i).openSection flags
        some { σ with
          table := update σ.table i fi
          calls := update σ.calls pid none
          files := if ok then ⟨i, flags, path⟩ :: σ.files else σ.files }
    | _ => none
  | .close pid f flags =>
    if σ.calls pid = none ∧ f ∈ σ.files ∧ σ.locked f.slot = false ∧
        flags &&& O_ACCMODE = f.flags &&& O_ACCMODE then
      let fi := (σ.table f.slot).closeSection flags
      let σ := { σ with table := update σ.table f.slot fi, files := σ.files.erase f }
      if fi.readopen = 0 ∧ fi.writeopen = 0 then
        some { σ with calls := update σ.calls pid (some (.closing f.slot)), locked := update σ.locked f.slot true }
      else some σ
    else none
  | .clear pid =>
    match σ.calls pid with
    | some (.closing i) =>
      some { σ with
        table := update σ.table i (σ.table i).clear
        calls := update σ.calls pid none
        locked := update σ.locked i false }
    | _ => none

/-! ## What is promised -/

variable (σ : FifoSys)

/-- A process other than `pid` has been given the slot and has not opened it yet. -/
def Awaited (pid : Nat) (i : Fin MAX_FIFOS) : Prop :=
  ∃ pid' ≠ pid, ∃ path flags, σ.calls pid' = some (.opening i path flags)

/-- The steps after which the table is consistent: the path fits into the slot and the flags have an access
mode; a refused open leaves a slot that has a writer or is awaited by another; and the last close clears
a slot that nobody awaits. -/
def Careful : FifoEvent → Prop
  | .find _ path flags => path.length ≤ 255 ∧ (ReadMode flags ∨ WriteMode flags)
  | .open pid => ∀ i path flags, σ.calls pid = some (.opening i path flags) → (σ.table i).Refuses flags →
      (σ.table i).writeopen ≠ 0 ∨ σ.Awaited pid i
  | .close _ _ _ => True
  | .clear pid => ∀ i, σ.calls pid = some (.closing i) → ¬σ.Awaited pid i

/-- No open or close is in progress. -/
def Quiet : Prop := ∀ pid, σ.calls pid = none

/-- The table says what is open. -/
structure Consistent : Prop where
  in_use : ∀ i, (σ.table i).inUse = true ↔ 0 < (σ.table i).readopen + (σ.table i).writeopen
  distinct : ∀ i j, (σ.table i).inUse = true → (σ.table j).inUse = true →
    (σ.table i).path = (σ.table j).path → i = j
  readers : ∀ i, (σ.table i).inUse = true →
    (σ.table i).readopen = σ.files.countP fun f => f.path = (σ.table i).path ∧ ReadMode f.flags
  writers : ∀ i, (σ.table i).inUse = true →
    (σ.table i).writeopen = σ.files.countP fun f => f.path = (σ.table i).path ∧ WriteMode f.flags

/-- Who has opened a path has the slot that carries it. -/
structure Kept : Prop where
  carries : ∀ f ∈ σ.files, (σ.table f.slot).inUse = true ∧ (σ.table f.slot).path = f.path
  apart : ∀ f ∈ σ.files, ∀ g ∈ σ.files, f.path ≠ g.path → f.slot ≠ g.slot

end FifoSys

/-! ## Sections -/

section Sections

open Fifo

variable {fi : Fifo} {flags flags' : Nat} {table table' : FifoTable} {i : Fin MAX_FIFOS} {path : List UInt8}

namespace Fifo

theorem readMode_congr (h : flags &&& O_ACCMODE = flags' &&& O_ACCMODE) : ReadMode flags ↔ ReadMode flags' := by
  rw [ReadMode, ReadMode, h]

theorem writeMode_congr (h : flags &&& O_ACCMODE = flags' &&& O_ACCMODE) : WriteMode flags ↔ WriteMode flags' := by
  rw [WriteMode, WriteMode, h]

/-- An open that is not refused raises the counts of its access mode. -/
theorem openSection_eq (h : ¬fi.Refuses flags) :
    fi.openSection flags =
      (true, { fi with
        readopen := fi.readopen + if ReadMode flags then 1 else 0
        writeopen := fi.writeopen + if WriteMode flags then 1 else 0 }) := by
  rw [openSection, if_neg h]
  by_cases hr : ReadMode flags <;> by_cases hw : WriteMode flags <;> simp [hr, hw]

/-- A close lowers the counts of its access mode. -/
theorem closeSection_eq (fi : Fifo) (flags : Nat) :
    fi.closeSection flags =
      { fi with
        readopen := fi.readopen - if ReadMode flags then 1 else 0
        writeopen := fi.writeopen - if WriteMode flags then 1 else 0 } := by
  rw [closeSection]
  by_cases hr : ReadMode flags <;> by_cases hw : WriteMode flags <;> simp [hr, hw]

end Fifo

/-- Updating a slot does not change what the update leaves alone. -/
theorem update_same {β : Type} (g : Fifo → β) (hsame : g fi = g (table i)) (j : Fin MAX_FIFOS) :
    g (update table i fi j) = g (table j) := by
  by_cases hj : j = i
  · subst hj
    rw [update_self, hsame]
  · rw [update_of_ne hj]

/-- `find_or_create_fifo` finds the slot with the path, or takes a free one if no slot has it. -/
theorem FifoTable.findOrCreate_eq (h : table.findOrCreate path = (some i, table')) :
    ((table i).inUse = true ∧ (table i).path = path ∧ table' = table) ∨
      ((table i).inUse = false ∧ (∀ j, (table j).inUse = true → (table j).path ≠ path) ∧
        table' = update table i ((table i).create path)) := by
  rw [findOrCreate] at h
  split at h
  · rename_i i' hfind
    obtain ⟨rfl, rfl⟩ : i' = i ∧ table = table' := by simpa using h
    have hprop := List.find?_some hfind
    simp only [Bool.and_eq_true, beq_iff_eq] at hprop
    exact Or.inl ⟨hprop.1, hprop.2, rfl⟩
  · rename_i hnone
    have hother : ∀ j, (table j).inUse = true → (table j).path ≠ path := by
      intro j hj hpath
      have := List.find?_eq_none.mp hnone j (List.mem_finRange j)
      simp [hj, hpath] at this
    split at h
    · rename_i i' hfree
      obtain ⟨rfl, rfl⟩ : i' = i ∧ update table i' ((table i').create path) = table' := by simpa using h
      have hprop := List.find?_some hfree
      exact Or.inr ⟨by simpa using hprop, hother, rfl⟩
    · exact absurd h (by simp)

theorem FifoTable.findOrCreate_none (h : table.findOrCreate path = (none, table')) : table' = table := by
  rw [findOrCreate] at h
  split at h
  · exact absurd h (by simp)
  · split at h
    · exact absurd h (by simp)
    · exact (Prod.mk.inj h).2.symm

end Sections

/-! ## The invariant -/

namespace FifoSys

open Fifo

/-- The files of a slot with one of the access modes. -/
def holders (Mode : Nat → Prop) [DecidablePred Mode] (files : List OpenFifo) (i : Fin MAX_FIFOS) : Nat :=
  files.countP fun f => f.slot = i ∧ Mode f.flags

section Holders

variable (Mode : Nat → Prop) [DecidablePred Mode] {files : List OpenFifo} {f : OpenFifo} (i : Fin MAX_FIFOS)

theorem holders_cons : holders Mode (f :: files) i = holders Mode files i + if f.slot = i ∧ Mode f.flags then 1 else 0 := by
  rw [holders, List.countP_cons, holders]
  simp only [decide_eq_true_eq]

theorem holders_erase (hf : f ∈ files) :
    holders Mode (files.erase f) i = holders Mode files i - if f.slot = i ∧ Mode f.flags then 1 else 0 := by
  have hperm : holders Mode files i = holders Mode (f :: files.erase f) i := (List.perm_cons_erase hf).countP_eq _
  rw [hperm, holders_cons, Nat.add_sub_cancel]

theorem holders_pos : 0 < holders Mode files i ↔ ∃ f ∈ files, f.slot = i ∧ Mode f.flags := by
  rw [holders, List.countP_pos_iff]
  simp only [decide_eq_true_eq]

end Holders

/-- Who holds a slot holds one in use with the right path; and a slot in use has a file, or a call that will
either count or clear it. -/
structure Inv (σ : FifoSys) : Prop where
  files : ∀ f ∈ σ.files, (σ.table f.slot).inUse = true ∧ (σ.table f.slot).path = f.path ∧
    (ReadMode f.flags ∨ WriteMode f.flags)
  opening : ∀ pid i path flags, σ.calls pid = some (.opening i path flags) →
    (σ.table i).inUse = true ∧ (σ.table i).path = path ∧ (ReadMode flags ∨ WriteMode flags)
  closing : ∀ pid i, σ.calls pid = some (.closing i) →
    σ.locked i = true ∧ (σ.table i).inUse = true ∧ ∀ f ∈ σ.files, f.slot ≠ i
  alone : ∀ pid pid' i, σ.calls pid = some (.closing i) → σ.calls pid' = some (.closing i) → pid = pid'
  readopen : ∀ i, (σ.table i).readopen = holders ReadMode σ.files i
  writeopen : ∀ i, (σ.table i).writeopen = holders WriteMode σ.files i
  distinct : ∀ i j, (σ.table i).inUse = true → (σ.table j).inUse = true →
    (σ.table i).path = (σ.table j).path → i = j
  used : ∀ i, (σ.table i).inUse = true → (∃ f ∈ σ.files, f.slot = i) ∨
    (∃ pid path flags, σ.calls pid = some (.opening i path flags)) ∨ ∃ pid, σ.calls pid = some (.closing i)

variable {σ σ' : FifoSys} {i : Fin MAX_FIFOS} {f : OpenFifo} {pid pid' : Nat} {path : List UInt8} {flags : Nat}
  {calls : Nat → Option FifoCall} {c : FifoCall} {fi : Fifo} {table : FifoTable}

/-- A slot is counted exactly if a file is on it. -/
theorem Inv.counted_iff (h : Inv σ) (i : Fin MAX_FIFOS) :
    0 < (σ.table i).readopen + (σ.table i).writeopen ↔ ∃ f ∈ σ.files, f.slot = i := by
  rw [Nat.add_pos_iff_pos_or_pos, h.readopen, h.writeopen, holders_pos, holders_pos]
  constructor
  · rintro (⟨f, hf, hslot, -⟩ | ⟨f, hf, hslot, -⟩)
    · exact ⟨f, hf, hslot⟩
    · exact ⟨f, hf, hslot⟩
  · rintro ⟨f, hf, hslot⟩
    rcases (h.files f hf).2.2 with hmode | hmode
    · exact Or.inl ⟨f, hf, hslot, hmode⟩
    · exact Or.inr ⟨f, hf, hslot, hmode⟩

theorem init_inv (data : Fin MAX_FIFOS → Nat → UInt8) : Inv (init data) where
  files := fun f hf => absurd hf List.not_mem_nil
  opening := fun _ _ _ _ hcall => absurd hcall (by simp [init])
  closing := fun _ _ hcall => absurd hcall (by simp [init])
  alone := fun _ _ _ hcall => absurd hcall (by simp [init])
  readopen := fun _ => rfl
  writeopen := fun _ => rfl
  distinct := fun _ _ hi => absurd hi (by simp [init, Fifo.init])
  used := fun _ hi => absurd hi (by simp [init, Fifo.init])

/-- A slot that is not in use has no files. -/
theorem Inv.no_files (h : Inv σ) (hfree : (σ.table i).inUse = false) (hf : f ∈ σ.files) : f.slot ≠ i := by
  rintro rfl
  exact absurd (h.files f hf).1 (by simp [hfree])

theorem Inv.no_holders (h : Inv σ) (hfree : (σ.table i).inUse = false) (Mode : Nat → Prop) [DecidablePred Mode] :
    holders Mode σ.files i = 0 := by
  refine Nat.eq_zero_of_not_pos fun hpos => ?_
  obtain ⟨f, hf, hslot, -⟩ := (holders_pos Mode i).mp hpos
  exact h.no_files hfree hf hslot

section Calls

variable {calls : Nat → Option FifoCall} {call : Option FifoCall} {c : FifoCall} {pid' : Nat}

theorem update_of_idle (hidle : calls pid = none) (h : calls pid' = some c) : update calls pid call pid' = some c := by
  rw [update_of_ne, h]
  rintro rfl
  exact absurd (hidle.symm.trans h) (by simp)

/-- A call of the new state is the one that the step has begun, or an old one of another process. -/
theorem update_eq_some (h : update calls pid call pid' = some c) :
    pid' = pid ∧ call = some c ∨ pid' ≠ pid ∧ calls pid' = some c := by
  by_cases hpid : pid' = pid
  · subst hpid
    rw [update_self] at h
    exact Or.inl ⟨rfl, h⟩
  · rw [update_of_ne hpid] at h
    exact Or.inr ⟨hpid, h⟩

/-- A call that will count or clear a slot goes on when another process begins one. -/
theorem called_update (hidle : calls pid = none)
    (h : (∃ pid path flags, calls pid = some (.opening i path flags)) ∨ ∃ pid, calls pid = some (.closing i)) :
    (∃ pid' path flags, update calls pid call pid' = some (.opening i path flags)) ∨
      ∃ pid', update calls pid call pid' = some (.closing i) := by
  rcases h with ⟨pid', path, flags, hcall⟩ | ⟨pid', hcall⟩
  · exact Or.inl ⟨pid', path, flags, update_of_idle hidle hcall⟩
  · exact Or.inr ⟨pid', update_of_idle hidle hcall⟩

end Calls

/-- An open that begins is no second close. -/
theorem Inv.alone_opening (h : Inv σ) (pid1 pid2 : Nat) (j : Fin MAX_FIFOS)
    (hcall1 : update σ.calls pid (some (.opening i path flags)) pid1 = some (.closing j))
    (hcall2 : update σ.calls pid (some (.opening i path flags)) pid2 = some (.closing j)) : pid1 = pid2 := by
  rcases update_eq_some hcall1 with ⟨-, hnew⟩ | ⟨-, hold1⟩
  · cases hnew
  · rcases update_eq_some hcall2 with ⟨-, hnew⟩ | ⟨-, hold2⟩
    · cases hnew
    · exact h.alone pid1 pid2 j hold1 hold2

/-- A process is given a slot that carries its path. -/
theorem Inv.begin (h : Inv σ) (hidle : σ.calls pid = none) (huse : (σ.table i).inUse = true)
    (hpath : (σ.table i).path = path) (hmode : ReadMode flags ∨ WriteMode flags) :
    Inv { σ with calls := update σ.calls pid (some (.opening i path flags)) } where
  files := h.files
  opening := by
    intro pid' i' path' flags' hcall
    rcases update_eq_some hcall with ⟨-, hnew⟩ | ⟨-, hold⟩
    · cases hnew
      exact ⟨huse, hpath, hmode⟩
    · exact h.opening pid' i' path' flags' hold
  closing := by
    intro pid' i' hcall
    rcases update_eq_some hcall with ⟨-, hnew⟩ | ⟨-, hold⟩
    · cases hnew
    · exact h.closing pid' i' hold
  alone := h.alone_opening
  readopen := h.readopen
  writeopen := h.writeopen
  distinct := h.distinct
  used := by
    intro i' hi'
    rcases h.used i' hi' with hfile | hcall
    · exact Or.inl hfile
    · exact Or.inr (called_update hidle hcall)

/-- A process takes a free slot for a path that no slot has. -/
theorem Inv.take (h : Inv σ) (hidle : σ.calls pid = none) (hfree : (σ.table i).inUse = false)
    (hother : ∀ j, (σ.table j).inUse = true → (σ.table j).path ≠ path) (hlen : path.length ≤ 255)
    (hmode : ReadMode flags ∨ WriteMode flags) :
    Inv { σ with
      table := update σ.table i ((σ.table i).create path)
      calls := update σ.calls pid (some (.opening i path flags)) } where
  files := by
    intro f hf
    simp only [update_of_ne (h.no_files hfree hf)]
    exact h.files f hf
  opening := by
    intro pid' i' path' flags' hcall
    rcases update_eq_some hcall with ⟨-, hnew⟩ | ⟨-, hold⟩
    · cases hnew
      simp only [update_self, create, List.take_of_length_le hlen]
      exact ⟨trivial, trivial, hmode⟩
    · have hne : i' ≠ i := by
        rintro rfl
        exact absurd (h.opening pid' i' path' flags' hold).1 (by simp [hfree])
      simp only [update_of_ne hne]
      exact h.opening pid' i' path' flags' hold
  closing := by
    intro pid' i' hcall
    rcases update_eq_some hcall with ⟨-, hnew⟩ | ⟨-, hold⟩
    · cases hnew
    · have hne : i' ≠ i := by
        rintro rfl
        exact absurd (h.closing pid' i' hold).2.1 (by simp [hfree])
      simp only [update_of_ne hne]
      exact h.closing pid' i' hold
  alone := h.alone_opening
  readopen := by
    intro j
    by_cases hj : j = i
    · subst hj
      simp only [update_self, create]
      exact (h.no_holders hfree ReadMode).symm
    · simp only [update_of_ne hj]
      exact h.readopen j
  writeopen := by
    intro j
    by_cases hj : j = i
    · subst hj
      simp only [update_self, create]
      exact (h.no_holders hfree WriteMode).symm
    · simp only [update_of_ne hj]
      exact h.writeopen j
  distinct := by
    intro j k hj hk hpath
    by_cases hji : j = i
    · by_cases hki : k = i
      · rw [hji, hki]
      · subst hji
        simp only [update_self, update_of_ne hki, create, List.take_of_length_le hlen] at hk hpath
        exact absurd hpath.symm (hother k hk)
    · by_cases hki : k = i
      · subst hki
        simp only [update_self, update_of_ne hji, create, List.take_of_length_le hlen] at hj hpath
        exact absurd hpath (hother j hj)
      · simp only [update_of_ne hji, update_of_ne hki] at hj hk hpath
        exact h.distinct j k hj hk hpath
  used := by
    intro j hj
    by_cases hji : j = i
    · subst hji
      exact Or.inr (Or.inl ⟨pid, path, flags, update_self ..⟩)
    · simp only [update_of_ne hji] at hj
      rcases h.used j hj with hfile | hcall
      · exact Or.inl hfile
      · exact Or.inr (called_update hidle hcall)

theorem Inv.find (h : Inv σ) (hpath : path.length ≤ 255) (hmode : ReadMode flags ∨ WriteMode flags)
    (hstep : σ.step (.find pid path flags) = some σ') : Inv σ' := by
  simp only [step] at hstep
  split at hstep
  · rename_i hidle
    split at hstep
    · rename_i i table hfind
      cases hstep
      rcases FifoTable.findOrCreate_eq hfind with ⟨huse, hsame, rfl⟩ | ⟨hfree, hother, rfl⟩
      · exact h.begin hidle huse hsame hmode
      · exact h.take hidle hfree hother hpath hmode
    · rename_i table hfind
      cases hstep
      rw [FifoTable.findOrCreate_none hfind]
      exact h
  · exact absurd hstep (by simp)

/-- The process that ends its call is not one that closes. -/
theorem closing_of_update_none (h : update calls pid none pid' = some c) : pid' ≠ pid ∧ calls pid' = some c := by
  rcases update_eq_some h with ⟨-, hnew⟩ | hold
  · cases hnew
  · exact hold

theorem update_none_of_ne (hne : pid' ≠ pid) (h : calls pid' = some c) : update calls pid none pid' = some c := by
  rw [update_of_ne hne, h]

/-- A refused open ends, and somebody else counts the slot or will. -/
theorem Inv.refuse (h : Inv σ) (hcall : σ.calls pid = some (.opening i path flags))
    (hleft : (σ.table i).writeopen ≠ 0 ∨ σ.Awaited pid i) : Inv { σ with calls := update σ.calls pid none } where
  files := h.files
  opening := fun pid' i' path' flags' hcall' => h.opening pid' i' path' flags' (closing_of_update_none hcall').2
  closing := fun pid' i' hcall' => h.closing pid' i' (closing_of_update_none hcall').2
  alone := fun pid1 pid2 i' hcall1 hcall2 =>
    h.alone pid1 pid2 i' (closing_of_update_none hcall1).2 (closing_of_update_none hcall2).2
  readopen := h.readopen
  writeopen := h.writeopen
  distinct := h.distinct
  used := by
    intro j hj
    rcases h.used j hj with hfile | ⟨pid', path', flags', hcall'⟩ | ⟨pid', hcall'⟩
    · exact Or.inl hfile
    · by_cases hpid : pid' = pid
      · -- the slot of the call that ends
        subst hpid
        cases hcall.symm.trans hcall'
        rcases hleft with hwrite | ⟨pid2, hne, path2, flags2, hcall2⟩
        · exact Or.inl ((h.counted_iff i).mp (by omega))
        · exact Or.inr (Or.inl ⟨pid2, path2, flags2, update_none_of_ne hne hcall2⟩)
      · exact Or.inr (Or.inl ⟨pid', path', flags', update_none_of_ne hpid hcall'⟩)
    · refine Or.inr (Or.inr ⟨pid', update_none_of_ne ?_ hcall'⟩)
      rintro rfl
      cases hcall.symm.trans hcall'

/-- The counts of a mode and the files of that mode go up together. -/
theorem raise_eq (Mode : Nat → Prop) [DecidablePred Mode] {files : List OpenFifo} {count : Fifo → Nat}
    (hfi : count fi = count (table i) + if Mode flags then 1 else 0)
    (hcount : ∀ j, count (table j) = holders Mode files j) (j : Fin MAX_FIFOS) :
    count (update table i fi j) = holders Mode (⟨i, flags, path⟩ :: files) j := by
  rw [holders_cons, ← hcount]
  by_cases hj : j = i
  · subst hj
    simp only [update_self, hfi, true_and]
  · simp only [update_of_ne hj, Ne.symm hj, false_and, if_false, Nat.add_zero]

/-- An open that is not refused counts itself. -/
theorem Inv.count (h : Inv σ) (hcall : σ.calls pid = some (.opening i path flags)) (hlock : σ.locked i = false) :
    Inv { σ with
      table := update σ.table i { σ.table i with
        readopen := (σ.table i).readopen + if ReadMode flags then 1 else 0
        writeopen := (σ.table i).writeopen + if WriteMode flags then 1 else 0 }
      calls := update σ.calls pid none
      files := ⟨i, flags, path⟩ :: σ.files } where
  files := by
    intro f hf
    simp only [update_same Fifo.inUse, update_same Fifo.path]
    rcases List.mem_cons.mp hf with rfl | hold
    · exact h.opening pid i path flags hcall
    · exact h.files f hold
  opening := by
    intro pid' i' path' flags' hcall'
    simp only [update_same Fifo.inUse, update_same Fifo.path]
    exact h.opening pid' i' path' flags' (closing_of_update_none hcall').2
  closing := by
    intro pid' i' hcall'
    obtain ⟨hlocked, huse, hnone⟩ := h.closing pid' i' (closing_of_update_none hcall').2
    simp only [update_same Fifo.inUse]
    refine ⟨hlocked, huse, fun f hf => ?_⟩
    rcases List.mem_cons.mp hf with rfl | hold
    · rintro rfl
      exact absurd hlock (by simp [hlocked])
    · exact hnone f hold
  alone := fun pid1 pid2 i' hcall1 hcall2 =>
    h.alone pid1 pid2 i' (closing_of_update_none hcall1).2 (closing_of_update_none hcall2).2
  readopen := raise_eq ReadMode rfl h.readopen
  writeopen := raise_eq WriteMode rfl h.writeopen
  distinct := by
    intro j k hj hk hpath
    simp only [update_same Fifo.inUse, update_same Fifo.path] at hj hk hpath
    exact h.distinct j k hj hk hpath
  used := by
    intro j hj
    simp only [update_same Fifo.inUse] at hj
    rcases h.used j hj with ⟨f, hf, hslot⟩ | ⟨pid', path', flags', hcall'⟩ | ⟨pid', hcall'⟩
    · exact Or.inl ⟨f, List.mem_cons_of_mem _ hf, hslot⟩
    · by_cases hpid : pid' = pid
      · subst hpid
        cases hcall.symm.trans hcall'
        exact Or.inl ⟨_, List.mem_cons_self, rfl⟩
      · exact Or.inr (Or.inl ⟨pid', path', flags', update_none_of_ne hpid hcall'⟩)
    · refine Or.inr (Or.inr ⟨pid', update_none_of_ne ?_ hcall'⟩)
      rintro rfl
      cases hcall.symm.trans hcall'

theorem Inv.open (h : Inv σ) (hcareful : σ.Careful (.open pid)) (hstep : σ.step (.open pid) = some σ') : Inv σ' := by
  simp only [step] at hstep
  split at hstep
  · rename_i i path flags hcall
    by_cases hlock : σ.locked i = true
    · simp [hlock] at hstep
    · rw [if_neg hlock] at hstep
      by_cases hrefuse : (σ.table i).Refuses flags
      · simp only [openSection, if_pos hrefuse, Function.update_eq_self, Bool.false_eq_true, if_false,
          Option.some.injEq] at hstep
        subst hstep
        exact h.refuse hcall (hcareful i path flags hcall hrefuse)
      · simp only [openSection_eq hrefuse, if_true, Option.some.injEq] at hstep
        subst hstep
        exact h.count hcall (Bool.not_eq_true _ |>.mp hlock)
  · exact absurd hstep (by simp)

/-- A close in progress holds its lock. -/
theorem Inv.closing_ne (h : Inv σ) {j : Fin MAX_FIFOS} (hlock : σ.locked i = false)
    (hcall : σ.calls pid = some (.closing j)) : j ≠ i := by
  rintro rfl
  exact absurd (h.closing pid j hcall).1 (by simp [hlock])

/-- The counts of a mode and the files of that mode go down together. -/
theorem lower_eq (Mode : Nat → Prop) [DecidablePred Mode] {files : List OpenFifo} {count : Fifo → Nat}
    (hf : f ∈ files) (hmode : Mode flags ↔ Mode f.flags)
    (hfi : count fi = count (table f.slot) - if Mode flags then 1 else 0)
    (hcount : ∀ j, count (table j) = holders Mode files j) (j : Fin MAX_FIFOS) :
    count (update table f.slot fi j) = holders Mode (files.erase f) j := by
  rw [holders_erase Mode j hf, ← hcount]
  by_cases hj : j = f.slot
  · subst hj
    simp only [update_self, hfi, hmode, true_and]
  · simp only [update_of_ne hj, Ne.symm hj, false_and, if_false, Nat.sub_zero]

/-- The table and the files after the counts of a file's slot have been lowered. -/
structure Lowered (σ : FifoSys) (f : OpenFifo) (fi : Fifo) : Prop where
  in_use : ∀ j, (update σ.table f.slot fi j).inUse = (σ.table j).inUse
  path : ∀ j, (update σ.table f.slot fi j).path = (σ.table j).path
  readopen : ∀ j, (update σ.table f.slot fi j).readopen = holders ReadMode (σ.files.erase f) j
  writeopen : ∀ j, (update σ.table f.slot fi j).writeopen = holders WriteMode (σ.files.erase f) j

theorem Inv.lowered (h : Inv σ) (hf : f ∈ σ.files) (hmode : flags &&& O_ACCMODE = f.flags &&& O_ACCMODE) :
    Lowered σ f ((σ.table f.slot).closeSection flags) := by
  rw [closeSection_eq]
  exact
    { in_use := update_same Fifo.inUse rfl
      path := update_same Fifo.path rfl
      readopen := lower_eq ReadMode hf (readMode_congr hmode) rfl h.readopen
      writeopen := lower_eq WriteMode hf (writeMode_congr hmode) rfl h.writeopen }

namespace Lowered

variable {fi : Fifo}

theorem files (hl : Lowered σ f fi) (h : Inv σ) (g : OpenFifo) (hg : g ∈ σ.files.erase f) :
    (update σ.table f.slot fi g.slot).inUse = true ∧ (update σ.table f.slot fi g.slot).path = g.path ∧
      (ReadMode g.flags ∨ WriteMode g.flags) := by
  rw [hl.in_use, hl.path]
  exact h.files g (List.mem_of_mem_erase hg)

theorem opening (hl : Lowered σ f fi) (h : Inv σ) (hcall : σ.calls pid = some (.opening i path flags)) :
    (update σ.table f.slot fi i).inUse = true ∧ (update σ.table f.slot fi i).path = path ∧
      (ReadMode flags ∨ WriteMode flags) := by
  rw [hl.in_use, hl.path]
  exact h.opening pid i path flags hcall

theorem distinct (hl : Lowered σ f fi) (h : Inv σ) (j k : Fin MAX_FIFOS)
    (hj : (update σ.table f.slot fi j).inUse = true) (hk : (update σ.table f.slot fi k).inUse = true)
    (hpath : (update σ.table f.slot fi j).path = (update σ.table f.slot fi k).path) : j = k := by
  rw [hl.in_use] at hj hk
  rw [hl.path, hl.path] at hpath
  exact h.distinct j k hj hk hpath

/-- The slot is still counted exactly if another file is on it. -/
theorem counted_iff (hl : Lowered σ f fi) (h : Inv σ) :
    fi.readopen = 0 ∧ fi.writeopen = 0 ↔ ∀ g ∈ σ.files.erase f, g.slot ≠ f.slot := by
  have hread := hl.readopen f.slot
  have hwrite := hl.writeopen f.slot
  rw [update_self] at hread hwrite
  rw [hread, hwrite, ← Nat.le_zero, ← Nat.le_zero, ← Nat.not_lt, ← Nat.not_lt, holders_pos, holders_pos]
  constructor
  · rintro ⟨hr, hw⟩ g hg hslot
    rcases (hl.files h g hg).2.2 with hmode | hmode
    · exact hr ⟨g, hg, hslot, hmode⟩
    · exact hw ⟨g, hg, hslot, hmode⟩
  · intro hnone
    refine ⟨?_, ?_⟩
    · rintro ⟨g, hg, hslot, -⟩
      exact hnone g hg hslot
    · rintro ⟨g, hg, hslot, -⟩
      exact hnone g hg hslot

/-- The files of other slots stay. -/
theorem stays {j : Fin MAX_FIFOS} (hj : j ≠ f.slot) (hfile : ∃ g ∈ σ.files, g.slot = j) :
    ∃ g ∈ σ.files.erase f, g.slot = j := by
  obtain ⟨g, hg, rfl⟩ := hfile
  exact ⟨g, (List.mem_erase_of_ne fun heq => hj (by rw [heq])).mpr hg, rfl⟩

end Lowered

/-- A close that leaves the slot counted. -/
theorem Inv.closeOne (h : Inv σ) (hl : Lowered σ f fi) (hcount : ¬(fi.readopen = 0 ∧ fi.writeopen = 0)) :
    Inv { σ with table := update σ.table f.slot fi, files := σ.files.erase f } where
  files := hl.files h
  opening := fun _ _ _ _ hcall => hl.opening h hcall
  closing := by
    intro pid' j hcall
    obtain ⟨hlocked, huse, hnone⟩ := h.closing pid' j hcall
    exact ⟨hlocked, (hl.in_use j).trans huse, fun g hg => hnone g (List.mem_of_mem_erase hg)⟩
  alone := h.alone
  readopen := hl.readopen
  writeopen := hl.writeopen
  distinct := hl.distinct h
  used := by
    intro j hj
    by_cases hslot : j = f.slot
    · rw [hl.counted_iff h] at hcount
      push Not at hcount
      obtain ⟨g, hg, hgslot⟩ := hcount
      exact Or.inl ⟨g, hg, hgslot.trans hslot.symm⟩
    · rcases h.used j ((hl.in_use j).symm.trans hj) with hfile | hcall
      · exact Or.inl (Lowered.stays hslot hfile)
      · exact Or.inr hcall

/-- The first half of the last close: the slot stays in use, and its lock is held. -/
theorem Inv.closeLast (h : Inv σ) (hl : Lowered σ f fi) (hcount : fi.readopen = 0 ∧ fi.writeopen = 0)
    (hidle : σ.calls pid = none) (hf : f ∈ σ.files) (hlock : σ.locked f.slot = false) :
    Inv { σ with
      table := update σ.table f.slot fi
      calls := update σ.calls pid (some (.closing f.slot))
      locked := update σ.locked f.slot true
      files := σ.files.erase f } where
  files := hl.files h
  opening := by
    intro pid' j path' flags' hcall
    rcases update_eq_some hcall with ⟨-, hnew⟩ | ⟨-, hold⟩
    · cases hnew
    · exact hl.opening h hold
  closing := by
    intro pid' j hcall
    rcases update_eq_some hcall with ⟨-, hnew⟩ | ⟨-, hold⟩
    · cases hnew
      exact ⟨update_self .., (hl.in_use _).trans (h.files f hf).1, (hl.counted_iff h).mp hcount⟩
    · obtain ⟨hlocked, huse, hnone⟩ := h.closing pid' j hold
      refine ⟨?_, (hl.in_use j).trans huse, fun g hg => hnone g (List.mem_of_mem_erase hg)⟩
      exact (update_of_ne (h.closing_ne hlock hold) true σ.locked).trans hlocked
  alone := by
    intro pid1 pid2 j hcall1 hcall2
    rcases update_eq_some hcall1 with ⟨rfl, hnew1⟩ | ⟨-, hold1⟩
    · rcases update_eq_some hcall2 with ⟨rfl, -⟩ | ⟨-, hold2⟩
      · rfl
      · cases hnew1
        exact absurd rfl (h.closing_ne hlock hold2)
    · rcases update_eq_some hcall2 with ⟨rfl, hnew2⟩ | ⟨-, hold2⟩
      · cases hnew2
        exact absurd rfl (h.closing_ne hlock hold1)
      · exact h.alone pid1 pid2 j hold1 hold2
  readopen := hl.readopen
  writeopen := hl.writeopen
  distinct := hl.distinct h
  used := by
    intro j hj
    by_cases hslot : j = f.slot
    · subst hslot
      exact Or.inr (Or.inr ⟨pid, update_self ..⟩)
    · rcases h.used j ((hl.in_use j).symm.trans hj) with hfile | hcall
      · exact Or.inl (Lowered.stays hslot hfile)
      · exact Or.inr (called_update hidle hcall)

theorem Inv.close (h : Inv σ) (hstep : σ.step (.close pid f flags) = some σ') : Inv σ' := by
  simp only [step] at hstep
  split at hstep
  · rename_i hcall
    obtain ⟨hidle, hf, hlock, hmode⟩ := hcall
    have hl := h.lowered hf hmode
    generalize (σ.table f.slot).closeSection flags = fi at hstep hl
    by_cases hcount : fi.readopen = 0 ∧ fi.writeopen = 0
    · rw [if_pos hcount] at hstep
      cases hstep
      exact h.closeLast hl hcount hidle hf hlock
    · rw [if_neg hcount] at hstep
      cases hstep
      exact h.closeOne hl hcount
  · exact absurd hstep (by simp)

/-- The last close clears a slot that nobody holds. -/
theorem Inv.clear (h : Inv σ) (hcareful : σ.Careful (.clear pid)) (hstep : σ.step (.clear pid) = some σ') : Inv σ' := by
  simp only [step] at hstep
  split at hstep
  · rename_i i hcall
    cases hstep
    obtain ⟨-, -, hnone⟩ := h.closing pid i hcall
    have hothers : ∀ pid' c, update σ.calls pid none pid' = some c → σ.calls pid' = some c ∧
        c ≠ .closing i ∧ ∀ path flags, c ≠ .opening i path flags := by
      intro pid' c hc
      obtain ⟨hne, hold⟩ := closing_of_update_none hc
      refine ⟨hold, ?_, ?_⟩
      · rintro rfl
        exact hne (h.alone pid' pid i hold hcall)
      · rintro path flags rfl
        exact hcareful i hcall ⟨pid', hne, path, flags, hold⟩
    have huse : ∀ j, j ≠ i → update σ.table i (σ.table i).clear j = σ.table j := fun j hj => update_of_ne hj _ _
    have hfree : ∀ j, (update σ.table i (σ.table i).clear j).inUse = true → j ≠ i := by
      rintro j hj rfl
      rw [update_self] at hj
      exact absurd hj (by simp [Fifo.clear])
    refine ⟨?_, ?_, ?_, ?_, ?_, ?_, ?_, ?_⟩
    · intro f hf
      simp only [huse f.slot (hnone f hf)]
      exact h.files f hf
    · intro pid' j path' flags' hc
      obtain ⟨hold, -, hne⟩ := hothers pid' _ hc
      have hj : j ≠ i := by
        rintro rfl
        exact hne path' flags' rfl
      simp only [huse j hj]
      exact h.opening pid' j path' flags' hold
    · intro pid' j hc
      obtain ⟨hold, hne, -⟩ := hothers pid' _ hc
      have hj : j ≠ i := by
        rintro rfl
        exact hne rfl
      simp only [huse j hj, update_of_ne hj]
      exact h.closing pid' j hold
    · exact fun pid1 pid2 j hc1 hc2 => h.alone pid1 pid2 j (hothers pid1 _ hc1).1 (hothers pid2 _ hc2).1
    · intro j
      simp only [update_same Fifo.readopen (show (σ.table i).clear.readopen = (σ.table i).readopen from rfl)]
      exact h.readopen j
    · intro j
      simp only [update_same Fifo.writeopen (show (σ.table i).clear.writeopen = (σ.table i).writeopen from rfl)]
      exact h.writeopen j
    · intro j k hj hk hpath
      simp only [huse j (hfree j hj), huse k (hfree k hk)] at hj hk hpath
      exact h.distinct j k hj hk hpath
    · intro j hj
      have hji := hfree j hj
      simp only [huse j hji] at hj
      have hkeep : ∀ pid' c, c ≠ .closing i → σ.calls pid' = some c → update σ.calls pid none pid' = some c := by
        intro pid' c hc hold
        refine update_none_of_ne ?_ hold
        rintro rfl
        exact hc (Option.some.inj (hold.symm.trans hcall))
      rcases h.used j hj with hfile | ⟨pid', path', flags', hc⟩ | ⟨pid', hc⟩
      · exact Or.inl hfile
      · exact Or.inr (Or.inl ⟨pid', path', flags', hkeep pid' _ (by simp) hc⟩)
      · exact Or.inr (Or.inr ⟨pid', hkeep pid' _ (by simpa using hji) hc⟩)
  · exact absurd hstep (by simp)

theorem Inv.step {e : FifoEvent} (h : Inv σ) (hcareful : σ.Careful e) (hstep : σ.step e = some σ') : Inv σ' := by
  cases e with
  | find pid path flags => exact h.find hcareful.1 hcareful.2 hstep
  | «open» pid => exact h.open hcareful hstep
  | close pid f flags => exact h.close hstep
  | clear pid => exact h.clear hcareful hstep

/-! ## Runs -/

/-- A section of some process. -/
def Step (σ σ' : FifoSys) : Prop := ∃ e, σ.step e = some σ'

/-- A section as the table can bear it. -/
def CarefulStep (σ σ' : FifoSys) : Prop := ∃ e, σ.Careful e ∧ σ.step e = some σ'

theorem Inv.kept (h : Inv σ) : Kept σ where
  carries := fun f hf => ⟨(h.files f hf).1, (h.files f hf).2.1⟩
  apart := by
    intro f hf g hg hne hslot
    refine hne ?_
    rw [← (h.files f hf).2.1, ← (h.files g hg).2.1, hslot]

/-- The files of a slot in use are the files of its path. -/
theorem Inv.holders_eq (h : Inv σ) (Mode : Nat → Prop) [DecidablePred Mode] (huse : (σ.table i).inUse = true) :
    holders Mode σ.files i = σ.files.countP fun f => f.path = (σ.table i).path ∧ Mode f.flags := by
  refine List.countP_congr fun f hf => ?_
  have hslot : f.slot = i ↔ f.path = (σ.table i).path := by
    obtain ⟨hfuse, hfpath, -⟩ := h.files f hf
    constructor
    · rintro rfl
      exact hfpath.symm
    · intro hpath
      exact h.distinct f.slot i hfuse huse (hfpath.trans hpath)
  simp only [decide_eq_true_eq, hslot]

theorem Inv.consistent (h : Inv σ) (hquiet : Quiet σ) : Consistent σ where
  in_use := by
    intro i
    rw [h.counted_iff]
    constructor
    · intro huse
      rcases h.used i huse with hfile | ⟨pid, path, flags, hcall⟩ | ⟨pid, hcall⟩
      · exact hfile
      · exact absurd (hcall.symm.trans (hquiet pid)) (by simp)
      · exact absurd (hcall.symm.trans (hquiet pid)) (by simp)
    · rintro ⟨f, hf, rfl⟩
      exact (h.files f hf).1
  distinct := h.distinct
  readers := fun i huse => (h.readopen i).trans (h.holders_eq ReadMode huse)
  writers := fun i huse => (h.writeopen i).trans (h.holders_eq WriteMode huse)

/-- If every section of a run is one that the table can bear, every open file keeps its slot, and the table
is consistent whenever no call is in progress. -/
theorem fifo_table_consistent (data : Fin MAX_FIFOS → Nat → UInt8) (σ : FifoSys)
    (hrun : Reaches CarefulStep (init data) σ) : Kept σ ∧ (Quiet σ → Consistent σ) := by
  have hinv : Inv σ := hrun.invariant (init_inv data) fun _ _ h ⟨_, hcareful, hstep⟩ => h.step hcareful hstep
  exact ⟨hinv.kept, hinv.consistent⟩

/-- The table when a process has asked for the FIFO `f`. -/
def asked (flags : Nat) : FifoSys :=
  let σ := init fun _ _ => 0
  { σ with
    table := update σ.table 0 ((σ.table 0).create [102])
    calls := update σ.calls 0 (some (.opening 0 [102] flags)) }

theorem asked_step (flags : Nat) : (init fun _ _ => 0).step (.find 0 [102] flags) = some (asked flags) := rfl

/-- The table when the process has the FIFO open for reading. -/
def opened : FifoSys :=
  let σ := asked O_RDONLY
  { σ with
    table := update σ.table 0 { σ.table 0 with readopen := 1 }
    calls := update σ.calls 0 none
    files := [⟨0, O_RDONLY, [102]⟩] }

/-- The table when the process has asked for the FIFO to write only and without blocking. -/
def refused : FifoSys :=
  let σ := asked (O_WRONLY ||| O_NONBLOCK)
  { σ with
    table := update σ.table 0 (σ.table 0)
    calls := update σ.calls 0 none }

theorem quiet_of_asked (flags pid : Nat) : update (asked flags).calls 0 none pid = none := by
  by_cases hpid : pid = 0
  · rw [hpid, update_self]
  · rw [update_of_ne hpid]
    exact update_of_ne hpid _ _

theorem fifo_table_consistent_opened : Kept opened ∧ Consistent opened := by
  have hopen : (asked O_RDONLY).step (.open 0) = some opened := rfl
  have hfind : CarefulStep (init fun _ _ => 0) (asked O_RDONLY) :=
    ⟨.find 0 [102] O_RDONLY, ⟨by decide, Or.inl (Or.inl rfl)⟩, asked_step O_RDONLY⟩
  have hcareful : (asked O_RDONLY).Careful (.open 0) := by
    intro i path flags hcall hrefuse
    cases hcall
    exact absurd hrefuse.1 (by decide)
  have h := fifo_table_consistent (fun _ _ => 0) opened ((Relation.ReflTransGen.single hfind).tail ⟨.open 0, hcareful, hopen⟩)
  exact ⟨h.1, h.2 (quiet_of_asked O_RDONLY)⟩

/-- A refused open of a new FIFO leaves its slot in use for nobody. -/
theorem refused_open_leaks :
    Reaches Step (init fun _ _ => 0) refused ∧ Quiet refused ∧ (refused.table 0).inUse = true ∧
      (refused.table 0).readopen + (refused.table 0).writeopen = 0 ∧ ¬Consistent refused := by
  have hopen : (asked (O_WRONLY ||| O_NONBLOCK)).step (.open 0) = some refused := rfl
  have hrun : Reaches Step (init fun _ _ => 0) refused :=
    (Relation.ReflTransGen.single ⟨.find 0 [102] (O_WRONLY ||| O_NONBLOCK), asked_step _⟩).tail ⟨.open 0, hopen⟩
  refine ⟨hrun, quiet_of_asked _, rfl, rfl, fun h => ?_⟩
  exact absurd ((h.in_use 0).mp rfl) (by decide)

end FifoSys

end SC7
