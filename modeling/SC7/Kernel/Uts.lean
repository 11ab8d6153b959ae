-- SUMMARY: UTS namespaces (`namespace.c`): the calls that create, inherit, replace and drop one, and that the counts are right along every run.
import Mathlib.Algebra.BigOperators.Ring.Finset
import SC7.Base.Tally
import SC7.Kernel.Exec
import SC7.Kernel.Process

/-!
# UTS namespaces

A process refers to one namespace by its number. Namespace 0 is there from the start and is not
counted; the others live as long as their count is positive. `fork` inherits the number and takes a
reference, `clone` starts at 0, `CLONE_NEWUTS` and `unshare` replace the number, and `freeproc` drops
the reference of a process that is reaped.

A step is one whole call. The panics of `clone` end the run.
-/

namespace SC7.Uts

open Function (update update_of_ne update_self)
open Exec (Str str)
open Process (Slot ProcState PID_MAX NPROC)

def MAX_UTS_NAMESPACES : Nat := 64
def DEFAULTHOSTNAME : Str := str "DOGE"

def EPERM : Int := 1
def ENOMEM : Int := 12
def EINVAL : Int := 22

def CLONE_VM : UInt64 := 0x00000100
def CLONE_NEWNS : UInt64 := 0x00020000
def CLONE_NEWCGROUP : UInt64 := 0x02000000
def CLONE_NEWUTS : UInt64 := 0x04000000
def CLONE_NEWIPC : UInt64 := 0x08000000
def CLONE_NEWUSER : UInt64 := 0x10000000
def CLONE_NEWPID : UInt64 := 0x20000000
def CLONE_NEWNET : UInt64 := 0x40000000

/-- The flags that need a privilege. -/
def privileged : UInt64 :=
  CLONE_NEWUTS ||| CLONE_NEWNS ||| CLONE_NEWIPC ||| CLONE_NEWUSER ||| CLONE_NEWPID ||| CLONE_NEWNET

/-- `valid_flags` of `sys_unshare`. -/
def validFlags : UInt64 := privileged ||| CLONE_NEWCGROUP

/-- `struct uts_namespace`. -/
structure Namespace where
  used : Bool
  refCount : Int
  hostname : Str
  deriving DecidableEq

/-- The fields of `struct proc` that the calls below use. -/
structure Proc where
  state : ProcState
  pid : Int
  euid : Int
  utsNsId : Int
  deriving DecidableEq

structure Sys where
  /-- `uts_namespaces`; the code checks every index against its bounds. -/
  ns : Int → Namespace
  pool : Slot → Proc
  /-- The static `PID` of `allocpid`. -/
  nextPid : Nat

namespace Sys

variable (s : Sys)

def setProc (p : Slot) (pr : Proc) : Sys := { s with pool := update s.pool p pr }

def setNs (id : Int) (n : Namespace) : Sys := { s with ns := update s.ns id n }

/-! ## `namespace.c` -/

/-- `id >= 0 && id < MAX_UTS_NAMESPACES && uts_namespaces[id].used`. -/
def isUsed (id : Int) : Prop := 0 ≤ id ∧ id < MAX_UTS_NAMESPACES ∧ (s.ns id).used = true

instance (id : Int) : Decidable (s.isUsed id) := inferInstanceAs (Decidable (_ ∧ _ ∧ _))

def createUtsNamespace (parentNsId : Int) : Int × Sys :=
  match (List.range' 1 (MAX_UTS_NAMESPACES - 1)).find? fun i : Nat => !(s.ns i).used with
  | none => (-1, s)
  | some i =>
    let hostname := if s.isUsed parentNsId then (s.ns parentNsId).hostname else DEFAULTHOSTNAME
    (i, s.setNs i ⟨true, 1, hostname⟩)

def utsNamespaceGet (id : Int) : Sys :=
  if s.isUsed id then s.setNs id { s.ns id with refCount := (s.ns id).refCount + 1 } else s

def utsNamespacePut (id : Int) : Sys :=
  if id ≤ 0 ∨ id ≥ MAX_UTS_NAMESPACES ∨ (s.ns id).used = false then s
  else if (s.ns id).refCount - 1 ≤ 0 then s.setNs id ⟨false, 0, []⟩
  else s.setNs id { s.ns id with refCount := (s.ns id).refCount - 1 }

/-! ## `process.c` -/

def allocpid : Int × Sys :=
  (if s.nextPid > PID_MAX then -1 else s.nextPid, { s with nextPid := s.nextPid + 1 })

/-- `allocproc`. The slot stays unused if there is no process ID for it. -/
def allocproc : Option Slot × Sys :=
  match (List.finRange NPROC).find? fun p => (s.pool p).state = .unused with
  | none => (none, s)
  | some p =>
    let (pid, s) := s.allocpid
    if pid < 0 then (none, s.setProc p { s.pool p with pid := pid })
    else (some p, s.setProc p ⟨.used, pid, 0, 0⟩)

def getproc (pid : Int) : Option Slot := (List.finRange NPROC).find? fun p => (s.pool p).pid = pid

def fork (p : Slot) : Int × Sys :=
  match s.allocproc with
  | (none, s) => (-1, s)
  | (some np, s) =>
    let s := s.setProc np { s.pool np with euid := (s.pool p).euid, utsNsId := (s.pool p).utsNsId }
    let s := s.utsNamespaceGet (s.pool np).utsNsId
    ((s.pool np).pid, s.setProc np { s.pool np with state := .runnable })

/-- `clone`, for a process with a stack of its own. It panics (`none`) without a free slot, and if the
arguments on the stack cannot be read or the IDs cannot be written. -/
def clone (p : Slot) (flags : UInt64) (copies : Bool) : Option (Int × Sys) :=
  match s.allocproc with
  | (none, _) => none
  | (some np, s) =>
    let s := s.setProc np { s.pool np with euid := (s.pool p).euid }
    let s :=
      if flags &&& CLONE_NEWUTS ≠ 0 then
        let (newNsId, s) := s.createUtsNamespace (s.pool p).utsNsId
        if newNsId ≥ 0 then s.setProc np { s.pool np with utsNsId := newNsId } else s
      else s
    if copies then some ((s.pool np).pid, s.setProc np { s.pool np with state := .runnable }) else none

/-- `freeproc`. -/
def freeproc (p : Slot) : Sys :=
  let s := s.utsNamespacePut (s.pool p).utsNsId
  s.setProc p { s.pool p with pid := 0, state := .unused }

/-! ## System calls -/

/-- The part of `sys_clone` behind `fork`. -/
def newUts (p : Slot) (pid : Int) : Option Sys :=
  match s.getproc pid with
  | none => none
  | some np =>
    let parentNsId := (s.pool p).utsNsId
    let (newNsId, s) := s.createUtsNamespace parentNsId
    if newNsId ≥ 0 then
      let s := s.utsNamespacePut parentNsId
      some (s.setProc np { s.pool np with utsNsId := newNsId })
    else some s

/-- `sys_clone`. A new thread takes a number from `allocpid` and has no namespace of its own. -/
def sysClone (p : Slot) (flags stack : UInt64) (copies : Bool) : Option (Int × Sys) :=
  if flags &&& privileged ≠ 0 ∧ (s.pool p).euid ≠ 0 then some (-EPERM, s)
  else if stack = 0 then
    let (pid, s) := s.fork p
    if pid > 0 ∧ flags &&& CLONE_NEWUTS ≠ 0 then (s.newUts p pid).map fun s => (pid, s)
    else some (pid, s)
  else if flags &&& CLONE_VM ≠ 0 then some s.allocpid
  else s.clone p flags copies

/-- `sys_unshare`. -/
def sysUnshare (p : Slot) (flags : UInt64) : Int × Sys :=
  if flags &&& ~~~validFlags ≠ 0 then (-EINVAL, s)
  else if flags &&& privileged ≠ 0 ∧ (s.pool p).euid ≠ 0 then (-EPERM, s)
  else if flags &&& CLONE_NEWUTS ≠ 0 then
    let parentNsId := (s.pool p).utsNsId
    let (newNsId, s) := s.createUtsNamespace parentNsId
    if newNsId < 0 then (-ENOMEM, s)
    else
      let s := if parentNsId ≠ 0 then s.utsNamespacePut parentNsId else s
      (0, s.setProc p { s.pool p with utsNsId := newNsId })
  else (0, s)

/-- After `proc_init` and the `allocproc` of the first process. -/
def booted : Sys where
  ns id := if id = 0 then ⟨true, 1, DEFAULTHOSTNAME⟩ else ⟨false, 0, []⟩
  pool p := if p.val = 0 then ⟨.runnable, 1, 0, 0⟩ else ⟨.unused, 0, 0, 0⟩
  nextPid := 2

/-- One call of a live process, whatever it returns; or something that does not touch the namespaces. -/
inductive Step (s : Sys) : Sys → Prop where
  | fork (p : Slot) (hlive : (s.pool p).state ≠ .unused) : Step s (s.fork p).2
  | clone (p : Slot) (flags stack : UInt64) (copies : Bool) (ret : Int) (s' : Sys)
      (hlive : (s.pool p).state ≠ .unused) (hcall : s.sysClone p flags stack copies = some (ret, s')) : Step s s'
  | unshare (p : Slot) (flags : UInt64) (hlive : (s.pool p).state ≠ .unused) : Step s (s.sysUnshare p flags).2
  /-- `waitpid` or `waitid` frees a child that is a zombie. -/
  | reap (p : Slot) (hzombie : (s.pool p).state = .zombie) : Step s (s.freeproc p)
  /-- The process sleeps, runs, or becomes a zombie. -/
  | changeState (p : Slot) (state : ProcState) (hlive : (s.pool p).state ≠ .unused) (hstate : state ≠ .unused) :
      Step s (s.setProc p { s.pool p with state := state })
  /-- The process changes its user. -/
  | changeUser (p : Slot) (euid : Int) : Step s (s.setProc p { s.pool p with euid := euid })

/-! ## Counting the processes of a namespace -/

section Fields

variable {s : Sys} {p q : Slot} {pr : Proc} {id id' : Int} {n : Namespace}

@[simp] theorem setProc_ns : (s.setProc p pr).ns = s.ns := rfl

@[simp] theorem setProc_self : (s.setProc p pr).pool p = pr := update_self ..

theorem setProc_of_ne (h : q ≠ p) : (s.setProc p pr).pool q = s.pool q := update_of_ne h ..

@[simp] theorem setNs_pool : (s.setNs id n).pool = s.pool := rfl

@[simp] theorem setNs_self : (s.setNs id n).ns id = n := update_self ..

theorem setNs_of_ne (h : id' ≠ id) : (s.setNs id n).ns id' = s.ns id' := update_of_ne h ..

end Fields

/-- The live processes whose namespace this is. -/
def users (s : Sys) (id : Int) : Finset Slot :=
  Finset.univ.filter fun p => (s.pool p).state ≠ .unused ∧ (s.pool p).utsNsId = id

end Sys

open Tally (one one_self one_of_ne one_nonneg)

/-- The namespace that a slot refers to. -/
def Proc.ref (pr : Proc) : Option Int := if pr.state = .unused then none else some pr.utsNsId

def Sys.refs (s : Sys) (id : Int) : Int := ∑ p, one (s.pool p).ref id

/-- The counts are right but for these debts: `d id` is what the count is ahead of the references. -/
def Owes (s : Sys) (d : Int → Int) : Prop :=
  ∀ id, 1 ≤ id →
    (s.ns id).refCount = s.refs id + d id ∧ 0 ≤ (s.ns id).refCount ∧ ((s.ns id).used = true ↔ 0 < (s.ns id).refCount)

variable {s s' : Sys} {p q np : Slot} {pr : Proc} {id id' : Int} {d : Int → Int}

section Counts

theorem Proc.ref_of_live (h : pr.state ≠ .unused) : pr.ref = some pr.utsNsId := if_neg h

theorem Proc.ref_of_unused (h : pr.state = .unused) : pr.ref = none := if_pos h

theorem Sys.refs_eq_card (s : Sys) (id : Int) : s.refs id = (s.users id).card := by
  rw [users, Finset.card_filter, Nat.cast_sum, refs]
  refine Finset.sum_congr rfl fun p _ => ?_
  rw [one]
  by_cases hlive : (s.pool p).state = .unused
  · rw [Proc.ref_of_unused hlive, if_neg (Option.some_ne_none id).symm, if_neg fun h => h.1 hlive]
    rfl
  · rw [Proc.ref_of_live hlive]
    by_cases hid : (s.pool p).utsNsId = id
    · rw [if_pos (congrArg some hid), if_pos ⟨hlive, hid⟩]
      rfl
    · rw [if_neg fun h => hid (Option.some.inj h), if_neg fun h => hid h.2]
      rfl

theorem Sys.refs_setProc (s : Sys) (p : Slot) (pr : Proc) (id : Int) :
    (s.setProc p pr).refs id = s.refs id - one (s.pool p).ref id + one pr.ref id :=
  Tally.sum_update (fun pr : Proc => one pr.ref id) s.pool p pr

@[simp] theorem Sys.refs_setNs (s : Sys) (id id' : Int) (n : Namespace) : (s.setNs id n).refs id' = s.refs id' := rfl

/-- A live process is among the users of its namespace. -/
theorem Sys.refs_pos (hlive : (s.pool p).state ≠ .unused) : 0 < s.refs (s.pool p).utsNsId := by
  have hle : one (s.pool p).ref (s.pool p).utsNsId ≤ s.refs (s.pool p).utsNsId :=
    Tally.le_sum (w := fun q => one (s.pool q).ref (s.pool p).utsNsId) (fun _ => one_nonneg) p
  rw [Proc.ref_of_live hlive, one_self] at hle
  omega

end Counts

/-! ## The operations on namespaces -/

section Operations

theorem Owes.congr {d' : Int → Int} (h : Owes s d) (hd : ∀ id, 1 ≤ id → d id = d' id) : Owes s d' := by
  intro id hid
  rw [← hd id hid]
  exact h id hid

theorem Owes.setProc (h : Owes s d) (p : Slot) (pr : Proc) :
    Owes (s.setProc p pr) fun id => d id + one (s.pool p).ref id - one pr.ref id := by
  intro id hid
  obtain ⟨hcount, hnonneg, hused⟩ := h id hid
  rw [Sys.refs_setProc]
  refine ⟨?_, hnonneg, hused⟩
  simp only [Sys.setProc_ns]
  omega

/-- A change that leaves the reference of the slot leaves the debts. -/
theorem Owes.setProc_same (h : Owes s d) (hsame : pr.ref = (s.pool p).ref) : Owes (s.setProc p pr) d := by
  refine (h.setProc p pr).congr fun id _ => ?_
  rw [hsame]
  omega

theorem Owes.setNs (h : Owes s d) (id : Int) {n : Namespace} (hnonneg : 0 ≤ n.refCount)
    (hused : n.used = true ↔ 0 < n.refCount) :
    Owes (s.setNs id n) fun id' => d id' + (n.refCount - (s.ns id).refCount) * one (some id) id' := by
  intro id' hid'
  obtain ⟨hcount, hnonneg', hused'⟩ := h id' hid'
  by_cases heq : id' = id
  · subst heq
    rw [Sys.setNs_self]
    refine ⟨?_, hnonneg, hused⟩
    simp only [Sys.refs_setNs, one_self]
    omega
  · rw [Sys.setNs_of_ne heq]
    refine ⟨?_, hnonneg', hused'⟩
    simp only [Sys.refs_setNs, one_of_ne (Ne.symm heq)]
    omega

/-- A new namespace has a count of one and no user yet. -/
theorem createUtsNamespace_spec (h : Owes s d) (parent : Int) :
    s.createUtsNamespace parent = (-1, s) ∨
      ∃ (id : Int) (host : Str), 1 ≤ id ∧ id < MAX_UTS_NAMESPACES ∧ (s.ns id).used = false ∧
        s.createUtsNamespace parent = (id, s.setNs id ⟨true, 1, host⟩) ∧
        Owes (s.setNs id ⟨true, 1, host⟩) fun id' => d id' + one (some id) id' := by
  rw [Sys.createUtsNamespace]
  split
  · exact .inl rfl
  · rename_i i hfind
    have hmem := List.mem_of_find?_eq_some hfind
    have hfree : (s.ns i).used = false := by simpa using List.find?_some hfind
    rw [List.mem_range'_1] at hmem
    have hbound : i < MAX_UTS_NAMESPACES := by
      have := hmem.2
      simp only [MAX_UTS_NAMESPACES] at this ⊢
      omega
    refine .inr ⟨i, _, by omega, by exact_mod_cast hbound, hfree, rfl, ?_⟩
    have hzero : (s.ns i).refCount = 0 := by
      obtain ⟨-, hnonneg, hused⟩ := h i (by omega)
      rw [hfree] at hused
      have hnot : ¬0 < (s.ns i).refCount := fun hpos => nomatch hused.mpr hpos
      omega
    refine (h.setNs i (n := ⟨true, 1, _⟩) (by simp) (by simp)).congr fun id' _ => ?_
    show d id' + (1 - (s.ns i).refCount) * _ = _
    rw [hzero, Int.sub_zero, Int.one_mul]

theorem utsNamespaceGet_spec (h : Owes s d) (hpos : 1 ≤ id → id < MAX_UTS_NAMESPACES ∧ 0 < (s.ns id).refCount) :
    Owes (s.utsNamespaceGet id) fun id' => d id' + one (some id) id' := by
  rw [Sys.utsNamespaceGet]
  by_cases hid : 1 ≤ id
  · obtain ⟨hlt, hcount⟩ := hpos hid
    obtain ⟨-, hnonneg, hused⟩ := h id hid
    rw [if_pos ⟨by omega, hlt, hused.mpr hcount⟩]
    refine (h.setNs id (n := ⟨_, _, _⟩) (by show 0 ≤ (s.ns id).refCount + 1; omega) ?_).congr fun id' _ => ?_
    · exact ⟨fun _ => by show 0 < (s.ns id).refCount + 1; omega, fun _ => hused.mpr hcount⟩
    · show d id' + ((s.ns id).refCount + 1 - (s.ns id).refCount) * _ = _
      rw [show (s.ns id).refCount + 1 - (s.ns id).refCount = 1 by omega, Int.one_mul]
  · -- namespace 0 is not counted
    split
    · refine Owes.congr (d := d) (fun id' hid' => ?_) fun id' hid' => ?_
      · rw [Sys.setNs_of_ne (by omega)]
        exact h id' hid'
      · rw [one_of_ne (by omega), Int.add_zero]
    · refine h.congr fun id' hid' => ?_
      rw [one_of_ne (by omega), Int.add_zero]

theorem utsNamespacePut_spec (h : Owes s d) (hpos : 1 ≤ id → id < MAX_UTS_NAMESPACES ∧ 0 < (s.ns id).refCount) :
    Owes (s.utsNamespacePut id) fun id' => d id' - one (some id) id' := by
  rw [Sys.utsNamespacePut]
  by_cases hid : 1 ≤ id
  · obtain ⟨hlt, hcount⟩ := hpos hid
    obtain ⟨-, hnonneg, hused⟩ := h id hid
    have hin : (s.ns id).used = true := hused.mpr hcount
    rw [if_neg (by rw [hin]; simp; omega)]
    split
    · rename_i hlast
      refine (h.setNs id (n := ⟨false, 0, []⟩) le_rfl (by simp)).congr fun id' _ => ?_
      show d id' + (0 - (s.ns id).refCount) * _ = _
      rw [show 0 - (s.ns id).refCount = -1 by omega]
      omega
    · rename_i hmore
      refine (h.setNs id (n := ⟨_, _, _⟩) (by show 0 ≤ (s.ns id).refCount - 1; omega) ?_).congr fun id' _ => ?_
      · exact ⟨fun _ => by show 0 < (s.ns id).refCount - 1; omega, fun _ => hin⟩
      · show d id' + ((s.ns id).refCount - 1 - (s.ns id).refCount) * _ = _
        rw [show (s.ns id).refCount - 1 - (s.ns id).refCount = -1 by omega]
        omega
  · rw [if_pos (.inl (by omega))]
    refine h.congr fun id' hid' => ?_
    rw [one_of_ne (by omega), Int.sub_zero]

theorem createUtsNamespace_pool (s : Sys) (parent : Int) :
    (s.createUtsNamespace parent).2.pool = s.pool ∧ (s.createUtsNamespace parent).2.nextPid = s.nextPid := by
  rw [Sys.createUtsNamespace]
  split <;> exact ⟨rfl, rfl⟩

theorem utsNamespaceGet_pool (s : Sys) (id : Int) :
    (s.utsNamespaceGet id).pool = s.pool ∧ (s.utsNamespaceGet id).nextPid = s.nextPid := by
  rw [Sys.utsNamespaceGet]
  split <;> exact ⟨rfl, rfl⟩

theorem utsNamespacePut_pool (s : Sys) (id : Int) :
    (s.utsNamespacePut id).pool = s.pool ∧ (s.utsNamespacePut id).nextPid = s.nextPid := by
  rw [Sys.utsNamespacePut]
  split
  · exact ⟨rfl, rfl⟩
  · split <;> exact ⟨rfl, rfl⟩

/-- None of them frees namespace 0. -/
theorem utsNamespaceGet_root (h : (s.ns 0).used = true) : ((s.utsNamespaceGet id).ns 0).used = true := by
  rw [Sys.utsNamespaceGet]
  split
  · by_cases hid : 0 = id
    · subst hid
      rw [Sys.setNs_self]
      exact h
    · rw [Sys.setNs_of_ne hid]
      exact h
  · exact h

theorem utsNamespacePut_root (h : (s.ns 0).used = true) : ((s.utsNamespacePut id).ns 0).used = true := by
  rw [Sys.utsNamespacePut]
  split
  · exact h
  · rename_i hid
    have hne : (0 : Int) ≠ id := by omega
    split
    · rw [Sys.setNs_of_ne hne]
      exact h
    · rw [Sys.setNs_of_ne hne]
      exact h

end Operations

/-! ## The calls -/

section Calls

/-- The process table: the numbers of the namespaces are in bounds, and no two slots have the same
process ID. -/
structure Table (s : Sys) : Prop where
  bound : ∀ p, (s.pool p).state ≠ .unused → 0 ≤ (s.pool p).utsNsId ∧ (s.pool p).utsNsId < MAX_UTS_NAMESPACES
  pid : ∀ p, (s.pool p).pid < s.nextPid
  next : 1 ≤ s.nextPid
  unique : ∀ p q, 0 < (s.pool p).pid → (s.pool p).pid = (s.pool q).pid → p = q

/-- What holds between two parts of a call. -/
structure Ok (s : Sys) (d : Int → Int) : Prop where
  owes : Owes s d
  root : (s.ns 0).used = true
  table : Table s

theorem Table.congr (h : Table s) (hpool : s'.pool = s.pool ∧ s'.nextPid = s.nextPid) : Table s' := by
  obtain ⟨hpool, hnext⟩ := hpool
  refine ⟨?_, ?_, ?_, ?_⟩
  · rw [hpool]
    exact h.bound
  · rw [hpool, hnext]
    exact h.pid
  · rw [hnext]
    exact h.next
  · rw [hpool]
    exact h.unique

/-- A slot gets new contents. Its process ID must be one that no other slot has. -/
theorem Table.set (h : Table s) {next : Nat} (hnext : s.nextPid ≤ next) (hpid : pr.pid < next)
    (hfresh : 0 < pr.pid → ∀ q, q ≠ p → (s.pool q).pid ≠ pr.pid)
    (hbound : pr.state ≠ .unused → 0 ≤ pr.utsNsId ∧ pr.utsNsId < MAX_UTS_NAMESPACES) :
    Table ({ s with nextPid := next }.setProc p pr) := by
  have hcases : ∀ q, q = p ∧ (({ s with nextPid := next } : Sys).setProc p pr).pool q = pr ∨
      q ≠ p ∧ (({ s with nextPid := next } : Sys).setProc p pr).pool q = s.pool q := by
    intro q
    by_cases heq : q = p
    · exact .inl ⟨heq, by rw [heq, Sys.setProc_self]⟩
    · exact .inr ⟨heq, Sys.setProc_of_ne heq⟩
  refine ⟨fun q hlive => ?_, fun q => ?_, h.next.trans hnext, fun q q' hpos heq => ?_⟩
  · rcases hcases q with ⟨-, hq⟩ | ⟨-, hq⟩
    · rw [hq] at hlive ⊢
      exact hbound hlive
    · rw [hq] at hlive ⊢
      exact h.bound q hlive
  · rcases hcases q with ⟨-, hq⟩ | ⟨-, hq⟩
    · rw [hq]
      exact hpid
    · rw [hq]
      have := h.pid q
      show (s.pool q).pid < (next : Int)
      omega
  · rcases hcases q with ⟨rfl, hq⟩ | ⟨hne, hq⟩
    · rcases hcases q' with ⟨rfl, hq'⟩ | ⟨hne', hq'⟩
      · rfl
      · rw [hq, hq'] at heq
        rw [hq] at hpos
        exact absurd heq.symm (hfresh hpos q' hne')
    · rcases hcases q' with ⟨rfl, hq'⟩ | ⟨hne', hq'⟩
      · rw [hq, hq'] at heq
        rw [hq, heq] at hpos
        exact absurd heq (hfresh hpos q hne)
      · rw [hq] at hpos heq
        rw [hq'] at heq
        exact h.unique q q' hpos heq

/-- A slot that keeps its process ID. -/
theorem Table.setProc (h : Table s) (hpid : pr.pid = (s.pool p).pid)
    (hbound : pr.state ≠ .unused → 0 ≤ pr.utsNsId ∧ pr.utsNsId < MAX_UTS_NAMESPACES) : Table (s.setProc p pr) := by
  refine h.set le_rfl (hpid ▸ h.pid p) (fun hpos q hne heq => hne ?_) hbound
  exact (h.unique p q (hpid ▸ hpos) (hpid ▸ heq.symm)).symm

theorem refCount_pos (h : Owes s fun _ => 0) (ht : Table s) (hlive : (s.pool p).state ≠ .unused)
    (hid : 1 ≤ (s.pool p).utsNsId) :
    (s.pool p).utsNsId < MAX_UTS_NAMESPACES ∧ 0 < (s.ns (s.pool p).utsNsId).refCount := by
  refine ⟨(ht.bound p hlive).2, ?_⟩
  rw [(h _ hid).1, Int.add_zero]
  exact Sys.refs_pos hlive

/-- A process that no one refers to yet has namespace 0, which is not counted. -/
theorem one_zero (hid : 1 ≤ id) : one (some (0 : Int)) id = 0 := one_of_ne (by omega)

/-- `allocproc` either finds no slot or no process ID, or makes a process in namespace 0. -/
theorem allocproc_spec (h : Ok s fun _ => 0) :
    (s.allocproc.1 = none ∧ Ok s.allocproc.2 fun _ => 0) ∨
      ∃ np s', s.allocproc = (some np, s') ∧ (s.pool np).state = .unused ∧ Ok s' (fun _ => 0) ∧ s'.ns = s.ns ∧
        s'.pool np = ⟨.used, s.nextPid, 0, 0⟩ ∧ ∀ q, q ≠ np → s'.pool q = s.pool q := by
  rw [Sys.allocproc]
  split
  · exact .inl ⟨rfl, h⟩
  · rename_i np hfind
    have hunused : (s.pool np).state = .unused := by simpa using List.find?_some hfind
    have hmore : Owes { s with nextPid := s.nextPid + 1 } fun _ => 0 := h.owes
    simp only [Sys.allocpid]
    by_cases hmax : s.nextPid > PID_MAX
    · simp only [if_pos hmax, if_pos (show (-1 : Int) < 0 by decide)]
      refine .inl ⟨trivial, hmore.setProc_same ?_, h.root, h.table.set (Nat.le_succ _) ?_ nofun fun hlive => absurd hunused hlive⟩
      · exact (Proc.ref_of_unused hunused).trans (Proc.ref_of_unused hunused).symm
      · show (-1 : Int) < ((s.nextPid + 1 : Nat) : Int)
        omega
    · simp only [if_neg hmax, if_neg (show ¬(s.nextPid : Int) < 0 by omega)]
      refine .inr ⟨np, _, rfl, hunused, ⟨?_, h.root, h.table.set (Nat.le_succ _) ?_ (fun _ q _ => ?_) fun _ => ?_⟩, rfl,
        Sys.setProc_self, fun q hne => Sys.setProc_of_ne hne⟩
      · refine (hmore.setProc np ⟨.used, s.nextPid, 0, 0⟩).congr fun id hid => ?_
        have hold : Proc.ref (({ s with nextPid := s.nextPid + 1 } : Sys).pool np) = none := Proc.ref_of_unused hunused
        rw [hold, Tally.one_none]
        show 0 + 0 - one (some 0) id = 0
        rw [one_zero hid]
        rfl
      · show (s.nextPid : Int) < ((s.nextPid + 1 : Nat) : Int)
        omega
      · have := h.table.pid q
        show (s.pool q).pid ≠ (s.nextPid : Int)
        omega
      · show (0 : Int) ≤ 0 ∧ (0 : Int) < MAX_UTS_NAMESPACES
        decide

/-- A child that has been forked is in the namespace of its parent, and is found by its process ID. -/
theorem fork_spec (h : Ok s fun _ => 0) (hlive : (s.pool p).state ≠ .unused) :
    Ok (s.fork p).2 (fun _ => 0) ∧ (0 < (s.fork p).1 →
      (s.fork p).2.pool p = s.pool p ∧
        ∃ np, np ≠ p ∧ ((s.fork p).2.pool np).state ≠ .unused ∧ ((s.fork p).2.pool np).pid = (s.fork p).1 ∧
          ((s.fork p).2.pool np).utsNsId = (s.pool p).utsNsId) := by
  rw [Sys.fork]
  rcases allocproc_spec h with ⟨hnone, hok⟩ | ⟨np, s₁, halloc, hunused, hok, hns, hnp, hothers⟩
  · obtain ⟨s₁, halloc⟩ : ∃ s₁, s.allocproc = (none, s₁) := ⟨_, Prod.ext hnone rfl⟩
    rw [halloc] at hok ⊢
    exact ⟨hok, nofun⟩
  · rw [halloc]
    have hne : p ≠ np := by
      rintro rfl
      exact hlive hunused
    have hp : s₁.pool p = s.pool p := hothers p hne
    simp only [hnp, hp, Sys.setProc_self]
    -- the child refers to the namespace before it is counted
    generalize hchild : (⟨.used, s.nextPid, (s.pool p).euid, (s.pool p).utsNsId⟩ : Proc) = child
    have howes : Owes (s₁.setProc np child) fun id => -one (some (s.pool p).utsNsId) id := by
      refine (hok.owes.setProc np child).congr fun id hid => ?_
      rw [hnp, ← hchild]
      show 0 + one (some 0) id - _ = _
      rw [one_zero hid]
      show 0 + 0 - one (some (s.pool p).utsNsId) id = _
      omega
    have hpos : 1 ≤ (s.pool p).utsNsId →
        (s.pool p).utsNsId < MAX_UTS_NAMESPACES ∧ 0 < ((s₁.setProc np child).ns (s.pool p).utsNsId).refCount := by
      rw [Sys.setProc_ns, hns]
      exact refCount_pos h.owes h.table hlive
    have htable : Table (s₁.setProc np child) := by
      refine hok.table.setProc (by rw [hnp, ← hchild]) fun _ => ?_
      rw [← hchild]
      exact h.table.bound p hlive
    have hget : Owes ((s₁.setProc np child).utsNamespaceGet (s.pool p).utsNsId) fun _ => 0 :=
      (utsNamespaceGet_spec howes hpos).congr fun id _ => by omega
    have hpool := utsNamespaceGet_pool (s₁.setProc np child) (s.pool p).utsNsId
    have hchildpool : ((s₁.setProc np child).utsNamespaceGet (s.pool p).utsNsId).pool np = child := by
      rw [hpool.1, Sys.setProc_self]
    rw [hchildpool]
    have hstate : child.state = .used := by rw [← hchild]
    have hused : child.state ≠ .unused := by rw [hstate]; decide
    refine ⟨⟨hget.setProc_same ?_, utsNamespaceGet_root (s := s₁.setProc np child) hok.root,
      (htable.congr hpool).setProc ?_ fun _ => ?_⟩, fun _ => ⟨?_, np, Ne.symm hne, ?_, ?_, ?_⟩⟩
    · rw [hchildpool, Proc.ref_of_live hused, Proc.ref_of_live (by simp)]
    · rw [hchildpool]
    · rw [← hchild]
      exact h.table.bound p hlive
    · rw [Sys.setProc_of_ne hne, hpool.1, Sys.setProc_of_ne hne, hp]
    · simp
    · rw [Sys.setProc_self]
    · rw [Sys.setProc_self, ← hchild]

theorem getproc_spec (ht : Table s) (hpos : 0 < (s.pool np).pid) : s.getproc (s.pool np).pid = some np := by
  rw [Sys.getproc]
  cases hfind : (List.finRange NPROC).find? fun q => (s.pool q).pid = (s.pool np).pid with
  | none =>
    have := List.find?_eq_none.mp hfind np (List.mem_finRange np)
    simp at this
  | some q =>
    have heq : (s.pool q).pid = (s.pool np).pid := by simpa using List.find?_some hfind
    rw [ht.unique q np (heq ▸ hpos) heq]

/-- A process moves from its namespace to a new one: one reference goes, one comes. -/
theorem Ok.move (h : Ok s fun _ => 0) (hlive : (s.pool np).state ≠ .unused) (parent : Int)
    (hnew : 0 ≤ (s.createUtsNamespace parent).1) :
    Ok (((s.createUtsNamespace parent).2.utsNamespacePut (s.pool np).utsNsId).setProc np
      { s.pool np with utsNsId := (s.createUtsNamespace parent).1 }) fun _ => 0 := by
  rcases createUtsNamespace_spec h.owes parent with hfail | ⟨id, host, hlo, hhi, hfree, hcreate, howes⟩
  · rw [hfail] at hnew
    exact absurd hnew (show ¬(0 : Int) ≤ -1 by decide)
  · rw [hcreate]
    dsimp only
    -- the old namespace is in use, so it is not the new one
    have hpos : 1 ≤ (s.pool np).utsNsId → (s.pool np).utsNsId < MAX_UTS_NAMESPACES ∧
        0 < ((s.setNs id ⟨true, 1, host⟩).ns (s.pool np).utsNsId).refCount := by
      intro hid
      obtain ⟨hlt, hcount⟩ := refCount_pos h.owes h.table hlive hid
      have hused := (h.owes _ hid).2.2.mpr hcount
      have hne : (s.pool np).utsNsId ≠ id := by
        intro heq
        rw [heq, hfree] at hused
        cases hused
      rw [Sys.setNs_of_ne hne]
      exact ⟨hlt, hcount⟩
    have hput := utsNamespacePut_spec howes hpos
    have hpool := utsNamespacePut_pool (s.setNs id ⟨true, 1, host⟩) (s.pool np).utsNsId
    have hnp : ((s.setNs id ⟨true, 1, host⟩).utsNamespacePut (s.pool np).utsNsId).pool np = s.pool np := by
      rw [hpool.1, Sys.setNs_pool]
    have hmoved : ({ s.pool np with utsNsId := id } : Proc).state ≠ .unused := hlive
    refine ⟨(hput.setProc np _).congr fun id' _ => ?_, utsNamespacePut_root ?_, ?_⟩
    · rw [hnp, Proc.ref_of_live hlive, Proc.ref_of_live hmoved]
      show 0 + one (some id) id' - one (some (s.pool np).utsNsId) id' + one (some (s.pool np).utsNsId) id' -
        one (some id) id' = 0
      omega
    · rw [Sys.setNs_of_ne (by omega)]
      exact h.root
    · refine Table.setProc (h.table.congr ⟨hpool.1, hpool.2⟩) ?_ fun _ => ?_
      · rw [hnp]
      · exact ⟨by show 0 ≤ id; omega, hhi⟩

/-- The namespaces are full. -/
theorem createUtsNamespace_fail (h : Ok s d) (parent : Int) (hfail : ¬0 ≤ (s.createUtsNamespace parent).1) :
    (s.createUtsNamespace parent).2 = s := by
  rcases createUtsNamespace_spec h.owes parent with heq | ⟨id, host, hlo, -, -, heq, -⟩
  · rw [heq]
  · rw [heq] at hfail
    exact absurd (show 0 ≤ id by omega) hfail

section Calls

variable (h : Ok s fun _ => 0)

include h

/-- A child that has just been forked gets a namespace of its own, if there is one left. -/
theorem newUts_spec (hlive : (s.pool np).state ≠ .unused) (hpid : 0 < (s.pool np).pid)
    (hid : (s.pool np).utsNsId = (s.pool p).utsNsId) (hnew : s.newUts p (s.pool np).pid = some s') :
    Ok s' fun _ => 0 := by
  rw [Sys.newUts, getproc_spec h.table hpid] at hnew
  dsimp only at hnew
  split at hnew
  · rename_i hcreated
    cases hnew
    have hmove := h.move hlive (s.pool p).utsNsId hcreated
    rw [hid] at hmove
    have hpool : ((s.createUtsNamespace (s.pool p).utsNsId).2.utsNamespacePut (s.pool p).utsNsId).pool np =
        s.pool np := by
      rw [(utsNamespacePut_pool _ _).1, (createUtsNamespace_pool _ _).1]
    rw [hpool]
    exact hmove
  · rename_i hfail
    cases hnew
    rw [createUtsNamespace_fail h _ hfail]
    exact h

/-- The end of `clone`. -/
theorem Ok.start (hstate : (s.pool np).state = .used) :
    Ok (s.setProc np { s.pool np with state := .runnable }) fun _ => 0 := by
  have hlive : (s.pool np).state ≠ .unused := by rw [hstate]; decide
  refine ⟨h.owes.setProc_same ?_, h.root, h.table.setProc rfl fun _ => h.table.bound np hlive⟩
  rw [Proc.ref_of_live hlive, Proc.ref_of_live (by simp)]

theorem clone_spec {flags : UInt64} {copies : Bool} {ret : Int}
    (hcall : s.clone p flags copies = some (ret, s')) : Ok s' fun _ => 0 := by
  rw [Sys.clone] at hcall
  rcases allocproc_spec h with ⟨hnone, -⟩ | ⟨np, s₁, halloc, hunused, hok, hns, hnp, hothers⟩
  · obtain ⟨s₁, halloc⟩ : ∃ s₁, s.allocproc = (none, s₁) := ⟨_, Prod.ext hnone rfl⟩
    rw [halloc] at hcall
    cases hcall
  · rw [halloc] at hcall
    dsimp only at hcall
    split at hcall
    rotate_left
    · cases hcall
    cases hcall
    -- the child has its user, and is still in namespace 0
    generalize hs₂ : s₁.setProc np { s₁.pool np with euid := (s₁.pool p).euid } = s₂
    have hok₂ : Ok s₂ fun _ => 0 := by
      rw [← hs₂]
      exact ⟨hok.owes.setProc_same rfl, hok.root, hok.table.setProc rfl (hok.table.bound np)⟩
    have hnp₂ : (s₂.pool np).state = .used ∧ (s₂.pool np).utsNsId = 0 := by
      rw [← hs₂, Sys.setProc_self, hnp]
      exact ⟨rfl, rfl⟩
    split
    · split
      · rename_i hcreated
        have hlive₂ : (s₂.pool np).state ≠ .unused := by rw [hnp₂.1]; decide
        have hmove := hok₂.move hlive₂ (s₂.pool p).utsNsId hcreated
        have hput : (s₂.createUtsNamespace (s₂.pool p).utsNsId).2.utsNamespacePut (s₂.pool np).utsNsId =
            (s₂.createUtsNamespace (s₂.pool p).utsNsId).2 := by
          rw [hnp₂.2, Sys.utsNamespacePut, if_pos (.inl le_rfl)]
        rw [hput] at hmove
        refine Ok.start ?_ ?_
        · rw [(createUtsNamespace_pool _ _).1]
          exact hmove
        · rw [Sys.setProc_self, (createUtsNamespace_pool _ _).1]
          exact hnp₂.1
      · rename_i hfail
        rw [createUtsNamespace_fail hok₂ _ hfail]
        exact hok₂.start hnp₂.1
    · exact hok₂.start hnp₂.1

/-- A process ID that nobody has is taken. -/
theorem Ok.allocpid : Ok s.allocpid.2 fun _ => 0 :=
  ⟨h.owes, h.root,
    ⟨h.table.bound, fun q => (h.table.pid q).trans (by simp [Sys.allocpid]), Nat.le_succ_of_le h.table.next,
      h.table.unique⟩⟩

theorem sysClone_spec (hlive : (s.pool p).state ≠ .unused) {flags stack : UInt64}
    {copies : Bool} {ret : Int} (hcall : s.sysClone p flags stack copies = some (ret, s')) : Ok s' fun _ => 0 := by
  rw [Sys.sysClone] at hcall
  split at hcall
  · cases hcall
    exact h
  split at hcall
  · obtain ⟨hok, hchild⟩ := fork_spec h hlive
    dsimp only at hcall
    split at hcall
    · rename_i hflags
      obtain ⟨hp, np, hne, hnplive, hpid, hid⟩ := hchild hflags.1
      obtain ⟨s₂, hnew, heq⟩ := Option.map_eq_some_iff.mp hcall
      cases heq
      rw [← hpid] at hnew
      exact newUts_spec hok hnplive (hpid ▸ hflags.1) (by rw [hid, hp]) hnew
    · cases hcall
      exact hok
  split at hcall
  · cases hcall
    exact h.allocpid
  · exact clone_spec h hcall

theorem sysUnshare_spec (hlive : (s.pool p).state ≠ .unused) (flags : UInt64) :
    Ok (s.sysUnshare p flags).2 fun _ => 0 := by
  rw [Sys.sysUnshare]
  split
  · exact h
  split
  · exact h
  split
  · dsimp only
    split
    · rename_i hfail
      rw [createUtsNamespace_fail h _ (by omega)]
      exact h
    · rename_i hcreated
      have hmove := h.move hlive (s.pool p).utsNsId (by omega)
      -- the default namespace would not be dropped either
      have hput : (if (s.pool p).utsNsId ≠ 0 then
          (s.createUtsNamespace (s.pool p).utsNsId).2.utsNamespacePut (s.pool p).utsNsId
          else (s.createUtsNamespace (s.pool p).utsNsId).2) =
          (s.createUtsNamespace (s.pool p).utsNsId).2.utsNamespacePut (s.pool p).utsNsId := by
        split
        · rfl
        · rename_i hzero
          rw [Sys.utsNamespacePut, if_pos (.inl (by omega))]
      rw [hput, (utsNamespacePut_pool _ _).1, (createUtsNamespace_pool _ _).1]
      exact hmove
  · exact h

theorem freeproc_spec (hlive : (s.pool p).state ≠ .unused) : Ok (s.freeproc p) fun _ => 0 := by
  have hput := utsNamespacePut_spec h.owes (refCount_pos h.owes h.table hlive)
  have hpool := utsNamespacePut_pool s (s.pool p).utsNsId
  rw [Sys.freeproc]
  refine ⟨(hput.setProc p _).congr fun id _ => ?_, utsNamespacePut_root h.root, ?_⟩
  · rw [hpool.1, Proc.ref_of_live hlive, Proc.ref_of_unused rfl]
    simp
  · have hpid : ({ s.pool p with pid := 0, state := .unused } : Proc).pid <
        (s.utsNamespacePut (s.pool p).utsNsId).nextPid := by
      have hnext := h.table.next
      rw [hpool.2]
      show (0 : Int) < s.nextPid
      omega
    rw [hpool.1]
    exact Table.set (p := p) (h.table.congr hpool) le_rfl hpid nofun fun hne => absurd rfl hne

theorem Ok.step (hstep : Sys.Step s s') : Ok s' fun _ => 0 := by
  cases hstep with
  | fork p hlive => exact (fork_spec h hlive).1
  | clone p flags stack copies ret s' hlive hcall => exact sysClone_spec h hlive hcall
  | unshare p flags hlive => exact sysUnshare_spec h hlive flags
  | reap p hzombie => exact freeproc_spec h (by rw [hzombie]; decide)
  | changeState p state hlive hstate =>
    have hlive' : ({ s.pool p with state := state } : Proc).state ≠ .unused := hstate
    refine ⟨h.owes.setProc_same ?_, h.root, h.table.setProc rfl fun _ => h.table.bound p hlive⟩
    rw [Proc.ref_of_live hlive, Proc.ref_of_live hlive']
  | changeUser p euid => exact ⟨h.owes.setProc_same rfl, h.root, h.table.setProc rfl (h.table.bound p)⟩

end Calls

theorem ok_booted : Ok Sys.booted fun _ => 0 := by
  have hslot : ∀ p : Slot, Sys.booted.pool p = if p.val = 0 then ⟨.runnable, 1, 0, 0⟩ else ⟨.unused, 0, 0, 0⟩ :=
    fun _ => rfl
  refine ⟨fun id hid => ?_, rfl, ⟨fun p hlive => ?_, fun p => ?_, by decide, fun p q hpos heq => ?_⟩⟩
  · have hns : Sys.booted.ns id = ⟨false, 0, []⟩ := if_neg (by omega)
    have hrefs : Sys.booted.refs id = 0 := by
      refine Finset.sum_eq_zero fun p _ => ?_
      rw [hslot]
      split
      · exact one_zero hid
      · rfl
    rw [hns, hrefs]
    exact ⟨rfl, le_rfl, by simp⟩
  · rw [hslot] at hlive ⊢
    split
    · exact ⟨le_rfl, by decide⟩
    · exact ⟨le_rfl, by decide⟩
  · rw [hslot]
    show _ < ((2 : Nat) : Int)
    split <;> decide
  · rw [hslot] at hpos heq
    rw [hslot] at heq
    have hp : p.val = 0 := by
      by_contra hne
      rw [if_neg hne] at hpos
      exact absurd hpos (by decide)
    have hq : q.val = 0 := by
      by_contra hne
      rw [if_pos hp, if_neg hne] at heq
      exact absurd heq (by decide)
    exact Fin.ext (hp.trans hq.symm)

/-- In every state of every run, the count of a namespace other than 0 is the number of live processes
in it, it is in use exactly if there is one, and namespace 0 is in use. -/
theorem uts_namespaces_counted (hrun : Reaches Sys.Step Sys.booted s) :
    (∀ id, 1 ≤ id → (s.ns id).refCount = (s.users id).card ∧ ((s.ns id).used = true ↔ 0 < (s.users id).card)) ∧
      (s.ns 0).used = true := by
  have hok : Ok s fun _ => 0 := hrun.invariant (I := fun s => Ok s fun _ => 0) ok_booted fun _ _ h hstep => h.step hstep
  refine ⟨fun id hid => ?_, hok.root⟩
  obtain ⟨hcount, -, hused⟩ := hok.owes id hid
  rw [Sys.refs_eq_card, Int.add_zero] at hcount
  refine ⟨hcount, hused.trans ?_⟩
  rw [hcount]
  exact Int.natCast_pos

end Calls

/-- The first process leaves namespace 0 with `unshare(CLONE_NEWUTS)`. -/
theorem uts_namespaces_counted_unshare :
    ((Sys.booted.sysUnshare Process.initproc CLONE_NEWUTS).2.ns 1).refCount = 1 ∧
      ((Sys.booted.sysUnshare Process.initproc CLONE_NEWUTS).2.users 1).card = 1 := by
  have hrun : Reaches Sys.Step Sys.booted (Sys.booted.sysUnshare Process.initproc CLONE_NEWUTS).2 :=
    .single (.unshare Process.initproc CLONE_NEWUTS (by decide))
  have hone : ((Sys.booted.sysUnshare Process.initproc CLONE_NEWUTS).2.ns 1).refCount = 1 := by rfl
  have hcount := ((uts_namespaces_counted hrun).1 1 le_rfl).1
  exact ⟨hone, by rw [hone] at hcount; exact_mod_cast hcount.symm⟩

end SC7.Uts
