-- SUMMARY: The paths of procfs (`procfs.c`): the recognisers behind `check_proc_path`, and for which paths they recognise exactly the files there are.
import SC7.Base.CString
import SC7.Kernel.Exec

/-!
# Paths of procfs

`check_proc_path` asks one recogniser after the other. Each compares the start of the path, skips to the next
slash, compares what follows it, and reads the process id in between. The lengths are differences of pointers
as `int`s.

A path is given by its bytes in front of the terminator, and a read behind the terminator is a failure.
-/

namespace SC7.Procfs

open Exec (Str str)
open CString (IsDigit decimal)

def slash : UInt8 := 47

abbrev FD_PROC_STAT : Nat := 100
abbrev FD_PROC_STATUS : Nat := 101
abbrev FD_PROC_PIDMAX : Nat := 110
abbrev FD_PROC_TAINTED : Nat := 111
abbrev FD_PROC_INTERRUPTS : Nat := 112
abbrev FD_PROC_CPUINFO : Nat := 113
abbrev FD_PROC_TASK_DIR : Nat := 114
abbrev FD_PROC_TASK_STAT : Nat := 115

/-! ## The recognisers -/

/-- The check of `parseNumber`, along the list and not over all bytes there are. -/
instance decidableDigits (digits : Str) : Decidable (∀ b ∈ digits, IsDigit b) := List.decidableBAll IsDigit digits

/-- The number between two positions, copied to `pid_str[16]`; `none` inside for a return of 0. -/
def parseNumber (path : Str) (start stop : Nat) : Option (Option Int) := do
  let len := Int.bmod ((stop : Int) - start) (2 ^ 32)
  if len ≤ 0 ∨ 16 ≤ len then return none
  let digits ← CString.strncpy path start len.toNat
  if ∀ b ∈ digits, IsDigit b then return some (CString.atoi digits) else return none

/-- The process id between two positions; `self` is that of the caller. -/
def parsePid (self : Int) (path : Str) (start stop : Nat) : Option (Option Int) := do
  if (← CString.strncmp path start (str "self") 4) = 0 then return some self
  else parseNumber path start stop

/-- The return value and `*pid` after a process id has been read or not. -/
def store (pid : Int) : Option Int → Bool × Int
  | none => (false, pid)
  | some value => (true, value)

/-- `is_proc_pid_stat` and `is_proc_pid_status`, for the rest of the path behind the process id. -/
def isProcPid (tail : Str) (self : Int) (path : Str) (pid : Int) : Option (Bool × Int) := do
  if (← CString.strncmp path 0 (str "/proc/") 6) ≠ 0 then return (false, pid)
  match ← CString.strchr path 6 slash with
  | none => return (false, pid)
  | some stop =>
    if (← CString.strcmp path stop tail) ≠ 0 then return (false, pid)
    return store pid (← parsePid self path 6 stop)

def isProcPidStat : Int → Str → Int → Option (Bool × Int) := isProcPid (str "/stat")

def isProcPidStatus : Int → Str → Int → Option (Bool × Int) := isProcPid (str "/status")

/-- `is_proc_kernel_pidmax`. -/
def isProcKernelPidmax (path : Str) : Option Bool := do
  return (← CString.strncmp path 0 (str "/proc/sys/kernel/pid_max") 24) = 0

/-- `is_proc_kernel_tainted`: the length is the size of the pointer to the name. -/
def isProcKernelTainted (path : Str) : Option Bool := do
  return (← CString.strncmp path 0 (str "/proc/sys/kernel/tainted") 8) = 0

/-- `is_proc_interrupts`. -/
def isProcInterrupts (path : Str) : Option Bool := do
  return (← CString.strcmp path 0 (str "/proc/interrupts")) = 0

/-- `is_proc_cpuinfo`. -/
def isProcCpuinfo (path : Str) : Option Bool := do
  return (← CString.strcmp path 0 (str "/proc/cpuinfo")) = 0

/-- `slash[5] == '\0' || (slash[5] == '/' && slash[6] == '\0')`. -/
def endsTask (path : Str) (stop : Nat) : Option Bool := do
  let a ← CString.read path (stop + 5)
  if a = 0 then return true
  else if a = slash then return (← CString.read path (stop + 6)) = 0
  else return false

/-- `is_proc_pid_task_dir`. -/
def isProcPidTaskDir (self : Int) (path : Str) (pid : Int) : Option (Bool × Int) := do
  if (← CString.strncmp path 0 (str "/proc/") 6) ≠ 0 then return (false, pid)
  match ← CString.strchr path 6 slash with
  | none => return (false, pid)
  | some stop =>
    if (← CString.strncmp path stop (str "/task") 5) ≠ 0 then return (false, pid)
    if !(← endsTask path stop) then return (false, pid)
    return store pid (← parsePid self path 6 stop)

/-- `is_proc_pid_task_tid_stat`; it stores the process id before it looks at the thread id. -/
def isProcPidTaskTidStat (self : Int) (path : Str) (pid tid : Int) : Option (Bool × Int × Int) := do
  if (← CString.strncmp path 0 (str "/proc/") 6) ≠ 0 then return (false, pid, tid)
  match ← CString.strchr path 6 slash with
  | none => return (false, pid, tid)
  | some first =>
    if (← CString.strncmp path first (str "/task/") 6) ≠ 0 then return (false, pid, tid)
    match ← CString.strchr path (first + 6) slash with
    | none => return (false, pid, tid)
    | some second =>
      if (← CString.strcmp path second (str "/stat")) ≠ 0 then return (false, pid, tid)
      match ← parsePid self path 6 first with
      | none => return (false, pid, tid)
      | some pid =>
        let (found, tid) := store tid (← parseNumber path (first + 6) second)
        return (found, pid, tid)

/-- `check_proc_path(path, stat_pid, stat_tid)`: the type, and the ids that are stored. -/
def checkProcPath (self : Int) (path : Str) (pid tid : Int) : Option (Nat × Int × Int) := do
  let (found, pid) ← isProcPidStat self path pid
  if found then return (FD_PROC_STAT, pid, tid)
  let (found, pid) ← isProcPidStatus self path pid
  if found then return (FD_PROC_STATUS, pid, tid)
  let (found, pid, tid) ← isProcPidTaskTidStat self path pid tid
  if found then return (FD_PROC_TASK_STAT, pid, tid)
  let (found, pid) ← isProcPidTaskDir self path pid
  if found then return (FD_PROC_TASK_DIR, pid, tid)
  if ← isProcKernelPidmax path then return (FD_PROC_PIDMAX, pid, tid)
  if ← isProcKernelTainted path then return (FD_PROC_TAINTED, pid, tid)
  if ← isProcInterrupts path then return (FD_PROC_INTERRUPTS, pid, tid)
  if ← isProcCpuinfo path then return (FD_PROC_CPUINFO, pid, tid)
  return (0, pid, tid)

/-! ## The files there are -/

/-- A path of the kernel: no byte of it is the terminator, and it is in a buffer, so its length is an `int`. -/
structure PathStr where
  bytes : Str
  noNul : 0 ∉ bytes
  short : bytes.length < 2 ^ 31

/-- Decimal digits. -/
def Digits (d : Str) : Prop := d ≠ [] ∧ ∀ b ∈ d, IsDigit b

instance (d : Str) : Decidable (Digits d) := inferInstanceAs (Decidable (_ ∧ _))

/-- The digits of a number that fits an `int`. -/
def Fits (d : Str) : Prop := Digits d ∧ decimal d < 2 ^ 31

/-- `self`, or the digits of a number that fits. -/
def Names (d : Str) : Prop := d = str "self" ∨ Fits d

/-- The number that it names. -/
def number (self : Int) (d : Str) : Int := if d = str "self" then self else decimal d

/-- What follows the process id, with the type of the file. -/
def pidFiles : List (Str × Nat) :=
  [(str "/stat", FD_PROC_STAT), (str "/status", FD_PROC_STATUS), (str "/task", FD_PROC_TASK_DIR),
    (str "/task/", FD_PROC_TASK_DIR)]

def fixedFiles : List (Str × Nat) :=
  [(str "/proc/sys/kernel/pid_max", FD_PROC_PIDMAX), (str "/proc/sys/kernel/tainted", FD_PROC_TAINTED),
    (str "/proc/interrupts", FD_PROC_INTERRUPTS), (str "/proc/cpuinfo", FD_PROC_CPUINFO)]

/-- A file of procfs, with the ids that belong to it. -/
structure Report where
  type : Nat
  pid : Option Int
  tid : Option Int

/-- The paths of the files. -/
inductive Listed (self : Int) : Str → Report → Prop where
  | pid {d tail : Str} {type : Nat} : Names d → (tail, type) ∈ pidFiles →
      Listed self (str "/proc/" ++ (d ++ tail)) ⟨type, some (number self d), none⟩
  | tid {d t : Str} : Names d → Fits t →
      Listed self (str "/proc/" ++ (d ++ (str "/task/" ++ (t ++ str "/stat"))))
        ⟨FD_PROC_TASK_STAT, some (number self d), some (decimal t)⟩
  | fixed {path : Str} {type : Nat} : (path, type) ∈ fixedFiles → Listed self path ⟨type, none, none⟩

/-- A result has the type and the ids of a file. -/
def Report.Matches (r : Report) (out : Nat × Int × Int) : Prop :=
  out.1 = r.type ∧ (∀ v, r.pid = some v → out.2.1 = v) ∧ ∀ v, r.tid = some v → out.2.2 = v

/-- `check_proc_path` returns, reports the paths of files and no others, and stores their ids. -/
def Exact (self : Int) (path : Str) (pid tid : Int) : Prop :=
  ∃ out, checkProcPath self path pid tid = some out ∧ (out.1 ≠ 0 ↔ ∃ r, Listed self path r) ∧
    ∀ r, Listed self path r → r.Matches out

/-- Digits that the copy has room for. -/
def Copied (d : Str) : Prop := Digits d ∧ d.length < 16

/-- What is taken for `self` or for a number. -/
def Taken (d : Str) : Prop := str "self" <+: d ∨ Copied d

/-- The paths for which it does so. -/
structure Regular (path : Str) : Prop where
  /-- Eight letters of the two names in `/proc/sys` are not the start of another path. -/
  sys : str "/proc/sy" <+: path → path = str "/proc/sys/kernel/pid_max" ∨ path = str "/proc/sys/kernel/tainted"
  /-- What is taken for a process id is one, and the other way round. -/
  pid : ∀ d tail type, path = str "/proc/" ++ (d ++ tail) → slash ∉ d → (tail, type) ∈ pidFiles → (Taken d ↔ Names d)
  /-- And so for a process and a thread id. -/
  tid : ∀ d t, path = str "/proc/" ++ (d ++ (str "/task/" ++ (t ++ str "/stat"))) → slash ∉ d → slash ∉ t →
    (Taken d ∧ Copied t ↔ Names d ∧ Fits t)

/-! ## What the recognisers find -/

abbrev proc : Str := str "/proc/"

/-- The path has a piece `d` between `/proc/` and the next slash, and `r` behind it. -/
structure Inside (path d r : Str) : Prop where
  path_eq : path = proc ++ (d ++ slash :: r)
  noSlash : slash ∉ d
  noNul : 0 ∉ path
  short : path.length < 2 ^ 31

/-- The path has no such piece. -/
def Outside (path : Str) : Prop := ∀ d r, path = proc ++ (d ++ slash :: r) → slash ∈ d

instance (d : Str) : Decidable (Copied d) := inferInstanceAs (Decidable (_ ∧ _))

/-- The number that `atoi` makes of a piece. -/
def copied (d : Str) : Option Int := if Copied d then some (Int.bmod (decimal d) (2 ^ 32)) else none

/-- The process id that is read from a piece. -/
def taken (self : Int) (d : Str) : Option Int := if str "self" <+: d then some self else copied d

variable {self pid tid : Int} {path p d r t tail u : Str} {start stop : Nat}

theorem inside_or_outside (hpath : 0 ∉ path) (hshort : path.length < 2 ^ 31) :
    (∃ d r, Inside path d r) ∨ Outside path := by
  by_cases h : ∃ d r, path = proc ++ (d ++ slash :: r) ∧ slash ∉ d
  · obtain ⟨d, r, heq, hd⟩ := h
    exact .inl ⟨d, r, heq, hd, hpath, hshort⟩
  · right
    intro d r heq
    by_contra hd
    exact h ⟨d, r, heq, hd⟩

theorem Inside.noNul_tail (h : Inside path d r) : 0 ∉ d ++ slash :: r := by
  intro hmem
  apply h.noNul
  rw [h.path_eq]
  exact List.mem_append_right _ hmem

/-- A number that fits is what `atoi` gets. -/
theorem copied_of_fits (hcopied : Copied d) (hfits : Fits d) : copied d = some (decimal d : Int) := by
  have hlt := hfits.2
  unfold copied
  rw [if_pos hcopied, Int.bmod_eq_of_le (by omega) (by omega)]

theorem parseNumber_eq (hs : path = p ++ (d ++ u)) (hi : start = p.length) (hpath : 0 ∉ path)
    (hshort : path.length < 2 ^ 31) : parseNumber path start (start + d.length) = some (copied d) := by
  have hdlt : d.length < 2 ^ 31 := by
    rw [hs, List.length_append, List.length_append] at hshort
    omega
  have hlen : Int.bmod (((start + d.length : Nat) : Int) - start) (2 ^ 32) = d.length := by
    rw [Int.bmod_eq_of_le (by omega) (by omega)]
    omega
  unfold parseNumber copied
  simp only [hlen, Option.bind_eq_bind]
  by_cases hroom : (d.length : Int) ≤ 0 ∨ 16 ≤ (d.length : Int)
  · rw [if_pos hroom, if_neg]
    · rfl
    · rintro ⟨⟨hne, -⟩, hlt⟩
      have := List.length_pos_iff.mpr hne
      omega
  · have hnul : 0 ∉ d ++ u := fun hmem => hpath (hs ▸ List.mem_append_right _ hmem)
    have hcopy : CString.strncpy path start (d.length : Int).toNat = some d := by
      rw [Int.toNat_natCast, CString.strncpy_take hs hi hnul (by rw [List.length_append]; omega), List.take_left]
    rw [if_neg hroom, hcopy, Option.bind_some]
    have hne : d ≠ [] := List.length_pos_iff.mp (by omega)
    by_cases hdigits : ∀ b ∈ d, IsDigit b
    · rw [if_pos hdigits, if_pos ⟨⟨hne, hdigits⟩, by omega⟩, CString.atoi_eq hdigits]
      rfl
    · rw [if_neg hdigits, if_neg fun h => hdigits h.1.2]
      rfl

theorem parsePid_eq (h : Inside path d r) : parsePid self path 6 (6 + d.length) = some (taken self d) := by
  obtain ⟨x, hx, hx0⟩ := CString.strncmp_prefix h.path_eq (i := 6) rfl h.noNul_tail
    (show 0 ∉ str "self" by decide) (n := 4) rfl
  rw [CString.prefix_first_iff (by decide)] at hx0
  unfold parsePid taken
  have hnumber : parseNumber path 6 (6 + d.length) = some (copied d) :=
    parseNumber_eq h.path_eq rfl h.noNul h.short
  rw [hx, Option.bind_eq_bind, Option.bind_some, hnumber]
  by_cases hself : str "self" <+: d
  · rw [if_pos (hx0.mpr hself), if_pos hself]
    rfl
  · rw [if_neg (mt hx0.mp hself), if_neg hself]

/-- The recognisers of paths with a process id start alike: they return at once if there is no piece. -/
theorem begin_outside {β : Type} {no : Option β} {go : Nat → Option β} (hpath : 0 ∉ path) (h : Outside path) :
    (do
      if (← CString.strncmp path 0 proc 6) ≠ 0 then no
      else
        match ← CString.strchr path 6 slash with
        | none => no
        | some stop => go stop) = no := by
  obtain ⟨x, hx, hx0⟩ := CString.strncmp_prefix (show path = [] ++ path from rfl) (i := 0) rfl hpath
    (show 0 ∉ proc by decide) (n := 6) rfl
  rw [hx, Option.bind_eq_bind, Option.bind_some]
  by_cases hproc : proc <+: path
  · obtain ⟨w, rfl⟩ := hproc
    have hslash : slash ∉ w := by
      intro hmem
      obtain ⟨d, r, rfl, hd⟩ := List.eq_append_cons_of_mem hmem
      exact hd (h d r rfl)
    have hw : 0 ∉ w := fun hmem => hpath (List.mem_append_right _ hmem)
    rw [if_neg (by simpa using hx0.mpr (List.prefix_append _ _)),
      CString.strchr_of_not_mem rfl (i := 6) rfl hw (by decide) hslash]
    rfl
  · rw [if_pos (mt hx0.mp hproc)]

/-- Otherwise they go on at its end. -/
theorem begin_inside {β : Type} {no : Option β} {go : Nat → Option β} (h : Inside path d r) :
    (do
      if (← CString.strncmp path 0 proc 6) ≠ 0 then no
      else
        match ← CString.strchr path 6 slash with
        | none => no
        | some stop => go stop) = go (6 + d.length) := by
  obtain ⟨x, hx, hx0⟩ := CString.strncmp_prefix (show path = [] ++ path from rfl) (i := 0) rfl h.noNul
    (show 0 ∉ proc by decide) (n := 6) rfl
  have hd : 0 ∉ d := fun hmem => h.noNul_tail (List.mem_append_left _ hmem)
  have hproc : x = 0 := hx0.mpr (h.path_eq ▸ List.prefix_append _ _)
  rw [hx, Option.bind_eq_bind, Option.bind_some, if_neg (by simpa using hproc),
    CString.strchr_first h.path_eq (i := 6) rfl hd (by decide) h.noSlash]
  rfl

theorem isProcPid_outside (hpath : 0 ∉ path) (h : Outside path) : isProcPid tail self path pid = some (false, pid) :=
  begin_outside hpath h

theorem isProcPidTaskDir_outside (hpath : 0 ∉ path) (h : Outside path) :
    isProcPidTaskDir self path pid = some (false, pid) := begin_outside hpath h

theorem isProcPidTaskTidStat_outside (hpath : 0 ∉ path) (h : Outside path) :
    isProcPidTaskTidStat self path pid tid = some (false, pid, tid) := begin_outside hpath h

/-- The string and the position of the rest. -/
theorem Inside.rest (h : Inside path d r) : path = (proc ++ d) ++ slash :: r ∧ 6 + d.length = (proc ++ d).length ∧
    0 ∉ slash :: r := by
  obtain ⟨hs, hi⟩ := CString.behind h.path_eq (i := 6) rfl
  exact ⟨hs, hi, fun hmem => h.noNul_tail (List.mem_append_right _ hmem)⟩

theorem isProcPid_inside (h : Inside path d r) (htail : 0 ∉ tail) :
    isProcPid tail self path pid =
      some (if slash :: r = tail then store pid (taken self d) else (false, pid)) := by
  obtain ⟨hs, hi, hnul⟩ := h.rest
  obtain ⟨x, hx, hx0⟩ := CString.strcmp_spec hs hi hnul htail
  refine (begin_inside h).trans ?_
  rw [hx, Option.bind_eq_bind, Option.bind_some, parsePid_eq h]
  by_cases heq : slash :: r = tail
  · rw [if_pos heq, if_neg (by simpa using hx0.mpr heq)]
    rfl
  · rw [if_neg heq, if_pos (mt hx0.mp heq)]
    rfl

/-- A read behind a part of the rest. -/
theorem Inside.read_behind {v e : Str} (h : Inside path d r) (hrest : slash :: r = v ++ e) (k : Nat) :
    CString.read path (6 + d.length + v.length + k) = CString.read e k := by
  obtain ⟨hs, hi, -⟩ := h.rest
  rw [hrest] at hs
  obtain ⟨hs', hi'⟩ := CString.behind hs hi
  rw [hs', hi', CString.read_append]

theorem endsTask_eq {e : Str} (h : Inside path d r) (hrest : slash :: r = str "/task" ++ e) :
    endsTask path (6 + d.length) = some (decide (e = [] ∨ e = [slash])) := by
  have hread : ∀ k, CString.read path (6 + d.length + 5 + k) = CString.read e k := fun k => h.read_behind hrest k
  have he : 0 ∉ e := by
    obtain ⟨-, -, hnul⟩ := h.rest
    rw [hrest] at hnul
    exact fun hmem => hnul (List.mem_append_right _ hmem)
  have h0 : CString.read path (6 + d.length + 5) = CString.read e 0 := hread 0
  have h1 : CString.read path (6 + d.length + 6) = CString.read e 1 := hread 1
  unfold endsTask
  rw [h0, h1]
  match e with
  | [] => rfl
  | [a] =>
    have ha : a ≠ 0 := fun h => he (h ▸ List.mem_cons_self)
    by_cases hslash : a = slash
    · subst hslash
      rfl
    · simp [CString.read, ha, hslash]
  | a :: b :: e =>
    have ha : a ≠ 0 := fun h => he (h ▸ List.mem_cons_self)
    have hb : b ≠ 0 := fun h => he (h ▸ by simp)
    by_cases hslash : a = slash
    · subst hslash
      simp [CString.read, ha, hb]
    · simp [CString.read, ha, hslash]

theorem isProcPidTaskDir_inside (h : Inside path d r) :
    isProcPidTaskDir self path pid =
      some (if slash :: r = str "/task" ∨ slash :: r = str "/task/" then store pid (taken self d) else (false, pid)) := by
  obtain ⟨hs, hi, hnul⟩ := h.rest
  obtain ⟨x, hx, hx0⟩ := CString.strncmp_prefix hs hi hnul (show 0 ∉ str "/task" by decide) (n := 5) rfl
  refine (begin_inside h).trans ?_
  rw [hx, Option.bind_eq_bind, Option.bind_some, parsePid_eq h]
  by_cases htask : str "/task" <+: slash :: r
  · obtain ⟨e, he⟩ := htask
    have hiff : (slash :: r = str "/task" ∨ slash :: r = str "/task/") ↔ e = [] ∨ e = [slash] := by
      rw [← he, List.append_right_eq_self, show str "/task/" = str "/task" ++ [slash] from rfl, List.append_cancel_left_eq]
    rw [if_neg (by simpa using hx0.mpr ⟨e, he⟩), endsTask_eq h he.symm]
    by_cases hends : e = [] ∨ e = [slash]
    · rw [if_pos (hiff.mpr hends), decide_eq_true hends]
      rfl
    · rw [if_neg (mt hiff.mp hends), decide_eq_false hends]
      rfl
  · have hno : ¬(slash :: r = str "/task" ∨ slash :: r = str "/task/") := by
      rintro (heq | heq)
      · exact htask (heq ▸ List.prefix_rfl)
      · exact htask (heq ▸ ⟨[slash], rfl⟩)
    rw [if_pos (mt hx0.mp htask), if_neg hno]
    rfl

/-- The result of `is_proc_pid_task_tid_stat` for the pieces that it reads the ids from. -/
def storeBoth (self : Int) (d t : Str) (pid tid : Int) : Bool × Int × Int :=
  match taken self d with
  | none => (false, pid, tid)
  | some pid => ((store tid (copied t)).1, pid, (store tid (copied t)).2)

/-- A thread id between two more slashes. -/
theorem isProcPidTaskTidStat_inside (h : Inside path d r) (hrest : slash :: r = str "/task/" ++ (t ++ str "/stat"))
    (ht : slash ∉ t) : isProcPidTaskTidStat self path pid tid = some (storeBoth self d t pid tid) := by
  obtain ⟨hs, hi, hnul⟩ := h.rest
  obtain ⟨hs', hi'⟩ : _ ∧ 6 + d.length + 6 = _ := CString.behind (hrest ▸ hs) hi
  obtain ⟨hs'', hi''⟩ := CString.behind hs' hi'
  have ht0 : 0 ∉ t := by
    intro hmem
    apply h.noNul
    rw [hs']
    exact List.mem_append_right _ (List.mem_append_left _ hmem)
  obtain ⟨x, hx, hx0⟩ := CString.strncmp_prefix hs hi hnul (show 0 ∉ str "/task/" by decide) (n := 6) rfl
  obtain ⟨y, hy, hy0⟩ := CString.strcmp_spec hs'' hi'' (show 0 ∉ str "/stat" by decide) (show 0 ∉ str "/stat" by decide)
  have hsecond : CString.strchr path (6 + d.length + 6) slash = some (some (6 + d.length + 6 + t.length)) :=
    CString.strchr_first hs' hi' ht0 (by decide) ht
  refine (begin_inside h).trans ?_
  rw [hx, Option.bind_eq_bind, Option.bind_some, if_neg (by simpa using hx0.mpr ⟨_, hrest.symm⟩), hsecond,
    Option.bind_eq_bind, Option.bind_some]
  simp only
  rw [hy, Option.bind_eq_bind, Option.bind_some, if_neg (by simpa using hy0.mpr rfl), parsePid_eq h,
    Option.bind_some, parseNumber_eq hs' hi' h.noNul h.short]
  unfold storeBoth
  cases taken self d with
  | none => rfl
  | some v => rfl

theorem isProcPidTaskTidStat_not (h : Inside path d r)
    (hno : ∀ t, slash :: r = str "/task/" ++ (t ++ str "/stat") → slash ∈ t) :
    isProcPidTaskTidStat self path pid tid = some (false, pid, tid) := by
  obtain ⟨hs, hi, hnul⟩ := h.rest
  obtain ⟨x, hx, hx0⟩ := CString.strncmp_prefix hs hi hnul (show 0 ∉ str "/task/" by decide) (n := 6) rfl
  refine (begin_inside h).trans ?_
  rw [hx, Option.bind_eq_bind, Option.bind_some]
  by_cases htask : str "/task/" <+: slash :: r
  · obtain ⟨e, he⟩ := htask
    obtain ⟨hs', hi'⟩ : _ ∧ 6 + d.length + 6 = _ := CString.behind (he ▸ hs) hi
    have he0 : 0 ∉ e := fun hmem => hnul (he ▸ List.mem_append_right _ hmem)
    rw [if_neg (by simpa using hx0.mpr ⟨e, he⟩)]
    by_cases hslash : slash ∈ e
    · obtain ⟨t, u, rfl, ht⟩ := List.eq_append_cons_of_mem hslash
      have ht0 : 0 ∉ t := fun hmem => he0 (List.mem_append_left _ hmem)
      have hu0 : 0 ∉ slash :: u := fun hmem => he0 (List.mem_append_right _ hmem)
      obtain ⟨hs'', hi''⟩ := CString.behind hs' hi'
      obtain ⟨y, hy, hy0⟩ := CString.strcmp_spec hs'' hi'' hu0 (show 0 ∉ str "/stat" by decide)
      have hne : slash :: u ≠ str "/stat" := fun heq => ht (hno t (by rw [← he, heq]))
      rw [CString.strchr_first hs' hi' ht0 (by decide) ht, Option.bind_eq_bind, Option.bind_some]
      simp only
      rw [hy, Option.bind_eq_bind, Option.bind_some, if_pos (mt hy0.mp hne)]
      rfl
    · rw [CString.strchr_of_not_mem hs' hi' he0 (by decide) hslash]
      rfl
  · rw [if_pos (mt hx0.mp htask)]
    rfl

end SC7.Procfs
