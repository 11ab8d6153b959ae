-- SUMMARY: `check_proc_path` on every path: what it reports, and that this is exact for the regular paths and no others.
import SC7.Fs.Procfs

/-!
# The files that `check_proc_path` reports

A path has a piece behind `/proc/` that ends at a slash, or it has none. The recognisers of files with a process
id look at the piece and at what follows it, the other four at the whole path.
-/

namespace SC7.Procfs

open Exec (Str str)
open CString (IsDigit decimal)

variable {self pid tid : Int} {path d r t tail u : Str} {type : Nat} {rep : Report} {out : Nat × Int × Int}

/-! ## The files without a process id -/

/-- The type that the last four recognisers report. -/
def fixedType (path : Str) : Nat :=
  if str "/proc/sys/kernel/pid_max" <+: path then FD_PROC_PIDMAX
  else if str "/proc/sy" <+: path then FD_PROC_TAINTED
  else if path = str "/proc/interrupts" then FD_PROC_INTERRUPTS
  else if path = str "/proc/cpuinfo" then FD_PROC_CPUINFO
  else 0

section Checks

variable (hpath : 0 ∉ path)

include hpath

theorem isProcKernelPidmax_eq :
    isProcKernelPidmax path = some (decide (str "/proc/sys/kernel/pid_max" <+: path)) := by
  obtain ⟨x, hx, hx0⟩ := CString.strncmp_prefix (show path = [] ++ path from rfl) (i := 0) rfl hpath
    (show 0 ∉ str "/proc/sys/kernel/pid_max" by decide) (n := 24) rfl
  unfold isProcKernelPidmax
  rw [hx, ← decide_eq_decide.mpr hx0]
  rfl

/-- It compares eight letters. -/
theorem isProcKernelTainted_eq : isProcKernelTainted path = some (decide (str "/proc/sy" <+: path)) := by
  obtain ⟨x, hx, hx0⟩ := CString.strncmp_spec (show path = [] ++ path from rfl) (i := 0) rfl hpath
    (show 0 ∉ str "/proc/sys/kernel/tainted" by decide) (n := 8)
  have hiff : x = 0 ↔ str "/proc/sy" <+: path := by
    rw [hx0, List.prefix_iff_eq_take]
    exact eq_comm
  unfold isProcKernelTainted
  rw [hx, ← decide_eq_decide.mpr hiff]
  rfl

theorem isProcInterrupts_eq : isProcInterrupts path = some (decide (path = str "/proc/interrupts")) := by
  obtain ⟨x, hx, hx0⟩ := CString.strcmp_spec (show path = [] ++ path from rfl) (i := 0) rfl hpath
    (show 0 ∉ str "/proc/interrupts" by decide)
  unfold isProcInterrupts
  rw [hx, ← decide_eq_decide.mpr hx0]
  rfl

theorem isProcCpuinfo_eq : isProcCpuinfo path = some (decide (path = str "/proc/cpuinfo")) := by
  obtain ⟨x, hx, hx0⟩ := CString.strcmp_spec (show path = [] ++ path from rfl) (i := 0) rfl hpath
    (show 0 ∉ str "/proc/cpuinfo" by decide)
  unfold isProcCpuinfo
  rw [hx, ← decide_eq_decide.mpr hx0]
  rfl

/-- The end of `check_proc_path`. -/
theorem check_fixed (pid tid : Int) :
    (do
      if ← isProcKernelPidmax path then return (FD_PROC_PIDMAX, pid, tid)
      if ← isProcKernelTainted path then return (FD_PROC_TAINTED, pid, tid)
      if ← isProcInterrupts path then return (FD_PROC_INTERRUPTS, pid, tid)
      if ← isProcCpuinfo path then return (FD_PROC_CPUINFO, pid, tid)
      return (0, pid, tid)) = some (fixedType path, pid, tid) := by
  rw [isProcKernelPidmax_eq hpath, isProcKernelTainted_eq hpath, isProcInterrupts_eq hpath, isProcCpuinfo_eq hpath]
  unfold fixedType
  simp only [Option.bind_eq_bind, Option.bind_some, decide_eq_true_eq]
  split
  · rfl
  · split
    · rfl
    · split
      · rfl
      · split
        · rfl
        · rfl

/-! ## What is reported -/

/-- One recogniser after the other. -/
theorem check_chain {stat status task dir : Bool} {pid₁ pid₂ pid₃ pid₄ tid₃ : Int}
    (hstat : isProcPidStat self path pid = some (stat, pid₁))
    (hstatus : isProcPidStatus self path pid₁ = some (status, pid₂))
    (htask : isProcPidTaskTidStat self path pid₂ tid = some (task, pid₃, tid₃))
    (hdir : isProcPidTaskDir self path pid₃ = some (dir, pid₄)) :
    checkProcPath self path pid tid = some (
      if stat then (FD_PROC_STAT, pid₁, tid) else if status then (FD_PROC_STATUS, pid₂, tid)
      else if task then (FD_PROC_TASK_STAT, pid₃, tid₃) else if dir then (FD_PROC_TASK_DIR, pid₄, tid₃)
      else (fixedType path, pid₄, tid₃)) := by
  unfold checkProcPath
  rw [hstat, Option.bind_eq_bind, Option.bind_some]
  cases stat with
  | true => rfl
  | false =>
    simp only [Bool.false_eq_true, if_false]
    rw [hstatus, Option.bind_eq_bind, Option.bind_some]
    cases status with
    | true => rfl
    | false =>
      simp only [Bool.false_eq_true, if_false]
      rw [htask, Option.bind_eq_bind, Option.bind_some]
      cases task with
      | true => rfl
      | false =>
        simp only [Bool.false_eq_true, if_false]
        rw [hdir]
        cases dir with
        | true => rfl
        | false => exact check_fixed hpath pid₄ tid₃

theorem check_outside (h : Outside path) : checkProcPath self path pid tid = some (fixedType path, pid, tid) :=
  check_chain hpath (isProcPid_outside hpath h) (isProcPid_outside hpath h) (isProcPidTaskTidStat_outside hpath h)
    (isProcPidTaskDir_outside hpath h)

end Checks

/-- No name of a file with a process id is behind the piece. -/
structure Unknown (r : Str) : Prop where
  pid : ∀ type, (slash :: r, type) ∉ pidFiles
  tid : ∀ t, slash :: r = str "/task/" ++ (t ++ str "/stat") → slash ∈ t

theorem mem_pidFiles : (tail, type) ∈ pidFiles ↔
    tail = str "/stat" ∧ type = FD_PROC_STAT ∨ tail = str "/status" ∧ type = FD_PROC_STATUS ∨
      tail = str "/task" ∧ type = FD_PROC_TASK_DIR ∨ tail = str "/task/" ∧ type = FD_PROC_TASK_DIR := by
  simp only [pidFiles, List.mem_cons, Prod.mk.injEq, List.not_mem_nil, or_false]

theorem check_unknown (h : Inside path d r) (hr : Unknown r) :
    checkProcPath self path pid tid = some (fixedType path, pid, tid) := by
  have hstat : slash :: r ≠ str "/stat" := fun heq => hr.pid _ (mem_pidFiles.mpr (.inl ⟨heq, rfl⟩))
  have hstatus : slash :: r ≠ str "/status" := fun heq => hr.pid _ (mem_pidFiles.mpr (.inr (.inl ⟨heq, rfl⟩)))
  have hdir : ¬(slash :: r = str "/task" ∨ slash :: r = str "/task/") := by
    rintro (heq | heq)
    · exact hr.pid _ (mem_pidFiles.mpr (.inr (.inr (.inl ⟨heq, rfl⟩))))
    · exact hr.pid _ (mem_pidFiles.mpr (.inr (.inr (.inr ⟨heq, rfl⟩))))
  have hstat' : isProcPidStat self path pid = some (false, pid) :=
    (isProcPid_inside h (by decide)).trans (by rw [if_neg hstat])
  have hstatus' : isProcPidStatus self path pid = some (false, pid) :=
    (isProcPid_inside h (by decide)).trans (by rw [if_neg hstatus])
  have hdir' : isProcPidTaskDir self path pid = some (false, pid) :=
    (isProcPidTaskDir_inside h).trans (by rw [if_neg hdir])
  exact check_chain h.noNul hstat' hstatus' (isProcPidTaskTidStat_not h hr.tid) hdir'

/-- The result for a file with a process id and no thread id. -/
def pidResult (self : Int) (path d : Str) (type : Nat) (pid tid : Int) : Nat × Int × Int :=
  match taken self d with
  | none => (fixedType path, pid, tid)
  | some value => (type, value, tid)

/-- What follows the piece of such a file is not what precedes a thread id. -/
theorem not_tid_of_pid (h : (tail, type) ∈ pidFiles) : tail ≠ str "/task/" ++ (t ++ str "/stat") := by
  intro heq
  have hlen := congrArg List.length heq
  rw [List.length_append, List.length_append, show (str "/task/").length = 6 from rfl,
    show (str "/stat").length = 5 from rfl] at hlen
  have hle : tail.length ≤ 7 := by
    obtain ⟨rfl, -⟩ | ⟨rfl, -⟩ | ⟨rfl, -⟩ | ⟨rfl, -⟩ := mem_pidFiles.mp h <;> decide
  omega

theorem check_pid (h : Inside path d r) (hr : (slash :: r, type) ∈ pidFiles) :
    checkProcPath self path pid tid = some (pidResult self path d type pid tid) := by
  have htask : ∀ pid, isProcPidTaskTidStat self path pid tid = some (false, pid, tid) := fun pid =>
    isProcPidTaskTidStat_not h fun t heq => absurd heq (not_tid_of_pid hr)
  have hstat : ∀ pid, isProcPidStat self path pid =
      some (if slash :: r = str "/stat" then store pid (taken self d) else (false, pid)) := fun pid =>
    isProcPid_inside h (by decide)
  have hstatus : ∀ pid, isProcPidStatus self path pid =
      some (if slash :: r = str "/status" then store pid (taken self d) else (false, pid)) := fun pid =>
    isProcPid_inside h (by decide)
  have hdir : ∀ pid, isProcPidTaskDir self path pid =
      some (if slash :: r = str "/task" ∨ slash :: r = str "/task/" then store pid (taken self d) else (false, pid)) :=
    fun pid => isProcPidTaskDir_inside h
  have hchain := check_chain h.noNul (hstat pid) (hstatus _) (htask _) (hdir _)
  rw [hchain]
  unfold pidResult
  obtain ⟨heq, rfl⟩ | ⟨heq, rfl⟩ | ⟨heq, rfl⟩ | ⟨heq, rfl⟩ := mem_pidFiles.mp hr
  all_goals
    rw [heq]
    cases taken self d with
    | none => rfl
    | some v => rfl

/-- The result for a file with a thread id. -/
def tidResult (self : Int) (path d t : Str) (pid tid : Int) : Nat × Int × Int :=
  if (storeBoth self d t pid tid).1 then (FD_PROC_TASK_STAT, (storeBoth self d t pid tid).2)
  else (fixedType path, (storeBoth self d t pid tid).2)

theorem check_tid (h : Inside path d r) (hr : slash :: r = str "/task/" ++ (t ++ str "/stat")) (ht : slash ∉ t) :
    checkProcPath self path pid tid = some (tidResult self path d t pid tid) := by
  have hno : ∀ type, (slash :: r, type) ∉ pidFiles := fun type hmem => not_tid_of_pid hmem hr
  have hstat : isProcPidStat self path pid = some (false, pid) :=
    (isProcPid_inside h (by decide)).trans (by rw [if_neg fun heq => hno _ (mem_pidFiles.mpr (.inl ⟨heq, rfl⟩))])
  have hstatus : isProcPidStatus self path pid = some (false, pid) := (isProcPid_inside h (by decide)).trans
      (by rw [if_neg fun heq => hno _ (mem_pidFiles.mpr (.inr (.inl ⟨heq, rfl⟩)))])
  have hdir : ∀ pid, isProcPidTaskDir self path pid = some (false, pid) := by
    intro pid
    rw [isProcPidTaskDir_inside h, if_neg]
    rintro (heq | heq)
    · exact hno _ (mem_pidFiles.mpr (.inr (.inr (.inl ⟨heq, rfl⟩))))
    · exact hno _ (mem_pidFiles.mpr (.inr (.inr (.inr ⟨heq, rfl⟩))))
  exact check_chain h.noNul hstat hstatus (isProcPidTaskTidStat_inside h hr ht) (hdir _)

/-! ## Pieces -/

theorem Digits.not_mem {b : UInt8} (h : Digits d) (hb : ¬IsDigit b) : b ∉ d := fun hmem => hb (h.2 b hmem)

theorem Names.noSlash (h : Names d) : slash ∉ d := by
  obtain rfl | h := h
  · decide
  · exact h.1.not_mem (by decide)

theorem taken_eq_none_iff : taken self d = none ↔ ¬Taken d := by
  unfold taken copied Taken
  split
  · rename_i h
    simp [h]
  · rename_i h
    split
    · rename_i h'
      simp [h']
    · rename_i h'
      simp [h, h']

/-- A piece that is taken and a name stands for its number. -/
theorem taken_of_names (h : Taken d) (hnames : Names d) : taken self d = some (number self d) := by
  unfold taken number
  obtain rfl | hfits := hnames
  · rw [if_pos List.prefix_rfl, if_pos rfl]
  · have hself : ¬str "self" <+: d := fun hpre =>
      hfits.1.not_mem (show ¬IsDigit 115 by decide) (hpre.subset (by decide))
    have hne : d ≠ str "self" := fun heq => hself (heq ▸ List.prefix_rfl)
    rw [if_neg hself, if_neg hne]
    exact copied_of_fits (h.resolve_left hself) hfits

/-- A piece with the letters of `sys` is neither. -/
theorem not_taken_of_sys (h : str "sy" <+: d) : ¬Taken d ∧ ¬Names d := by
  have hmem : 121 ∈ d := h.subset (by decide)
  obtain ⟨w, rfl⟩ := h
  refine ⟨?_, ?_⟩
  · rintro (⟨u, hu⟩ | hcopied)
    · have hsecond : some (101 : UInt8) = some 121 := congrArg (fun l : Str => l[1]?) hu
      exact absurd hsecond (by decide)
    · exact hcopied.1.not_mem (show ¬IsDigit 121 by decide) hmem
  · rintro (heq | hfits)
    · exact absurd (heq ▸ hmem) (by decide)
    · exact hfits.1.not_mem (show ¬IsDigit 121 by decide) hmem

/-! ## The files with a path -/

theorem slash_of_mem_pidFiles (h : (tail, type) ∈ pidFiles) : ∃ u, tail = slash :: u := by
  obtain ⟨rfl, -⟩ | ⟨rfl, -⟩ | ⟨rfl, -⟩ | ⟨rfl, -⟩ := mem_pidFiles.mp h <;> exact ⟨_, rfl⟩

theorem tid_tail (t : Str) : str "/task/" ++ (t ++ str "/stat") = slash :: (str "task/" ++ (t ++ str "/stat")) := rfl

/-- There is no other way to split a path. -/
theorem Inside.unique {d' : Str} (h : Inside path d r) (heq : path = proc ++ (d' ++ slash :: u)) (hd : slash ∉ d') :
    d' = d ∧ u = r := by
  rw [h.path_eq, List.append_cancel_left_eq] at heq
  obtain ⟨rfl, rfl⟩ := CString.first_unique h.noSlash hd heq
  exact ⟨rfl, rfl⟩

theorem listed_outside (h : Outside path) (hl : Listed self path rep) :
    ∃ type, (path, type) ∈ fixedFiles ∧ rep = ⟨type, none, none⟩ := by
  cases hl with
  | pid hnames hmem =>
    obtain ⟨u, rfl⟩ := slash_of_mem_pidFiles hmem
    exact absurd (h _ _ rfl) hnames.noSlash
  | tid hnames _ => exact absurd (h _ _ (by rw [tid_tail])) hnames.noSlash
  | fixed hmem => exact ⟨_, hmem, rfl⟩

theorem listed_inside (h : Inside path d r) (hl : Listed self path rep) :
    (∃ type, (slash :: r, type) ∈ pidFiles ∧ Names d ∧ rep = ⟨type, some (number self d), none⟩) ∨
    (∃ t, slash :: r = str "/task/" ++ (t ++ str "/stat") ∧ Names d ∧ Fits t ∧
      rep = ⟨FD_PROC_TASK_STAT, some (number self d), some (decimal t)⟩) ∨
    ∃ type, (path, type) ∈ fixedFiles ∧ rep = ⟨type, none, none⟩ := by
  generalize hpath : path = path' at hl
  cases hl with
  | pid hnames hmem =>
    obtain ⟨u, rfl⟩ := slash_of_mem_pidFiles hmem
    obtain ⟨rfl, rfl⟩ := h.unique hpath hnames.noSlash
    exact .inl ⟨_, hmem, hnames, rfl⟩
  | tid hnames hfits =>
    obtain ⟨rfl, hr⟩ := h.unique (hpath.trans (by rw [tid_tail])) hnames.noSlash
    exact .inr (.inl ⟨_, by rw [tid_tail, hr], hnames, hfits, rfl⟩)
  | fixed hmem => exact .inr (.inr ⟨_, hpath ▸ hmem, rfl⟩)

/-! ## Exactness -/

theorem mem_fixedFiles : (path, type) ∈ fixedFiles ↔
    path = str "/proc/sys/kernel/pid_max" ∧ type = FD_PROC_PIDMAX ∨
      path = str "/proc/sys/kernel/tainted" ∧ type = FD_PROC_TAINTED ∨
      path = str "/proc/interrupts" ∧ type = FD_PROC_INTERRUPTS ∨ path = str "/proc/cpuinfo" ∧ type = FD_PROC_CPUINFO := by
  simp only [fixedFiles, List.mem_cons, Prod.mk.injEq, List.not_mem_nil, or_false]

/-- Only two of the fixed names are in `/proc/sys`. -/
theorem fixed_of_sys (hsys : str "/proc/sy" <+: path) (hmem : (path, type) ∈ fixedFiles) :
    path = str "/proc/sys/kernel/pid_max" ∨ path = str "/proc/sys/kernel/tainted" := by
  obtain ⟨rfl, -⟩ | ⟨rfl, -⟩ | ⟨rfl, -⟩ | ⟨rfl, -⟩ := mem_fixedFiles.mp hmem
  · exact .inl rfl
  · exact .inr rfl
  · exact absurd hsys (by decide)
  · exact absurd hsys (by decide)

theorem fixedType_sys (hsys : str "/proc/sy" <+: path) : fixedType path ≠ 0 := by
  unfold fixedType
  by_cases hpidmax : str "/proc/sys/kernel/pid_max" <+: path
  · rw [if_pos hpidmax]
    decide
  · rw [if_neg hpidmax, if_pos hsys]
    decide

/-- For the other two the type is right. -/
theorem fixedType_of_mem (hsys : ¬str "/proc/sy" <+: path) (hmem : (path, type) ∈ fixedFiles) : fixedType path = type := by
  obtain ⟨rfl, -⟩ | ⟨rfl, -⟩ | ⟨rfl, rfl⟩ | ⟨rfl, rfl⟩ := mem_fixedFiles.mp hmem
  · exact absurd (by decide) hsys
  · exact absurd (by decide) hsys
  · decide
  · decide

theorem mem_of_fixedType (hsys : ¬str "/proc/sy" <+: path) (hne : fixedType path ≠ 0) :
    (path, fixedType path) ∈ fixedFiles := by
  have hpidmax : ¬str "/proc/sys/kernel/pid_max" <+: path := fun h => hsys (List.IsPrefix.trans (by decide) h)
  unfold fixedType at hne ⊢
  rw [if_neg hpidmax, if_neg hsys] at hne ⊢
  split at hne
  · rename_i heq
    rw [if_pos heq]
    exact mem_fixedFiles.mpr (.inr (.inr (.inl ⟨heq, rfl⟩)))
  · rename_i hint
    split at hne
    · rename_i heq
      rw [if_neg hint, if_pos heq]
      exact mem_fixedFiles.mpr (.inr (.inr (.inr ⟨heq, rfl⟩)))
    · exact absurd rfl hne

/-- A piece that is not in `/proc/sys` is not one of a fixed name. -/
theorem not_fixed_inside (h : Inside path d r) (hsys : ¬str "/proc/sy" <+: path) : (path, type) ∉ fixedFiles := by
  intro hmem
  have hslash : ∀ w, path = proc ++ w → slash ∈ w := by
    intro w heq
    have heq' := h.path_eq
    rw [heq, List.append_cancel_left_eq] at heq'
    rw [heq']
    simp
  obtain ⟨rfl, -⟩ | ⟨rfl, -⟩ | ⟨rfl, -⟩ | ⟨rfl, -⟩ := mem_fixedFiles.mp hmem
  · exact absurd (by decide) hsys
  · exact absurd (by decide) hsys
  · exact absurd (hslash (str "interrupts") rfl) (by decide)
  · exact absurd (hslash (str "cpuinfo") rfl) (by decide)

theorem fixedType_inside (h : Inside path d r) (hsys : ¬str "/proc/sy" <+: path) : fixedType path = 0 := by
  by_contra hne
  exact not_fixed_inside h hsys (mem_of_fixedType hsys hne)

theorem exact_iff_of (hout : checkProcPath self path pid tid = some out) : Exact self path pid tid ↔
      (out.1 ≠ 0 ↔ ∃ rep, Listed self path rep) ∧ ∀ rep, Listed self path rep → rep.Matches out := by
  constructor
  · rintro ⟨out', hout', h⟩
    rw [hout, Option.some.injEq] at hout'
    subst hout'
    exact h
  · intro h
    exact ⟨out, hout, h⟩

/-- The fixed names that are not in `/proc/sys`. -/
theorem exact_fixed (hsys : ¬str "/proc/sy" <+: path)
    (hout : checkProcPath self path pid tid = some (fixedType path, pid, tid))
    (hlisted : ∀ rep, Listed self path rep → ∃ type, (path, type) ∈ fixedFiles ∧ rep = ⟨type, none, none⟩) :
    Exact self path pid tid := by
  rw [exact_iff_of hout]
  refine ⟨⟨fun hne => ⟨_, .fixed (mem_of_fixedType hsys hne)⟩, ?_⟩, ?_⟩
  · rintro ⟨rep, hl⟩
    obtain ⟨type, hmem, -⟩ := hlisted rep hl
    show fixedType path ≠ 0
    rw [fixedType_of_mem hsys hmem]
    obtain ⟨-, rfl⟩ | ⟨-, rfl⟩ | ⟨-, rfl⟩ | ⟨-, rfl⟩ := mem_fixedFiles.mp hmem <;> decide
  · intro rep hl
    obtain ⟨type, hmem, rfl⟩ := hlisted rep hl
    refine ⟨fixedType_of_mem hsys hmem, ?_, ?_⟩
    · intro v hv
      cases hv
    · intro v hv
      cases hv

/-- Where no process id is read, the last four recognisers decide. -/
theorem check_not_taken (h : Inside path d r) (hd : ¬Taken d) :
    checkProcPath self path pid tid = some (fixedType path, pid, tid) := by
  have hnone : taken self d = none := taken_eq_none_iff.mpr hd
  by_cases hpid : ∃ type, (slash :: r, type) ∈ pidFiles
  · obtain ⟨type, hmem⟩ := hpid
    rw [check_pid h hmem, pidResult, hnone]
  · by_cases htid : ∃ t, slash :: r = str "/task/" ++ (t ++ str "/stat") ∧ slash ∉ t
    · obtain ⟨t, heq, ht⟩ := htid
      rw [check_tid h heq ht, tidResult, storeBoth, hnone]
      rfl
    · refine check_unknown h ⟨fun type hmem => hpid ⟨type, hmem⟩, fun t heq => ?_⟩
      by_contra ht
      exact htid ⟨t, heq, ht⟩

/-- A split of the path in `/proc/sys` has a piece that starts so. -/
theorem sys_piece (hsys : str "/proc/sy" <+: path) (heq : path = proc ++ (d ++ slash :: u)) : str "sy" <+: d := by
  rw [heq, show str "/proc/sy" = proc ++ str "sy" from rfl, List.prefix_append_right_inj,
    CString.prefix_first_iff (by decide)] at hsys
  exact hsys

/-- In `/proc/sys`. -/
theorem exact_sys (hpath : 0 ∉ path) (hshort : path.length < 2 ^ 31) (hsys : str "/proc/sy" <+: path) :
    Exact self path pid tid ↔ path = str "/proc/sys/kernel/pid_max" ∨ path = str "/proc/sys/kernel/tainted" := by
  obtain ⟨hout, hlisted⟩ : checkProcPath self path pid tid = some (fixedType path, pid, tid) ∧
      ∀ rep, Listed self path rep → ∃ type, (path, type) ∈ fixedFiles ∧ rep = ⟨type, none, none⟩ := by
    obtain ⟨d, r, h⟩ | h := inside_or_outside hpath hshort
    · obtain ⟨htaken, hnames⟩ := not_taken_of_sys (sys_piece hsys h.path_eq)
      refine ⟨check_not_taken h htaken, fun rep hl => ?_⟩
      obtain ⟨type, -, hd, -⟩ | ⟨t, -, hd, -⟩ | hfixed := listed_inside h hl
      · exact absurd hd hnames
      · exact absurd hd hnames
      · exact hfixed
    · exact ⟨check_outside hpath h, fun rep hl => listed_outside h hl⟩
  rw [exact_iff_of hout]
  constructor
  · rintro ⟨hiff, -⟩
    obtain ⟨rep, hl⟩ := hiff.mp (fixedType_sys hsys)
    obtain ⟨type, hmem, -⟩ := hlisted rep hl
    exact fixed_of_sys hsys hmem
  · intro hname
    have hmem : (path, fixedType path) ∈ fixedFiles := by
      obtain rfl | rfl := hname <;> decide
    refine ⟨⟨fun _ => ⟨_, .fixed hmem⟩, fun _ => fixedType_sys hsys⟩, fun rep hl => ?_⟩
    obtain ⟨type, hmem', rfl⟩ := hlisted rep hl
    have htype : fixedType path = type := by
      obtain rfl | rfl := hname
      · obtain ⟨-, rfl⟩ | ⟨heq, -⟩ | ⟨heq, -⟩ | ⟨heq, -⟩ := mem_fixedFiles.mp hmem'
        · decide
        all_goals exact absurd heq (by decide)
      · obtain ⟨heq, -⟩ | ⟨-, rfl⟩ | ⟨heq, -⟩ | ⟨heq, -⟩ := mem_fixedFiles.mp hmem'
        · exact absurd heq (by decide)
        · decide
        all_goals exact absurd heq (by decide)
    refine ⟨htype, ?_, ?_⟩
    · intro v hv
      cases hv
    · intro v hv
      cases hv

/-- What follows a piece belongs to one type. -/
theorem pidFiles_type {type' : Nat} (h : (tail, type) ∈ pidFiles) (h' : (tail, type') ∈ pidFiles) : type = type' := by
  obtain ⟨rfl, rfl⟩ | ⟨rfl, rfl⟩ | ⟨rfl, rfl⟩ | ⟨rfl, rfl⟩ := mem_pidFiles.mp h
  all_goals
    obtain ⟨heq, rfl⟩ | ⟨heq, rfl⟩ | ⟨heq, rfl⟩ | ⟨heq, rfl⟩ := mem_pidFiles.mp h'
    all_goals first | rfl | exact absurd heq (by decide)

theorem pidFiles_ne (h : (tail, type) ∈ pidFiles) : type ≠ 0 := by
  obtain ⟨-, rfl⟩ | ⟨-, rfl⟩ | ⟨-, rfl⟩ | ⟨-, rfl⟩ := mem_pidFiles.mp h <;> decide

/-- A path that can belong to one file only: it is reported in one case (`got`), and it is listed in one (`good`). -/
theorem exact_single {got good : Prop} (file : Report)
    (hout : checkProcPath self path pid tid = some out) (hgot : got → out.1 ≠ 0) (hnot : ¬got → out.1 = 0)
    (hfile : good → Listed self path file) (hlisted : ∀ rep, Listed self path rep → good ∧ rep = file)
    (hmatches : got → good → file.Matches out) : Exact self path pid tid ↔ (got ↔ good) := by
  rw [exact_iff_of hout]
  constructor
  · rintro ⟨hiff, -⟩
    constructor
    · intro h
      obtain ⟨rep, hl⟩ := hiff.mp (hgot h)
      exact (hlisted rep hl).1
    · intro h
      by_contra hno
      exact hiff.mpr ⟨file, hfile h⟩ (hnot hno)
  · intro hiff
    refine ⟨⟨fun hne => ?_, ?_⟩, fun rep hl => ?_⟩
    · have h : got := by
        by_contra hno
        exact hne (hnot hno)
      exact ⟨file, hfile (hiff.mp h)⟩
    · rintro ⟨rep, hl⟩
      exact hgot (hiff.mpr (hlisted rep hl).1)
    · obtain ⟨hgood, rfl⟩ := hlisted rep hl
      exact hmatches (hiff.mpr hgood) hgood

/-- A file with a process id. -/
theorem exact_pid (h : Inside path d r) (hsys : ¬str "/proc/sy" <+: path) (hr : (slash :: r, type) ∈ pidFiles) :
    Exact self path pid tid ↔ (Taken d ↔ Names d) := by
  refine exact_single ⟨type, some (number self d), none⟩ (check_pid h hr) ?_ ?_ ?_ ?_ ?_
  · intro htaken
    obtain ⟨v, hv⟩ := Option.ne_none_iff_exists'.mp
      (mt taken_eq_none_iff.mp (not_not.mpr htaken) : taken self d ≠ none)
    rw [pidResult, hv]
    exact pidFiles_ne hr
  · intro htaken
    rw [pidResult, taken_eq_none_iff.mpr htaken]
    exact fixedType_inside h hsys
  · intro hnames
    exact h.path_eq ▸ .pid hnames hr
  · intro rep hl
    obtain ⟨type', hmem, hd, rfl⟩ | ⟨t, heq, -⟩ | ⟨type', hmem, -⟩ := listed_inside h hl
    · exact ⟨hd, by rw [pidFiles_type hr hmem]⟩
    · exact absurd heq (not_tid_of_pid hr)
    · exact absurd hmem (not_fixed_inside h hsys)
  · intro htaken hnames
    rw [pidResult, taken_of_names htaken hnames]
    refine ⟨rfl, ?_, ?_⟩
    · intro v hv
      cases hv
      rfl
    · intro v hv
      cases hv

theorem storeBoth_fst : (storeBoth self d t pid tid).1 = true ↔ Taken d ∧ Copied t := by
  unfold storeBoth
  cases hd : taken self d with
  | none => simp [taken_eq_none_iff.mp hd]
  | some v =>
    have htaken : Taken d := by
      by_contra hno
      rw [taken_eq_none_iff.mpr hno] at hd
      cases hd
    by_cases ht : Copied t
    · rw [copied, if_pos ht]
      exact iff_of_true rfl ⟨htaken, ht⟩
    · rw [copied, if_neg ht]
      exact iff_of_false (by simp [store]) fun hboth => ht hboth.2

/-- A file with a process and a thread id. -/
theorem exact_tid (h : Inside path d r) (hsys : ¬str "/proc/sy" <+: path)
    (hr : slash :: r = str "/task/" ++ (t ++ str "/stat")) (ht : slash ∉ t) :
    Exact self path pid tid ↔ (Taken d ∧ Copied t ↔ Names d ∧ Fits t) := by
  refine exact_single ⟨FD_PROC_TASK_STAT, some (number self d), some (decimal t)⟩ (check_tid h hr ht)
    ?_ ?_ ?_ ?_ ?_
  · intro hgot
    rw [tidResult, if_pos (storeBoth_fst.mpr hgot)]
    exact Nat.succ_ne_zero _
  · intro hno
    rw [tidResult, if_neg (mt storeBoth_fst.mp hno)]
    exact fixedType_inside h hsys
  · rintro ⟨hnames, hfits⟩
    rw [h.path_eq, hr]
    exact .tid hnames hfits
  · intro rep hl
    obtain ⟨type, hmem, -⟩ | ⟨t', heq, hd, ht', rfl⟩ | ⟨type, hmem, -⟩ := listed_inside h hl
    · exact absurd hr (not_tid_of_pid hmem)
    · rw [hr, List.append_cancel_left_eq, List.append_cancel_right_eq] at heq
      subst heq
      exact ⟨⟨hd, ht'⟩, rfl⟩
    · exact absurd hmem (not_fixed_inside h hsys)
  · rintro ⟨htaken, hcopied⟩ ⟨hnames, hfits⟩
    have hboth : storeBoth self d t pid tid = (true, number self d, (decimal t : Int)) := by
      rw [storeBoth, taken_of_names htaken hnames, copied_of_fits hcopied hfits]
      rfl
    rw [tidResult, hboth]
    refine ⟨rfl, ?_, ?_⟩
    · intro v hv
      cases hv
      rfl
    · intro v hv
      cases hv
      rfl

/-- A path that no recogniser of a process id knows is regular if it is not in `/proc/sys`. -/
theorem regular_of_unknown (hsys : ¬str "/proc/sy" <+: path)
    (hpid : ∀ d u type, path = proc ++ (d ++ slash :: u) → slash ∉ d → (slash :: u, type) ∉ pidFiles)
    (htid : ∀ d t u, path = proc ++ (d ++ slash :: u) → slash ∉ d → slash :: u = str "/task/" ++ (t ++ str "/stat") →
      slash ∈ t) : Regular path := by
  refine ⟨fun h => absurd h hsys, fun d tail type heq hd hmem => ?_, fun d t heq hd ht => ?_⟩
  · obtain ⟨u, rfl⟩ := slash_of_mem_pidFiles hmem
    exact absurd hmem (hpid d u type heq hd)
  · rw [tid_tail] at heq
    exact absurd (htid d t _ heq hd rfl) ht

theorem regular_sys (hsys : str "/proc/sy" <+: path) :
    Regular path ↔ path = str "/proc/sys/kernel/pid_max" ∨ path = str "/proc/sys/kernel/tainted" := by
  constructor
  · intro h
    exact h.sys hsys
  · intro hname
    refine ⟨fun _ => hname, fun d tail type heq hd hmem => ?_, fun d t heq hd ht => ?_⟩
    · obtain ⟨u, rfl⟩ := slash_of_mem_pidFiles hmem
      obtain ⟨htaken, hnames⟩ := not_taken_of_sys (sys_piece hsys heq)
      exact iff_of_false htaken hnames
    · obtain ⟨htaken, hnames⟩ := not_taken_of_sys (sys_piece hsys heq)
      exact iff_of_false (fun h => htaken h.1) fun h => hnames h.1

theorem regular_pid (h : Inside path d r) (hsys : ¬str "/proc/sy" <+: path) (hr : (slash :: r, type) ∈ pidFiles) :
    Regular path ↔ (Taken d ↔ Names d) := by
  constructor
  · intro hregular
    exact hregular.pid d _ type h.path_eq h.noSlash hr
  · intro hiff
    refine ⟨fun hno => absurd hno hsys, fun d' tail type' heq hd hmem => ?_, fun d' t heq hd ht => ?_⟩
    · obtain ⟨u, rfl⟩ := slash_of_mem_pidFiles hmem
      obtain ⟨rfl, rfl⟩ := h.unique heq hd
      exact hiff
    · rw [tid_tail] at heq
      obtain ⟨rfl, rfl⟩ := h.unique heq hd
      exact absurd rfl (not_tid_of_pid hr)

theorem regular_tid (h : Inside path d r) (hsys : ¬str "/proc/sy" <+: path)
    (hr : slash :: r = str "/task/" ++ (t ++ str "/stat")) (ht : slash ∉ t) :
    Regular path ↔ (Taken d ∧ Copied t ↔ Names d ∧ Fits t) := by
  constructor
  · intro hregular
    exact hregular.tid d t (by rw [← hr]; exact h.path_eq) h.noSlash ht
  · intro hiff
    refine ⟨fun hno => absurd hno hsys, fun d' tail type heq hd hmem => ?_, fun d' t' heq hd ht' => ?_⟩
    · obtain ⟨u, rfl⟩ := slash_of_mem_pidFiles hmem
      obtain ⟨rfl, rfl⟩ := h.unique heq hd
      exact absurd hr (not_tid_of_pid hmem)
    · rw [tid_tail] at heq
      obtain ⟨rfl, rfl⟩ := h.unique heq hd
      rw [← tid_tail, List.append_cancel_left_eq, List.append_cancel_right_eq] at hr
      exact hr ▸ hiff

theorem exact_unknown (h : Inside path d r) (hsys : ¬str "/proc/sy" <+: path) (hr : Unknown r) :
    Exact self path pid tid := by
  apply exact_fixed hsys (check_unknown h hr)
  intro rep hl
  obtain ⟨type, hmem, -⟩ | ⟨t, heq, -, hfits, -⟩ | hfixed := listed_inside h hl
  · exact absurd hmem (hr.pid type)
  · exact absurd (hr.tid t heq) (hfits.1.not_mem (by decide))
  · exact hfixed

/-- `check_proc_path` is exact for the regular paths and no others. -/
theorem checkProcPath_exact_iff (self pid tid : Int) (path : PathStr) :
    Exact self path.bytes pid tid ↔ Regular path.bytes := by
  obtain ⟨path, hpath, hshort⟩ := path
  by_cases hsys : str "/proc/sy" <+: path
  · rw [exact_sys hpath hshort hsys, regular_sys hsys]
  · obtain ⟨d, r, h⟩ | h := inside_or_outside hpath hshort
    · by_cases hpid : ∃ type, (slash :: r, type) ∈ pidFiles
      · obtain ⟨type, hmem⟩ := hpid
        rw [exact_pid h hsys hmem, regular_pid h hsys hmem]
      · by_cases htid : ∃ t, slash :: r = str "/task/" ++ (t ++ str "/stat") ∧ slash ∉ t
        · obtain ⟨t, hr, ht⟩ := htid
          rw [exact_tid h hsys hr ht, regular_tid h hsys hr ht]
        · have hunknown : Unknown r := by
            refine ⟨fun type hmem => hpid ⟨type, hmem⟩, fun t heq => ?_⟩
            by_contra ht
            exact htid ⟨t, heq, ht⟩
          refine iff_of_true (exact_unknown h hsys hunknown) (regular_of_unknown hsys ?_ ?_)
          · intro d' u type heq hd hmem
            obtain ⟨rfl, rfl⟩ := h.unique heq hd
            exact hunknown.pid type hmem
          · intro d' t u heq hd heq'
            obtain ⟨rfl, rfl⟩ := h.unique heq hd
            exact hunknown.tid t heq'
    · refine iff_of_true (exact_fixed hsys (check_outside hpath h) fun rep hl => listed_outside h hl)
        (regular_of_unknown hsys ?_ ?_)
      · intro d u type heq hd
        exact absurd (h d u heq) hd
      · intro d t u heq hd
        exact absurd (h d u heq) hd

/-- The path `/proc/selfish/stat` is taken for one of the caller. -/
def selfish : PathStr := ⟨str "/proc/selfish/stat", by decide, by decide⟩

theorem not_exact_selfish : ¬Exact 1 selfish.bytes 0 0 := by
  rintro ⟨out, hout, hiff, -⟩
  have hstat : checkProcPath 1 selfish.bytes 0 0 = some (FD_PROC_STAT, 1, 0) := by decide
  rw [hstat, Option.some.injEq] at hout
  subst hout
  obtain ⟨rep, hl⟩ := hiff.mp (by decide)
  have h : Inside selfish.bytes (str "selfish") (str "stat") := ⟨by decide, by decide, by decide, by decide⟩
  have hnames : ¬Names (str "selfish") := by
    rintro (heq | hfits)
    · exact absurd heq (by decide)
    · exact hfits.1.not_mem (show ¬IsDigit 115 by decide) (by decide)
  obtain ⟨type, -, hd, -⟩ | ⟨t, heq, -⟩ | ⟨type, hmem, -⟩ := listed_inside h hl
  · exact hnames hd
  · exact absurd heq (not_tid_of_pid (mem_pidFiles.mpr (.inl ⟨rfl, rfl⟩)))
  · exact not_fixed_inside h (by decide) hmem

end SC7.Procfs
