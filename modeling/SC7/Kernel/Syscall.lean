-- SUMMARY: System call dispatch (`syscall()`): its arguments pass through one array that all processes share, and when they arrive.
import SC7.Base.Run
import Mathlib.Data.List.Perm.Basic
import Mathlib.Order.Basic

/-!
# System call arguments

`syscall()` copies the registers `a0` to `a7` of the trap frame into the global array `a`, then
reads `a[7]` for the `switch` and the other elements for the call. Interrupts are on, and a timer
interrupt in the kernel calls `yield`, so another process may run between any two of these
accesses. A step below is one access.
-/

namespace SC7

open Function (update update_idem update_of_ne update_self)

/-- The registers `a0` to `a7` of a trap frame. -/
abbrev ArgRegs := Fin 8 → UInt64

/-- The cases of the `switch` in `syscall()`, in order: the number of the system call and the
elements of `a` that are passed to the function. `none` stands for a case that calls no
`sys_*` function. -/
def syscallTable : List (Nat × Option (List (Fin 8))) :=
  [(715, some []), -- SYS_sigreturn: sys_sigreturn
   (64, some [0, 1, 2]), -- SYS_write: sys_write
   (66, some [0, 1, 2]), -- SYS_writev: sys_writev
   (172, some []), -- SYS_getpid: sys_getpid
   (300, some []), -- SYS_fork: sys_fork
   (220, some [0, 1, 2, 3, 4]), -- SYS_clone: sys_clone
   (435, some []), -- SYS_clone3: sys_clone3
   (260, some [0, 1, 2]), -- SYS_wait: sys_wait
   (95, some [0, 1, 2, 3]), -- SYS_waitid: sys_waitid
   (93, some [0]), -- SYS_exit: sys_exit
   (129, some [0, 1]), -- SYS_kill: sys_kill
   (169, some [0, 1]), -- SYS_gettimeofday: sys_gettimeofday
   (113, some [0, 1]), -- SYS_clock_gettime: sys_clock_gettime
   (114, some [0, 1]), -- SYS_clock_getres: sys_clock_getres
   (101, some [0, 1]), -- SYS_sleep: sleep
   (214, some [0]), -- SYS_brk: sys_brk
   (153, some [0]), -- SYS_times: sys_times
   (103, some [0, 1, 2]), -- SYS_settimer: sys_settimer
   (102, some [0, 1]), -- SYS_getitimer: sys_getitimer
   (160, some [0]), -- SYS_uname: sys_uname
   (161, some [0, 1]), -- SYS_sethostname: sys_sethostname
   (97, some [0]), -- SYS_unshare: sys_unshare
   (124, some []), -- SYS_sched_yield: sys_sched_yield
   (173, some []), -- SYS_getppid: sys_getppid
   (221, some [0, 1, 2]), -- SYS_execve: sys_execve
   (59, some [0, 1]), -- SYS_pipe2: sys_pipe2
   (57, some [0]), -- SYS_close: sys_close
   (63, some [0, 1, 2]), -- SYS_read: sys_read
   (65, some [0, 1, 2]), -- SYS_readv: sys_readv
   (67, some [0, 1, 2, 3]), -- SYS_pread: sys_pread
   (69, some [0, 1, 2, 3]), -- SYS_preadv: sys_preadv
   (286, some [0, 1, 2, 3, 4]), -- SYS_preadv2: sys_preadv2
   (287, some [0, 1, 2, 3, 5]), -- SYS_pwritev2: sys_pwritev2
   (23, some [0]), -- SYS_dup: sys_dup
   (56, some [0, 1, 2, 3]), -- SYS_openat: sys_openat
   (16, some [0, 1, 2]), -- SYS_mknod: sys_mknod
   (33, some [0, 1, 2, 3]), -- SYS_mknodat: sys_mknodat
   (24, some [0, 1, 2]), -- SYS_dup3: sys_dup3
   (80, some [0, 1]), -- SYS_fstat: sys_fstat
   (79, some [0, 1, 2, 3]), -- SYS_fstatat: sys_fstatat
   (291, some [0, 1, 2, 3, 4]), -- SYS_statx: sys_statx
   (116, some [0, 1, 2]), -- SYS_syslog: sys_syslog
   (222, some [0, 1, 2, 3, 4, 5]), -- SYS_mmap: sys_mmap
   (215, some [0, 1]), -- SYS_munmap: sys_munmap
   (17, some [0, 1]), -- SYS_getcwd: sys_getcwd
   (34, some [0, 1, 2]), -- SYS_mkdirat: sys_mkdirat
   (49, some [0]), -- SYS_chdir: sys_chdir
   (50, some [0]), -- SYS_fchdir: sys_fchdir
   (51, some [0]), -- SYS_chroot: sys_chroot
   (61, some [0, 1, 2]), -- SYS_getdents64: sys_getdents64
   (40, some [0, 1, 2, 3, 3]), -- SYS_mount: sys_mount
   (39, some [0]), -- SYS_umount: sys_umount
   (35, some [0, 1, 2]), -- SYS_unlinkat: sys_unlinkat
   (37, some [0, 1, 2, 3, 4]), -- SYS_linkat: sys_linkat
   (36, some [0, 1, 2]), -- SYS_symlinkat: sys_symlinkat
   (147, some [0, 1, 2]), -- SYS_setresuid: sys_setresuid
   (149, some [0, 1, 2]), -- SYS_setresgid: sys_setresgid
   (148, some [0, 1, 2]), -- SYS_getresuid: sys_getresuid
   (150, some [0, 1, 2]), -- SYS_getresgid: sys_getresgid
   (96, some [0]), -- SYS_set_tid_address: sys_set_tid_address
   (174, some []), -- SYS_getuid: sys_getuid
   (175, some []), -- SYS_geteuid: sys_geteuid
   (29, some [0, 1, 2]), -- SYS_ioctl: sys_ioctl
   (94, some [0]), -- SYS_exit_group: sys_exit_group
   (135, some [0, 1, 2]), -- SYS_rt_sigprocmask: sys_rt_sigprocmask
   (134, some [0, 1, 2]), -- SYS_rt_sigaction: sys_rt_sigaction
   (48, some [0, 1, 2, 3]), -- SYS_faccessat: sys_faccessat
   (439, some [0, 1, 2, 3]), -- SYS_faccessat2: sys_faccessat
   (179, some [0]), -- SYS_sysinfo: sys_sysinfo
   (99, some []), -- SYS_set_robust_list: sys_set_robust_list
   (178, some []), -- SYS_gettid: sys_gettid
   (131, some [0, 1, 2]), -- SYS_tgkill: sys_tgkill
   (261, some [0, 1, 2, 3]), -- SYS_prlimit64: sys_prlimit64
   (163, some [0, 1]), -- SYS_getrlimit: sys_getrlimit
   (78, some [0, 1, 2, 3]), -- SYS_readlinkat: sys_readlinkat
   (278, some [0, 1, 2]), -- SYS_getrandom: sys_getrandom
   (71, some [0, 1, 2, 3]), -- SYS_sendfile64: sys_sendfile64
   (62, some [0, 1, 2]), -- SYS_llseek: sys_lseek
   (276, some [0, 1, 2, 3, 4]), -- SYS_renameat2: sys_renameat2
   (115, some [0, 1, 2, 3]), -- SYS_clock_nanosleep: sys_clock_nanosleep
   (216, some [0, 1, 2, 3, 4]), -- SYS_mremap: sys_mremap
   (176, none), -- SYS_getgid
   (144, some [0]), -- SYS_setgid: sys_setgid
   (25, some [0, 1, 2]), -- SYS_fcntl: sys_fcntl
   (88, some [0, 1, 2, 3]), -- SYS_utimensat: sys_utimensat
   (73, some [0, 1, 2, 3]), -- SYS_ppoll: sys_ppoll
   (98, some [0, 1, 2, 3, 4, 5]), -- SYS_futex: sys_futex
   (449, some [0, 1, 2, 3, 4]), -- SYS_futex_waitv: sys_futex_waitv
   (1000, some []), -- SYS_shutdown: sys_shutdown
   (137, none), -- SYS_rt_sigtimedwait
   (226, some [0, 1, 2]), -- SYS_mprotect: sys_mprotect
   (177, none), -- SYS_getegid
   (198, some [0, 1, 2]), -- SYS_socket: sys_socket
   (200, some [0, 1, 2]), -- SYS_bind: sys_bind
   (203, some [0, 1, 2]), -- SYS_connect: sys_connect
   (202, some [0, 1, 2]), -- SYS_accept: sys_accept
   (204, some [0, 1, 2]), -- SYS_getsockname: sys_getsockname
   (208, some [0, 1, 2, 3, 4]), -- SYS_setsockopt: sys_setsockopt
   (206, some [0, 1, 2, 3, 4, 5]), -- SYS_sendto: sys_sendto
   (207, some [0, 1, 2, 3, 4, 5]), -- SYS_recvfrom: sys_recvfrom
   (201, some [0, 1]), -- SYS_listen: sys_listen
   (283, some [0, 1, 2]), -- SYS_membarrier: sys_membarrier
   (130, some [0, 1]), -- SYS_tkill: sys_tkill
   (100, some [0, 1, 2]), -- SYS_get_robust_list: sys_get_robust_list
   (43, some [0, 1]), -- SYS_statfs: sys_statfs
   (157, some []), -- SYS_setsid: sys_setsid
   (156, some [0]), -- SYS_getsid: sys_getsid
   (233, none), -- SYS_madvise
   (81, none), -- SYS_sync
   (46, some [0, 1]), -- SYS_ftruncate: sys_ftruncate
   (82, some [0]), -- SYS_fsync: sys_fsync
   (165, some [0, 1]), -- SYS_getrusage: sys_getrusage
   (194, some [0, 1, 2]), -- SYS_shmget: sys_shmget
   (196, some [0, 1, 2]), -- SYS_shmat: sys_shmat
   (197, some [0]), -- SYS_shmdt: sys_shmdt
   (195, some [0, 1, 2]), -- SYS_shmctl: sys_shmctl
   (72, some [0, 1, 2, 3, 4, 5]), -- SYS_pselect6_time32: sys_pselect6_time32
   (166, some [0]), -- SYS_umask: sys_umask
   (122, some [0, 1, 2]), -- SYS_sched_setaffinity: sys_sched_setaffinity
   (123, some [0, 1, 2]), -- SYS_sched_getaffinity: sys_sched_getaffinity
   (168, some [0, 1, 2]), -- SYS_getcpu: sys_getcpu
   (52, some [0, 1]), -- SYS_fchmod: sys_fchmod
   (53, some [0, 1, 2, 3]), -- SYS_fchmodat: sys_fchmodat
   (452, some [0, 1, 2, 3]), -- SYS_fchmodat2: sys_fchmodat
   (54, some [0, 1, 2, 3, 4]), -- SYS_fchownat: sys_fchownat
   (154, some [0, 1]), -- SYS_setpgid: sys_setpgid
   (155, some [0]), -- SYS_getpgid: sys_getpgid
   (227, some [0, 1, 2]), -- SYS_msync: sys_msync
   (47, some [0, 1, 2, 3]), -- SYS_fallocate: sys_fallocate
   (68, some [0, 1, 2, 3]), -- SYS_pwrite64: sys_pwrite64
   (70, some [0, 1, 2, 3]), -- SYS_pwritev: sys_pwritev
   (125, some [0]), -- SYS_sched_get_priority_max: sys_sched_get_priority_max
   (126, some [0]), -- SYS_sched_get_priority_min: sys_sched_get_priority_min
   (146, some [0]), -- SYS_setuid: sys_setuid
   (159, some [0, 1]), -- SYS_setgroups: sys_setgroups
   (158, some [0, 1]), -- SYS_getgroups: sys_getgroups
   (145, some [0, 1]), -- SYS_setreuid: sys_setreuid
   (143, some [0, 1]), -- SYS_setregid: sys_setregid
   (55, some [0, 1, 2]), -- SYS_fchown: sys_fchown
   (10, some [0, 1, 2, 3]), -- SYS_fgetxattr: sys_fgetxattr
   (285, some [0, 1, 2, 3, 4, 5]), -- SYS_copy_file_range: sys_copy_file_range
   (76, some [0, 1, 2, 3, 4, 5]), -- SYS_splice: sys_splice
   (167, some [0, 1, 2, 3, 4]), -- SYS_prctl: sys_prctl
   (92, some [0])] -- SYS_personality: sys_personality

/-- The arguments that the case for `nr` passes on; `none` if it calls nothing. -/
def dispatch (nr : UInt64) : Option (List (Fin 8)) := (syscallTable.lookup nr.toNat).join

/-- Where a process is. `tf` is its trap frame since the trap. -/
inductive SyscallPhase where
  /-- outside `syscall()`, or in the function it called -/
  | away
  /-- in the first loop, before the store to `a[i]` -/
  | loading (tf : ArgRegs) (i : Fin 8)
  /-- before the `switch` -/
  | switching (tf : ArgRegs)
  /-- in the case for `nr`: `got` are the arguments read so far, `rest` the elements still to read -/
  | reading (tf : ArgRegs) (nr : UInt64) (got : List (Fin 8 × UInt64)) (rest : List (Fin 8))

/-- A call of a `sys_*` function: the trap frame of the process, the number it was selected by and
its arguments, each with the element of `a` it was read from. -/
structure SyscallRecord where
  pid : Nat
  tf : ArgRegs
  nr : UInt64
  args : List (Fin 8 × UInt64)

/-- The array `a`, the processes, and the calls made so far. -/
structure SyscallSys where
  a : ArgRegs
  procs : Nat → SyscallPhase
  calls : List SyscallRecord

namespace SyscallSys

def init (a : ArgRegs) : SyscallSys := ⟨a, fun _ => .away, []⟩

def setPhase (σ : SyscallSys) (pid : Nat) (phase : SyscallPhase) : SyscallSys :=
  { σ with procs := update σ.procs pid phase }

/-- One access of process `pid`. -/
inductive Step (pid : Nat) : SyscallSys → SyscallSys → Prop where
  | trap {σ : SyscallSys} (tf : ArgRegs) : σ.procs pid = .away → Step pid σ (σ.setPhase pid (.loading tf 0))
  | load {σ : SyscallSys} {tf : ArgRegs} {i : Fin 8} : σ.procs pid = .loading tf i →
      Step pid σ ({ σ with a := update σ.a i (tf i) }.setPhase pid
        (if i = 7 then .switching tf else .loading tf (i + 1)))
  | noCall {σ : SyscallSys} {tf : ArgRegs} : σ.procs pid = .switching tf → dispatch (σ.a 7) = none →
      Step pid σ (σ.setPhase pid .away)
  -- the order in which the arguments of a call are evaluated is not specified
  | switch {σ : SyscallSys} {tf : ArgRegs} {idxs order : List (Fin 8)} : σ.procs pid = .switching tf →
      dispatch (σ.a 7) = some idxs → order.Perm idxs →
      Step pid σ (σ.setPhase pid (.reading tf (σ.a 7) [] order))
  | read {σ : SyscallSys} {tf : ArgRegs} {nr : UInt64} {got : List (Fin 8 × UInt64)} {j : Fin 8}
      {rest : List (Fin 8)} : σ.procs pid = .reading tf nr got (j :: rest) →
      Step pid σ (σ.setPhase pid (.reading tf nr (got ++ [(j, σ.a j)]) rest))
  | call {σ : SyscallSys} {tf : ArgRegs} {nr : UInt64} {got : List (Fin 8 × UInt64)} :
      σ.procs pid = .reading tf nr got [] →
      Step pid σ { σ.setPhase pid .away with calls := ⟨pid, tf, nr, got⟩ :: σ.calls }

end SyscallSys

/-! ## Isolation -/

/-- The function was selected by the process's own number and got its own arguments, all of them. -/
def SyscallRecord.Own (c : SyscallRecord) : Prop :=
  c.nr = c.tf 7 ∧ (∀ jv ∈ c.args, jv.2 = c.tf jv.1) ∧
    ∃ idxs, dispatch (c.tf 7) = some idxs ∧ (c.args.map Prod.fst).Perm idxs

/-- The elements of `a` that `syscall()` reads for the trap frame `tf`. -/
def Reads (tf : ArgRegs) (j : Fin 8) : Prop := j = 7 ∨ ∃ idxs, dispatch (tf 7) = some idxs ∧ j ∈ idxs

/-- The process has stored `a[j]` and has yet to read it. -/
def SyscallPhase.Awaits : SyscallPhase → Fin 8 → Prop
  | .away, _ => False
  | .loading tf i, j => j < i ∧ Reads tf j
  | .switching tf, j => Reads tf j
  | .reading _ _ _ rest, j => j ∈ rest

/-- The trap frame of a process inside `syscall()`. -/
def SyscallPhase.frame : SyscallPhase → Option ArgRegs
  | .away => none
  | .loading tf _ => some tf
  | .switching tf => some tf
  | .reading tf _ _ _ => some tf

namespace SyscallSys

/-- If the next access of `pid` is a store, it changes no element that another process has stored
and has yet to read: whoever awaits `a[i]` has the same value in its own trap frame. -/
def Harmless (σ : SyscallSys) (pid : Nat) : Prop :=
  ∀ tf i, σ.procs pid = .loading tf i → ∀ pid', pid' ≠ pid → (σ.procs pid').Awaits i →
    ∀ tf', (σ.procs pid').frame = some tf' → tf' i = tf i

/-- A step at which nothing is overwritten. -/
def HarmlessStep (σ σ' : SyscallSys) : Prop := ∃ pid, Step pid σ σ' ∧ σ.Harmless pid

/-- What is true of a process in terms of the array. -/
def PhaseOk (a : ArgRegs) : SyscallPhase → Prop
  | .away => True
  | .loading tf i => ∀ j < i, Reads tf j → a j = tf j
  | .switching tf => ∀ j, Reads tf j → a j = tf j
  | .reading tf nr got rest => nr = tf 7 ∧ (∀ j ∈ rest, a j = tf j) ∧ (∀ jv ∈ got, jv.2 = tf jv.1) ∧
      ∃ idxs, dispatch (tf 7) = some idxs ∧ (got.map Prod.fst ++ rest).Perm idxs

/-- The invariant: what a process awaits is still its own. -/
structure Inv (σ : SyscallSys) : Prop where
  phases : ∀ pid, PhaseOk σ.a (σ.procs pid)
  calls : ∀ c ∈ σ.calls, c.Own

variable {σ σ' : SyscallSys} {pid : Nat}

/-- A change of the array that leaves what the process awaits keeps its facts. -/
theorem PhaseOk.congr {a a' : ArgRegs} {phase : SyscallPhase} (h : PhaseOk a phase)
    (heq : ∀ tf j, phase.frame = some tf → phase.Awaits j → a j = tf j → a' j = tf j) :
    PhaseOk a' phase := by
  cases phase with
  | away => trivial
  | loading tf i => exact fun j hj hr => heq tf j rfl ⟨hj, hr⟩ (h j hj hr)
  | switching tf => exact fun j hr => heq tf j rfl hr (h j hr)
  | reading tf nr got rest => exact ⟨h.1, fun j hj => heq tf j rfl hj (h.2.1 j hj), h.2.2⟩

/-- Moving one process keeps the facts of the others. -/
theorem Inv.setPhase (h : σ.Inv) {phase : SyscallPhase} (hphase : PhaseOk σ.a phase) :
    (σ.setPhase pid phase).Inv where
  phases pid' := by
    by_cases hp : pid' = pid
    · subst hp
      simpa [SyscallSys.setPhase] using hphase
    · simpa [SyscallSys.setPhase, hp] using h.phases pid'
  calls := h.calls

/-- A store: its own element is right afterwards, and the others are not touched. -/
theorem Inv.load {tf : ArgRegs} {i : Fin 8} (h : σ.Inv) (hpid : σ.procs pid = .loading tf i)
    (hharm : σ.Harmless pid) :
    ({ σ with a := update σ.a i (tf i) }.setPhase pid
        (if i = 7 then .switching tf else .loading tf (i + 1))).Inv := by
  have hown := h.phases pid
  rw [hpid] at hown
  have hnew : ∀ j, j ≤ i → Reads tf j → update σ.a i (tf i) j = tf j := by
    intro j hj hr
    by_cases hji : j = i
    · rw [hji, update_self]
    · rw [update_of_ne hji]
      exact hown j (by omega) hr
  refine ⟨fun pid' => ?_, h.calls⟩
  by_cases hp : pid' = pid
  · subst hp
    simp only [SyscallSys.setPhase, update_self]
    split
    · rename_i h7
      exact fun j hr => hnew j (by omega) hr
    · rename_i h7
      exact fun j hj hr => hnew j (by omega) hr
  · simp only [SyscallSys.setPhase, update_of_ne hp]
    refine (h.phases pid').congr fun tf' j hframe haw heq => ?_
    by_cases hji : j = i
    · subst hji
      rw [update_self]
      exact (hharm tf j hpid pid' hp haw tf' hframe).symm
    · rw [update_of_ne hji]
      exact heq

theorem Inv.step (h : σ.Inv) (hstep : Step pid σ σ') (hharm : σ.Harmless pid) : σ'.Inv := by
  have hown := h.phases pid
  cases hstep with
  | trap tf hpid => exact h.setPhase fun j hj => absurd hj (by omega)
  | load hpid => exact h.load hpid hharm
  | noCall hpid hnone => exact h.setPhase trivial
  | @switch tf idxs order hpid hsome hperm =>
    rw [hpid] at hown
    have h7 : σ.a 7 = tf 7 := hown 7 (.inl rfl)
    rw [h7] at hsome ⊢
    refine h.setPhase ⟨rfl, fun j hj => ?_, by simp, idxs, hsome, by simpa using hperm⟩
    exact hown j (.inr ⟨idxs, hsome, hperm.subset hj⟩)
  | @read tf nr got j rest hpid =>
    rw [hpid] at hown
    obtain ⟨hnr, hrest, hgot, idxs, hidxs, hperm⟩ := hown
    refine h.setPhase ⟨hnr, fun i hi => hrest i (List.mem_cons_of_mem _ hi), ?_, idxs, hidxs, ?_⟩
    · intro jv hjv
      rcases List.mem_append.mp hjv with hjv | hjv
      · exact hgot jv hjv
      · rw [List.mem_singleton.mp hjv]
        exact hrest j List.mem_cons_self
    · simpa using hperm
  | @call tf nr got hpid =>
    rw [hpid] at hown
    obtain ⟨hnr, -, hgot, idxs, hidxs, hperm⟩ := hown
    have haway : PhaseOk σ.a .away := trivial
    refine ⟨(h.setPhase haway).phases, fun c hc => ?_⟩
    rcases List.mem_cons.mp hc with rfl | hc
    · exact ⟨hnr, hgot, idxs, hidxs, by simpa using hperm⟩
    · exact h.calls c hc

end SyscallSys

/-- System call arguments are isolated in every run in which no store overwrites an element that
another process has stored and has yet to read: every function that was called got the
arguments of its own process. -/
theorem syscall_isolated {a : ArgRegs} {σ : SyscallSys}
    (hrun : Reaches SyscallSys.HarmlessStep (SyscallSys.init a) σ) : ∀ c ∈ σ.calls, c.Own := by
  have hinv : σ.Inv := hrun.invariant ⟨fun _ => trivial, by simp [SyscallSys.init]⟩
    fun t t' ht ⟨pid, hstep, hharm⟩ => ht.step hstep hharm
  exact hinv.calls

/-! ## Two processes -/

namespace SyscallSys

variable {σ σ' : SyscallSys} {pid : Nat}

/-- The first `k` stores of a process that is not interrupted. -/
theorem reaches_loading (tf : ArgRegs) (haway : σ.procs pid = .away) {k : Nat} (hk : k < 8) :
    Reaches (Step pid) σ
      ⟨fun j => if j.val < k then tf j else σ.a j, update σ.procs pid (.loading tf ⟨k, hk⟩),
        σ.calls⟩ := by
  induction k with
  | zero =>
    have hstep : Step pid σ (σ.setPhase pid (.loading tf 0)) := .trap tf haway
    simpa [setPhase] using Relation.ReflTransGen.single hstep
  | succ k ih =>
    refine (ih (by omega)).tail ?_
    have hphase : update σ.procs pid (SyscallPhase.loading tf ⟨k, by omega⟩) pid =
        .loading tf ⟨k, by omega⟩ := update_self _ _ _
    have hstep : Step pid ⟨fun j => if j.val < k then tf j else σ.a j,
        update σ.procs pid (.loading tf ⟨k, by omega⟩), σ.calls⟩ _ := .load hphase
    have hne : (⟨k, by omega⟩ : Fin 8) ≠ 7 := by
      intro h
      have := congrArg Fin.val h
      simp at this
      omega
    have hsucc : (⟨k, by omega⟩ : Fin 8) + 1 = ⟨k + 1, hk⟩ := by
      apply Fin.ext
      simp only [Fin.val_add, Fin.val_one]
      omega
    have harr : update (fun j : Fin 8 => if j.val < k then tf j else σ.a j) ⟨k, by omega⟩
        (tf ⟨k, by omega⟩) = fun j => if j.val < k + 1 then tf j else σ.a j := by
      funext j
      by_cases hj : j = ⟨k, by omega⟩
      · subst hj
        rw [update_self, if_pos (by simp)]
      · rw [update_of_ne hj]
        have hjk : j.val ≠ k := fun h => hj (Fin.ext h)
        exact if_congr (by omega) rfl rfl
    simp only [setPhase, if_neg hne, hsucc, harr, update_idem] at hstep
    exact hstep

/-- All eight stores. -/
theorem reaches_switching (tf : ArgRegs) (haway : σ.procs pid = .away) :
    Reaches (Step pid) σ ⟨tf, update σ.procs pid (.switching tf), σ.calls⟩ := by
  refine (reaches_loading tf haway (show 7 < 8 by decide)).tail ?_
  have hphase : update σ.procs pid (SyscallPhase.loading tf ⟨7, by decide⟩) pid =
      .loading tf ⟨7, by decide⟩ := update_self _ _ _
  have hstep : Step pid ⟨fun j => if j.val < 7 then tf j else σ.a j,
      update σ.procs pid (.loading tf ⟨7, by decide⟩), σ.calls⟩ _ := .load hphase
  have harr : update (fun j : Fin 8 => if j.val < 7 then tf j else σ.a j) ⟨7, by decide⟩
      (tf ⟨7, by decide⟩) = tf := by
    funext j
    by_cases hj : j = ⟨7, by decide⟩
    · subst hj
      rw [update_self]
    · rw [update_of_ne hj, if_pos]
      have hj7 : j.val ≠ 7 := fun h => hj (Fin.ext h)
      omega
  have h7 : (⟨7, by decide⟩ : Fin 8) = 7 := rfl
  simp only [setPhase, if_pos h7, harr, update_idem] at hstep
  exact hstep

/-- A process that is alone in `syscall()` overwrites nothing. -/
theorem harmless_of_alone (halone : ∀ pid', pid' ≠ pid → σ.procs pid' = .away) : σ.Harmless pid := by
  intro tf i _ pid' hne haw
  rw [halone pid' hne] at haw
  exact absurd haw id

theorem Step.alone (hstep : Step pid σ σ') (halone : ∀ pid', pid' ≠ pid → σ.procs pid' = .away) :
    ∀ pid', pid' ≠ pid → σ'.procs pid' = .away := by
  intro pid' hne
  have hother : ∀ phase, (σ.setPhase pid phase).procs pid' = .away := fun phase =>
    (update_of_ne hne _ _).trans (halone pid' hne)
  cases hstep with
  | trap tf _ => exact hother _
  | load _ => exact (update_of_ne hne _ _).trans (halone pid' hne)
  | noCall _ _ => exact hother _
  | switch _ _ _ => exact hother _
  | read _ => exact hother _
  | call _ => exact hother _

theorem reaches_harmless_of_alone (hrun : Reaches (Step pid) σ σ')
    (halone : ∀ pid', pid' ≠ pid → σ.procs pid' = .away) :
    Reaches HarmlessStep σ σ' ∧ ∀ pid', pid' ≠ pid → σ'.procs pid' = .away := by
  induction hrun with
  | refl => exact ⟨.refl, halone⟩
  | tail _ hlast ih =>
    exact ⟨ih.1.tail ⟨pid, hlast, harmless_of_alone ih.2⟩, hlast.alone ih.2⟩

/-- The trap frame of `close(fd)`. -/
def closeFrame (fd : UInt64) : ArgRegs := fun j => if j = 7 then 57 else if j = 0 then fd else 0

/-- After the stores of `close(fd)`: the `switch`, one read, and the call. -/
theorem reaches_close {fd v : UInt64} (hpid : σ.procs pid = .switching (closeFrame fd))
    (h7 : σ.a 7 = 57) (h0 : σ.a 0 = v) :
    Reaches (Step pid) σ ⟨σ.a, update σ.procs pid .away, ⟨pid, closeFrame fd, 57, [(0, v)]⟩ :: σ.calls⟩ := by
  have hdisp : dispatch (σ.a 7) = some [0] := by
    rw [h7]
    decide
  have hswitch := Step.switch hpid hdisp (List.Perm.refl _)
  rw [h7] at hswitch
  have hread : Step pid (σ.setPhase pid (.reading (closeFrame fd) 57 [] [0])) _ := .read (update_self _ _ _)
  have hcall : Step pid ((σ.setPhase pid (.reading (closeFrame fd) 57 [] [0])).setPhase pid
      (.reading (closeFrame fd) 57 [(0, v)] [])) _ := .call (update_self _ _ _)
  have hread' : (σ.setPhase pid (.reading (closeFrame fd) 57 [] [0])).a 0 = v := h0
  rw [hread', List.nil_append] at hread
  have hrun := ((Relation.ReflTransGen.single hswitch).tail hread).tail hcall
  simpa only [setPhase, update_idem] using hrun

end SyscallSys

open SyscallSys

/-- A single `close(3)`. -/
theorem syscall_isolated_one_close :
    ∃ σ : SyscallSys, Reaches HarmlessStep (SyscallSys.init fun _ => 0) σ ∧ σ.calls ≠ [] ∧
      ∀ c ∈ σ.calls, c.Own := by
  let σ₀ := SyscallSys.init fun _ => 0
  have hload : Reaches (Step 0) σ₀ _ := reaches_switching (closeFrame 3) rfl
  have hclose : Reaches (Step 0) ⟨closeFrame 3, Function.update σ₀.procs 0 (.switching (closeFrame 3)), []⟩ _ :=
    reaches_close (show _ = SyscallPhase.switching (closeFrame 3) from rfl) rfl rfl
  have hrun := (reaches_harmless_of_alone (hload.trans hclose) fun _ _ => rfl).1
  exact ⟨_, hrun, List.cons_ne_nil _ _, syscall_isolated hrun⟩

/-- Process 0 calls `close(3)` and is preempted after its stores; process 1 enters `close(5)` and
stores its first argument; process 0 goes on and closes 5. -/
theorem syscall_not_isolated :
    ¬ ∀ σ : SyscallSys, Reaches (fun σ σ' => ∃ pid, Step pid σ σ') (SyscallSys.init fun _ => 0) σ →
      ∀ c ∈ σ.calls, c.Own := by
  intro hiso
  let σ₀ := SyscallSys.init fun _ => 0
  have hload : Reaches (Step 0) σ₀ _ := reaches_switching (closeFrame 3) rfl
  let σ₁ : SyscallSys := ⟨closeFrame 3, Function.update σ₀.procs 0 (.switching (closeFrame 3)), []⟩
  have htrap : Step 1 σ₁ (σ₁.setPhase 1 (.loading (closeFrame 5) 0)) := .trap (closeFrame 5) rfl
  have hstore : Step 1 (σ₁.setPhase 1 (.loading (closeFrame 5) 0)) _ := .load rfl
  have hclose : Reaches (Step 0) _ _ := reaches_close (v := 5)
    (σ := { σ₁.setPhase 1 (.loading (closeFrame 5) 0) with
      a := Function.update σ₁.a 0 (closeFrame 5 0) }.setPhase 1 (.loading (closeFrame 5) 1))
    (show _ = SyscallPhase.switching (closeFrame 3) from rfl) rfl rfl
  have hlift : ∀ {pid s s'}, Reaches (Step pid) s s' → Reaches (fun σ σ' => ∃ pid, Step pid σ σ') s s' :=
    fun h => h.weaken fun _ _ hstep => ⟨_, hstep⟩
  have hrun := (((hlift hload).tail ⟨1, htrap⟩).tail ⟨1, hstore⟩).trans (hlift hclose)
  obtain ⟨-, hargs, -⟩ := hiso _ hrun _ List.mem_cons_self
  have h0 := hargs (0, 5) List.mem_cons_self
  exact absurd h0 (by decide)

end SC7
