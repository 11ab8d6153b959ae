-- SUMMARY: What `ppoll` reads and writes: its kernel copy is one page, and the descriptors are the user's; and what it returns.
import SC7.Kernel.Select

/-!
# The accesses of `ppoll`

The array of the user is copied to one page, whatever the number of entries. The accesses are recorded along the wait:
a recorded scan does what the scan does, and the record of a run is erased to the run.
-/

namespace SC7.Select

open Signal (Task Thread Threads Tid)

/-- `sizeof(struct pollfd)`. -/
def POLLFD_SIZE : Nat := 8

/-- Bytes of the kernel copy, or an entry of `ofile`. -/
inductive Access where
  | copy (start len : Nat)
  | ofile (fd : Nat)

def Access.Within : Access → Prop
  | .copy start len => start + len ≤ PGSIZE
  | .ofile fd => fd < NOFILE

/-- A call, with the array that the user's memory holds. -/
structure PpollCall extends PpollArgs where
  entries : ∀ fds, pollfd = some fds → fds.length = nfds.toNat
  /-- What a `copyin` that fails has written. -/
  copied : Nat

variable {me : Tid} {β γ : Type}

/-! ## The record -/

/-- What a scan does with one entry. -/
def entryAccesses (i : Nat) (p : PollFd) : List Access :=
  .copy (POLLFD_SIZE * i) POLLFD_SIZE :: if p.fd < 0 then [] else [.ofile p.fd.toNat]

def scanAccesses (fds : List PollFd) : List Access := (fds.mapIdx entryAccesses).flatten

/-- The scan, with the record of its accesses. -/
def recordAll (r : Round me) (b : List PollFd × List Access) : Int × List PollFd × List Access :=
  ((pollAll r b.1).1, (pollAll r b.1).2, b.2 ++ scanAccesses b.1)

/-- What the call scans, wherever it is. -/
def Wait.scanned : Wait β → β
  | .waiting b _ => b
  | .done _ b _ => b

def Wait.isDone : Wait β → Bool
  | .waiting _ _ => false
  | .done _ _ _ => true

def Wait.map (g : β → γ) : Wait β → Wait γ
  | .waiting b s => .waiting (g b) s
  | .done ret b s => .done ret (g b) s

/-- The accesses of `sys_ppoll`, from its `copyin` to its `copyout`. -/
def PpollCall.accesses (me : Tid) (c : PpollCall) (now : Nat) (rounds : List (Round me)) (s : Threads) : List Access :=
  if c.nfds < 0 ∨ c.nfds > 1024 then []
  else if c.nfds > 0 ∧ c.badPollfd then []
  else if c.nfds = 0 then []
  else if c.alloc = false then []
  else
    match c.pollfd with
    | none => [.copy 0 c.copied]
    | some fds =>
      .copy 0 (POLLFD_SIZE * c.nfds.toNat) ::
        match enter me c.sigmask c.ts id now s with
        | .error _ => []
        | .ok (_, stop, s) =>
          let wait := Wait.run recordAll true stop rounds (fds, []) s
          wait.scanned.2 ++ if wait.isDone then [.copy 0 (POLLFD_SIZE * c.nfds.toNat)] else []

/-! ## What is asked of `ppoll` -/

/-- The entry as a scan should leave it. -/
def Round.polled (r : Round me) (p : PollFd) : PollFd :=
  { p with revents := if p.fd < 0 then 0 else (r.file p.fd.toNat).elim POLLNVAL fun poll => poll p.events }

/-- The result is that of the scan that ended the wait, the one of the last round. -/
def Reported (me : Tid) (a : PpollArgs) (now : Nat) (rounds : List (Round me)) (s : Threads) (ret : Int)
    (out : Option (List PollFd)) : Prop :=
  (a.nfds = 0 ∧ ret = 0 ∧ out = none) ∨
    ∃ fds pre r, a.pollfd = some fds ∧ pre ++ [r] <+: rounds ∧ sysPpoll me a now pre s = none ∧
      sysPpoll me a now (pre ++ [r]) s = sysPpoll me a now rounds s ∧
      out = some (fds.map r.polled) ∧ ret = (fds.map r.polled).countP (·.revents ≠ 0)

/-- The accesses are in bounds, and a result is the right one, for every course of the wait. -/
structure Contract (me : Tid) (c : PpollCall) (now : Nat) (s : Threads) : Prop where
  within : ∀ rounds, ∀ access ∈ c.accesses me now rounds s, access.Within
  reports : ∀ rounds ret out s', sysPpoll me c.toPpollArgs now rounds s = some (ret, out, s') → 0 ≤ ret →
    Reported me c.toPpollArgs now rounds s ret out

/-- The call gets to its `copyin`. -/
structure PpollArgs.Starts (a : PpollArgs) : Prop where
  pos : 0 < a.nfds
  le : a.nfds ≤ 1024
  pointer : a.badPollfd = false
  alloc : a.alloc = true

/-- The mask and the timeout are taken. -/
structure PpollArgs.Accepted (a : PpollArgs) : Prop where
  sigmask : a.sigmask ≠ some none
  copied : a.ts ≠ some none
  timeout : ∀ ts, a.ts = some (some ts) → ¬ts.Bad

/-- What is copied fits in the page, and the descriptors that are scanned are below `NOFILE`. -/
def PpollCall.Fits (c : PpollCall) : Prop :=
  c.Starts → (c.pollfd = none → c.copied ≤ PGSIZE) ∧
    ∀ fds, c.pollfd = some fds → POLLFD_SIZE * c.nfds.toNat ≤ PGSIZE ∧ (c.Accepted → ∀ p ∈ fds, p.fd < NOFILE)

variable {a : PpollArgs} {c : PpollCall} {now : Nat} {rounds pre : List (Round me)} {r : Round me} {s s' : Threads}
  {th : Thread} {stop : Option Nat} {old : Option UInt64} {scan : Round me → β → Int × β} {b b' : β} {w : Wait β}
  {looksAtKilled : Bool} {ret : Int} {fds : List PollFd} {p : PollFd}

/-! ## The wait -/

section Waiting

theorem Wait.step_scanned (hth : s me = some th) :
    (Wait.step scan looksAtKilled stop (.waiting b s) r).scanned = (scan r b).2 := by
  unfold Wait.step
  simp only [hth]
  split
  · rfl
  · generalize r.verdict looksAtKilled stop th = result
    obtain ⟨verdict, th'⟩ := result
    cases verdict
    all_goals rfl

/-- What every scan keeps holds of what is scanned. -/
theorem Wait.run_scanned {I : β → Prop} (hscan : ∀ r b, I b → I (scan r b).2) (h : I b) :
    I (Wait.run scan looksAtKilled stop rounds b s).scanned := by
  have hfold (w : Wait β) (hw : I w.scanned) : I (rounds.foldl (Wait.step scan looksAtKilled stop) w).scanned := by
    induction rounds generalizing w with
    | nil => exact hw
    | cons r rounds ih =>
      refine ih _ ?_
      cases w with
      | done ret b s => exact hw
      | waiting b s =>
        cases hth : s me with
        | none =>
          unfold Wait.step
          simp only [hth]
          exact hw
        | some th =>
          rw [Wait.step_scanned hth]
          exact hscan r b hw
  exact hfold _ h

theorem Wait.foldl_of_done : rounds.foldl (Wait.step scan looksAtKilled stop) (.done ret b s) = .done ret b s := by
  induction rounds with
  | nil => rfl
  | cons r rounds ih => exact ih

/-- A wait that is over was ended by one of its rounds. -/
theorem Wait.run_done (h : Wait.run scan looksAtKilled stop rounds b s = .done ret b' s') :
    ∃ pre r b₀ s₀, pre ++ [r] <+: rounds ∧ Wait.run scan looksAtKilled stop pre b s = .waiting b₀ s₀ ∧
      Wait.step scan looksAtKilled stop (.waiting b₀ s₀) r = .done ret b' s' := by
  induction rounds generalizing b s with
  | nil => cases h
  | cons r rounds ih =>
    cases hfirst : Wait.step scan looksAtKilled stop (.waiting b s) r with
    | done ret₁ b₁ s₁ =>
      rw [Wait.run, List.foldl_cons, hfirst, Wait.foldl_of_done] at h
      exact ⟨[], r, b, s, List.prefix_append [r] rounds, rfl, hfirst.trans h⟩
    | waiting b₁ s₁ =>
      rw [Wait.run, List.foldl_cons, hfirst] at h
      obtain ⟨pre, r', b₀, s₀, hprefix, hwaiting, hstep⟩ := ih h
      refine ⟨r :: pre, r', b₀, s₀, List.cons_prefix_cons.mpr ⟨rfl, hprefix⟩, ?_, hstep⟩
      rw [Wait.run, List.foldl_cons, hfirst]
      exact hwaiting

/-- A result that is no error is the result of the scan. -/
theorem Wait.step_done (h : Wait.step scan looksAtKilled stop (.waiting b s) r = .done ret b' s') (hret : 0 ≤ ret) :
    scan r b = (ret, b') := by
  unfold Wait.step at h
  dsimp only at h
  split at h
  · cases h
  · split at h
    · cases h
      rfl
    · rename_i hzero
      have hnone : (scan r b).1 = 0 := not_not.mp hzero
      split at h
      · cases h
        exact Prod.ext hnone rfl
      · cases h
        exact absurd hret (by decide)
      · cases h
        exact Prod.ext hnone rfl
      · cases h

theorem Wait.run_append {w : Wait β} (h : Wait.run scan looksAtKilled stop pre b s = w) :
    Wait.run scan looksAtKilled stop (pre ++ [r]) b s = w.step scan looksAtKilled stop r := by
  rw [Wait.run, List.foldl_append, ← h]
  rfl

end Waiting

/-! ## The part before the loop -/

section Entering

theorem setMask_alive (mask : UInt64) (hme : s me = some th) : ∃ th', setMask me mask s me = some th' := by
  unfold setMask
  rw [hme, Function.update_self]
  exact ⟨_, rfl⟩

/-- The timeout, after a mask that could be copied. -/
theorem enter_of_mask (adjust : Timespec → Timespec) (now : Nat) (s : Threads) (hmask : sigmask ≠ some none) :
    ∃ old s₁, (∀ th, s me = some th → ∃ th₁, s₁ me = some th₁) ∧
      enter me sigmask none adjust now s = .ok (old, none, s₁) ∧
      enter me sigmask (some none) adjust now s = .error (-EFAULT, restore me old s₁) ∧
      ∀ ts, enter me sigmask (some (some ts)) adjust now s =
        if ts.Bad then .error (-EINVAL, restore me old s₁) else .ok (old, some (endTime now (adjust ts)), s₁) := by
  cases sigmask with
  | none => exact ⟨none, s, fun th hme => ⟨th, hme⟩, rfl, rfl, fun _ => rfl⟩
  | some mask =>
    cases mask with
    | none => exact absurd rfl hmask
    | some mask => exact ⟨_, _, fun _ hme => setMask_alive mask hme, rfl, rfl, fun _ => rfl⟩

theorem enter_accepted (now : Nat) (h : a.Accepted) (hme : s me = some th) :
    ∃ old stop s₁ th₁, enter me a.sigmask a.ts id now s = .ok (old, stop, s₁) ∧ s₁ me = some th₁ := by
  obtain ⟨old, s₁, halive, hnone, -, hsome⟩ := enter_of_mask id now s h.sigmask
  obtain ⟨th₁, h₁⟩ := halive th hme
  cases hts : a.ts with
  | none => exact ⟨_, _, _, th₁, hnone, h₁⟩
  | some ts =>
    cases ts with
    | none => exact absurd hts h.copied
    | some ts =>
      rw [hsome, if_neg (h.timeout ts hts)]
      exact ⟨_, _, _, th₁, rfl, h₁⟩

theorem enter_refused (me : Tid) (now : Nat) (s : Threads) (h : ¬a.Accepted) :
    ∃ ret s', enter me a.sigmask a.ts id now s = .error (ret, s') ∧ ret < 0 := by
  by_cases hmask : a.sigmask = some none
  · rw [hmask]
    exact ⟨_, _, rfl, by decide⟩
  · obtain ⟨old, s₁, -, -, hfault, hsome⟩ := enter_of_mask id now s hmask
    cases hts : a.ts with
    | none => exact absurd ⟨hmask, by simp [hts], by simp [hts]⟩ h
    | some ts =>
      cases ts with
      | none => exact ⟨_, _, hfault, by decide⟩
      | some ts =>
        by_cases hbad : ts.Bad
        · rw [hsome, if_pos hbad]
          exact ⟨_, _, rfl, by decide⟩
        · refine absurd ⟨hmask, by simp [hts], fun ts' hts' => ?_⟩ h
          cases hts.symm.trans hts'
          exact hbad

end Entering

/-! ## The scans -/

section Scans

variable {ofile ofile' : Nat → Option (Nat → Nat)} {log : List Access}

/-- The record of a run is erased to the run. -/
theorem run_erase (fds : List PollFd) (log : List Access) :
    (Wait.run recordAll looksAtKilled stop rounds (fds, log) s).map Prod.fst =
      Wait.run pollAll looksAtKilled stop rounds fds s := by
  have hstep (r : Round me) (w : Wait (List PollFd × List Access)) : (w.step recordAll looksAtKilled stop r).map Prod.fst =
      (w.map Prod.fst).step pollAll looksAtKilled stop r := by
    cases w <;> grind [Wait.map, Wait.step, recordAll]
  have hfold (w : Wait (List PollFd × List Access)) : (rounds.foldl (Wait.step recordAll looksAtKilled stop) w).map Prod.fst =
      rounds.foldl (Wait.step pollAll looksAtKilled stop) (w.map Prod.fst) := by
    induction rounds generalizing w with
    | nil => rfl
    | cons r rounds ih => rw [List.foldl_cons, List.foldl_cons, ih, hstep]
  exact hfold _

theorem pollOne_fd : (pollOne ofile p).fd = p.fd := by
  unfold pollOne
  split
  · rfl
  · split
    all_goals rfl

/-- A scan depends on the descriptors and the requested events only. -/
theorem pollOne_pollOne : pollOne ofile (pollOne ofile' p) = pollOne ofile p := by
  unfold pollOne
  by_cases hneg : p.fd < 0
  · simp only [if_pos hneg]
  · simp only [if_neg hneg]
    cases ofile' p.fd.toNat with
    | none => simp only [if_neg hneg]
    | some poll => simp only [if_neg hneg]

/-- With a descriptor below `NOFILE` the scan finds what is there. -/
theorem pollOne_eq_polled (h : p.fd < NOFILE) : pollOne r.ofile p = r.polled p := by
  unfold pollOne Round.polled Round.file
  by_cases hneg : p.fd < 0
  · rw [if_pos hneg, if_pos hneg]
  · rw [if_neg hneg, if_neg hneg, if_pos (by omega)]
    cases r.ofile p.fd.toNat with
    | none => rfl
    | some poll => rfl

/-- Every scan of a run starts from the descriptors and events of the user. -/
theorem run_pollOne (looksAtKilled : Bool) (stop : Option Nat) (rounds : List (Round me)) (s : Threads) (fds : List PollFd)
    (ofile : Nat → Option (Nat → Nat)) :
    (Wait.run pollAll looksAtKilled stop rounds fds s).scanned.map (pollOne ofile) = fds.map (pollOne ofile) := by
  refine Wait.run_scanned (I := fun b : List PollFd => b.map (pollOne ofile) = fds.map (pollOne ofile)) (fun r b h => ?_) rfl
  unfold pollAll
  dsimp only
  rw [List.map_map, ← h]
  exact List.map_congr_left fun p _ => pollOne_pollOne

theorem within_copy_zero {n : Nat} : (Access.copy 0 n).Within ↔ n ≤ PGSIZE := by
  unfold Access.Within
  dsimp only
  rw [Nat.zero_add]

theorem mem_scanAccesses {access : Access} :
    access ∈ scanAccesses fds ↔ ∃ (i : Nat) (h : i < fds.length), access ∈ entryAccesses i fds[i] := by
  unfold scanAccesses
  rw [List.mem_flatten]
  simp only [List.mem_mapIdx]
  constructor
  · rintro ⟨_, ⟨i, hi, rfl⟩, hmem⟩
    exact ⟨i, hi, hmem⟩
  · rintro ⟨i, hi, hmem⟩
    exact ⟨_, ⟨i, hi, rfl⟩, hmem⟩

theorem scanAccesses_within (hlen : POLLFD_SIZE * fds.length ≤ PGSIZE) (hfds : ∀ p ∈ fds, p.fd < NOFILE) :
    ∀ access ∈ scanAccesses fds, access.Within := by
  intro access hmem
  obtain ⟨i, hi, hentry⟩ := mem_scanAccesses.mp hmem
  unfold entryAccesses at hentry
  rcases List.mem_cons.mp hentry with rfl | hfile
  · unfold Access.Within
    have hnext : POLLFD_SIZE * i + POLLFD_SIZE ≤ POLLFD_SIZE * fds.length := Nat.mul_le_mul_left POLLFD_SIZE hi
    exact hnext.trans hlen
  · split at hfile
    · cases hfile
    · rw [List.mem_singleton.mp hfile]
      have hlt := hfds _ (List.getElem_mem hi)
      unfold Access.Within
      omega

/-- A descriptor from `NOFILE` on is an index outside of the table. -/
theorem fd_lt_of_within (h : ∀ access ∈ scanAccesses fds, access.Within) : ∀ p ∈ fds, p.fd < NOFILE := by
  intro p hp
  obtain ⟨i, hi, rfl⟩ := List.getElem_of_mem hp
  by_contra hge
  have hin : Access.ofile fds[i].fd.toNat ∈ entryAccesses i fds[i] := by
    unfold entryAccesses
    rw [if_neg (by omega)]
    exact List.mem_cons_of_mem _ (List.mem_singleton_self _)
  have hlt : fds[i].fd.toNat < NOFILE := h _ (mem_scanAccesses.mpr ⟨i, hi, hin⟩)
  omega

/-- The accesses of a run are those of scans of the same descriptors. -/
theorem run_within (hlen : POLLFD_SIZE * fds.length ≤ PGSIZE) (hfds : ∀ p ∈ fds, p.fd < NOFILE) :
    ∀ access ∈ (Wait.run recordAll looksAtKilled stop rounds (fds, []) s).scanned.2, access.Within := by
  refine (Wait.run_scanned (I := fun b : List PollFd × List Access => (POLLFD_SIZE * b.1.length ≤ PGSIZE ∧ ∀ p ∈ b.1, p.fd < NOFILE) ∧
    ∀ access ∈ b.2, access.Within) (fun r b h => ?_) ⟨⟨hlen, hfds⟩, fun _ h => absurd h List.not_mem_nil⟩).2
  unfold recordAll pollAll
  refine ⟨⟨?_, fun p hp => ?_⟩, fun access hmem => ?_⟩
  · dsimp only
    rw [List.length_map]
    exact h.1.1
  · obtain ⟨q, hq, rfl⟩ := List.mem_map.mp hp
    rw [pollOne_fd]
    exact h.1.2 q hq
  · rcases List.mem_append.mp hmem with hold | hnew
    · exact h.2 access hold
    · exact scanAccesses_within h.1.1 h.1.2 access hnew

end Scans

/-! ## The call -/

section Calls

variable {out : Option (List PollFd)}

theorem not_starts (h : ¬a.Starts) : (a.nfds < 0 ∨ a.nfds > 1024) ∨ (a.nfds > 0 ∧ a.badPollfd = true) ∨ a.nfds = 0 ∨ a.alloc = false := by
  by_contra hno
  push Not at hno
  obtain ⟨hrange, hpointer, hzero, halloc⟩ := hno
  exact h ⟨by omega, by omega, Bool.eq_false_iff.mpr (hpointer (by omega)), Bool.ne_false_iff.mp halloc⟩

theorem accesses_eq (h : c.Starts) : c.accesses me now rounds s =
    match c.pollfd with
    | none => [.copy 0 c.copied]
    | some fds =>
      .copy 0 (POLLFD_SIZE * c.nfds.toNat) ::
        match enter me c.sigmask c.ts id now s with
        | .error _ => []
        | .ok (_, stop, s) =>
          let wait := Wait.run recordAll true stop rounds (fds, []) s
          wait.scanned.2 ++ if wait.isDone then [.copy 0 (POLLFD_SIZE * c.nfds.toNat)] else [] := by
  obtain ⟨hpos, hle, hpointer, halloc⟩ := h
  unfold PpollCall.accesses
  rw [if_neg (by omega), if_neg (by rw [hpointer]; simp), if_neg (by omega), if_neg (by rw [halloc]; decide)]

theorem accesses_nil (h : ¬c.Starts) : c.accesses me now rounds s = [] := by
  unfold PpollCall.accesses
  rcases not_starts h with hrange | hpointer | hzero | halloc
  · rw [if_pos hrange]
  · rw [if_pos hpointer, ite_self]
  · rw [if_pos hzero, ite_self, ite_self]
  · rw [if_pos halloc, ite_self, ite_self, ite_self]

theorem sysPpoll_eq (me : Tid) (now : Nat) (rounds : List (Round me)) (s : Threads) (h : a.Starts) (hfds : a.pollfd = some fds) : sysPpoll me a now rounds s =
    match enter me a.sigmask a.ts id now s with
    | .error (ret, s) => some (ret, none, s)
    | .ok (old, stop, s) =>
      match Wait.run pollAll true stop rounds fds s with
      | .waiting .. => none
      | .done ret fds s =>
        let s := restore me old s
        if a.copyout then some (ret, some fds, s) else some (-EFAULT, none, s) := by
  obtain ⟨hpos, hle, hpointer, halloc⟩ := h
  unfold sysPpoll
  rw [if_neg (by omega), if_neg (by rw [hpointer]; simp), if_neg (by omega), if_neg (by rw [halloc]; decide)]
  exact hfds ▸ rfl

/-- A call that does not get to its `copyin` fails, or has no entries. -/
theorem reported_of_not_starts (h : ¬a.Starts) (hme : s me = some th)
    (hcall : sysPpoll me a now rounds s = some (ret, out, s')) (hret : 0 ≤ ret) :
    a.nfds = 0 ∧ ret = 0 ∧ out = none := by
  unfold sysPpoll at hcall
  split at hcall
  · cases hcall
    exact absurd hret (by decide)
  split at hcall
  · cases hcall
    exact absurd hret (by decide)
  split at hcall
  · rename_i hzero
    by_cases haccepted : a.Accepted
    · obtain ⟨old, stop, s₁, th₁, henter, -⟩ := enter_accepted now haccepted hme
      rw [henter] at hcall
      dsimp only at hcall
      split at hcall
      · cases hcall
      · rename_i hdone
        cases hcall
        obtain ⟨pre, r, b₀, s₀, -, -, hstep⟩ := Wait.run_done hdone
        cases Wait.step_done hstep hret
        exact ⟨hzero, rfl, rfl⟩
    · obtain ⟨ret', s₁, henter, hneg⟩ := enter_refused me now s haccepted
      rw [henter] at hcall
      cases hcall
      exact absurd hret (Int.not_le.mpr hneg)
  split at hcall
  · cases hcall
    exact absurd hret (by decide)
  · rename_i hrange hpointer hzero halloc
    exact absurd h (not_not.mpr ⟨by omega, by omega, by simpa using fun h => hpointer ⟨by omega, h⟩, by simpa using halloc⟩)

/-- What a call returns that has got to its loop. -/
theorem reported_of_starts (h : a.Starts) (hfds : a.pollfd = some fds) (hlt : a.Accepted → ∀ p ∈ fds, p.fd < NOFILE)
    (hme : s me = some th) (hcall : sysPpoll me a now rounds s = some (ret, out, s')) (hret : 0 ≤ ret) :
    Reported me a now rounds s ret out := by
  by_cases haccepted : a.Accepted
  · obtain ⟨old, stop, s₁, th₁, henter, -⟩ := enter_accepted now haccepted hme
    have hrounds := sysPpoll_eq me now rounds s h hfds
    rw [henter] at hrounds
    rw [hrounds] at hcall
    dsimp only at hcall
    cases hwait : Wait.run pollAll true stop rounds fds s₁ with
    | waiting b s₂ =>
      rw [hwait] at hcall
      cases hcall
    | done ret' fds' s₂ =>
      rw [hwait] at hcall
      dsimp only at hcall
      split at hcall
      · cases hcall
        obtain ⟨pre, r, b₀, s₀, hprefix, hwaiting, hstep⟩ := Wait.run_done hwait
        -- the scans before the last have left the descriptors and events as they were
        have hlast : b₀.map (pollOne r.ofile) = fds.map r.polled := by
          have hsame := run_pollOne true stop pre s₁ fds r.ofile
          rw [hwaiting] at hsame
          rw [← List.map_congr_left fun p hp => pollOne_eq_polled (hlt haccepted p hp)]
          exact hsame
        have hscan := Wait.step_done hstep hret
        unfold pollAll at hscan
        dsimp only at hscan
        rw [hlast] at hscan
        obtain ⟨hcount, harray⟩ := Prod.mk.inj hscan
        refine .inr ⟨fds, pre, r, hfds, hprefix, ?_, ?_, congrArg some harray.symm, hcount.symm⟩
        · rw [sysPpoll_eq me now _ s h hfds, henter]
          dsimp only
          rw [hwaiting]
        · rw [hrounds, sysPpoll_eq me now _ s h hfds, henter]
          dsimp only
          rw [Wait.run_append hwaiting, hstep, hwait]
      · cases hcall
        exact absurd hret (by decide)
  · obtain ⟨ret', s₁, henter, hneg⟩ := enter_refused me now s haccepted
    rw [sysPpoll_eq me now _ s h hfds, henter] at hcall
    cases hcall
    exact absurd hret (Int.not_le.mpr hneg)

/-- `ppoll` stays in bounds, and returns what it should, exactly when what it copies fits in the page and the descriptors
are below `NOFILE`. -/
theorem ppoll_contract_iff (c : PpollCall) (now : Nat) (hme : s me = some th) : Contract me c now s ↔ c.Fits := by
  constructor
  · intro h hstarts
    have hwithin (rounds : List (Round me)) := h.within rounds
    simp only [accesses_eq hstarts] at hwithin
    refine ⟨fun hnone => ?_, fun fds hfds => ⟨?_, fun haccepted => ?_⟩⟩
    · simp only [hnone] at hwithin
      exact within_copy_zero.mp (hwithin [] _ (List.mem_singleton_self _))
    · simp only [hfds] at hwithin
      exact within_copy_zero.mp (hwithin [] _ List.mem_cons_self)
    · obtain ⟨old, stop, s₁, th₁, henter, hth₁⟩ := enter_accepted now haccepted hme
      simp only [hfds, henter] at hwithin
      refine fd_lt_of_within fun access hmem => hwithin [idleRound me 0] access ?_
      refine List.mem_cons_of_mem _ (List.mem_append_left _ ?_)
      have hscanned : (Wait.run recordAll true stop [idleRound me 0] (fds, []) s₁).scanned = (recordAll (idleRound me 0) (fds, [])).2 := by
        rw [Wait.run, List.foldl_cons, List.foldl_nil, Wait.step_scanned hth₁]
      rw [hscanned]
      exact hmem
  · intro hfits
    by_cases hstarts : c.Starts
    · obtain ⟨hnone, hsome⟩ := hfits hstarts
      refine ⟨fun rounds access hmem => ?_, fun rounds ret out s' hcall hret => ?_⟩
      · rw [accesses_eq hstarts] at hmem
        cases hpollfd : c.pollfd with
        | none =>
          rw [hpollfd] at hmem
          rw [List.mem_singleton.mp hmem]
          exact within_copy_zero.mpr (hnone hpollfd)
        | some fds =>
          obtain ⟨hlen, hlt⟩ := hsome fds hpollfd
          have hwhole : (Access.copy 0 (POLLFD_SIZE * c.nfds.toNat)).Within := within_copy_zero.mpr hlen
          rw [hpollfd] at hmem
          rcases List.mem_cons.mp hmem with rfl | hmem
          · exact hwhole
          by_cases haccepted : c.Accepted
          · obtain ⟨old, stop, s₁, th₁, henter, -⟩ := enter_accepted now haccepted hme
            rw [henter] at hmem
            rcases List.mem_append.mp hmem with hscan | hout
            · exact run_within ((c.entries fds hpollfd).symm ▸ hlen) (hlt haccepted) access hscan
            · split at hout
              · rw [List.mem_singleton.mp hout]
                exact hwhole
              · cases hout
          · obtain ⟨ret', s₁, henter, -⟩ := enter_refused me now s haccepted
            rw [henter] at hmem
            cases hmem
      · cases hpollfd : c.pollfd with
        | none =>
          have herror : sysPpoll me c.toPpollArgs now rounds s = some (-EFAULT, none, s) := by
            obtain ⟨hpos, hle, hpointer, halloc⟩ := hstarts
            unfold sysPpoll
            rw [if_neg (by omega), if_neg (by rw [hpointer]; simp), if_neg (by omega), if_neg (by rw [halloc]; decide),
              hpollfd]
          rw [herror] at hcall
          cases hcall
          exact absurd hret (by decide)
        | some fds => exact reported_of_starts hstarts hpollfd (hsome fds hpollfd).2 hme hcall hret
    · refine ⟨fun rounds access hmem => ?_, fun rounds ret out s' hcall hret =>
        .inl (reported_of_not_starts hstarts hme hcall hret)⟩
      rw [accesses_nil hstarts] at hmem
      cases hmem

/-- One entry, with descriptor 0. -/
def oneEntry : PpollCall where
  nfds := 1
  badPollfd := false
  alloc := true
  pollfd := some [⟨0, POLLIN, 0⟩]
  ts := none
  sigmask := none
  copyout := true
  entries := fun fds h => by cases h; rfl
  copied := 0

theorem ppoll_contract_one : Contract 1 oneEntry 0 Signal.oneThread := by
  refine (ppoll_contract_iff oneEntry 0 rfl).mpr fun _ => ⟨nofun, fun fds h => ?_⟩
  cases h
  exact ⟨by decide, fun _ => by decide⟩

/-- One entry more than a page holds. -/
def tooMany : PpollCall where
  nfds := 513
  badPollfd := false
  alloc := true
  pollfd := some (List.replicate 513 ⟨-1, 0, 0⟩)
  ts := none
  sigmask := none
  copyout := true
  entries := fun fds h => by rw [← Option.some.inj h, List.length_replicate]; rfl
  copied := 0

theorem not_contract_tooMany : ¬∀ me c now s (th : Thread), s me = some th → Contract me c now s := by
  intro h
  have hwithin := (h 1 tooMany 0 Signal.oneThread _ rfl).within []
  rw [accesses_eq ⟨by decide, by decide, rfl, rfl⟩] at hwithin
  exact absurd (within_copy_zero.mp (hwithin _ List.mem_cons_self)) (by decide)

end Calls

end SC7.Select
