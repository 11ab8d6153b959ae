-- SUMMARY: What `pselect6` reports: the spec of one scan, and exactly when the call reports the readiness that arises while it waits.
import SC7.Kernel.Select

/-!
# Readiness in `pselect6`

A scan clears the bits of the descriptors that are not ready in the sets it works on, and the wait loop
scans the same sets again. So a scan that finds nothing leaves nothing to look at below `nfds`, and the
rest of the wait only ends by a signal, a kill or the clock. The bits from `nfds` on are never looked at
and come back as they are.
-/

namespace SC7.Select

open Function (update update_self)
open Signal (Task Thread Threads Tid)

variable {me : Tid} {r : Round me} {set set' : Option FdSet} {sets : Sets} {events fd n : Nat} {l : List Nat}

/-- The descriptors in a set; none if there is no set. -/
def bitsOf (set : Option FdSet) : Finset Nat := set.elim ∅ FdSet.bits

/-- The descriptor is open and its `poll` operation answers. -/
def Round.Ready (r : Round me) (events fd : Nat) : Prop := (r.file fd).any (· events ≠ 0) = true

instance (r : Round me) (events fd : Nat) : Decidable (r.Ready events fd) :=
  inferInstanceAs (Decidable (_ = true))

/-- The descriptors of the set below `n` that are ready. -/
def readyIn (r : Round me) (n events : Nat) (set : Option FdSet) : Finset Nat :=
  (bitsOf set).filter fun fd => fd < n ∧ r.Ready events fd

/-- One of the descriptors below `n` that the call was asked about is not open. -/
def Closed (r : Round me) (n : Nat) (sets : Sets) : Prop :=
  ∃ fd < n, (fd ∈ bitsOf sets.read ∨ fd ∈ bitsOf sets.write ∨ fd ∈ bitsOf sets.except) ∧ r.file fd = none

/-- Nothing that the call was asked about is ready. -/
def NoneReady (r : Round me) (n : Nat) (sets : Sets) : Prop :=
  readyIn r n POLLIN sets.read = ∅ ∧ readyIn r n POLLOUT sets.write = ∅

instance (r : Round me) (n : Nat) (sets : Sets) : Decidable (NoneReady r n sets) :=
  inferInstanceAs (Decidable (_ ∧ _))

/-- No bit is set at or above `n`. -/
def Below (n : Nat) (sets : Sets) : Prop :=
  (∀ fd ∈ bitsOf sets.read, fd < n) ∧ (∀ fd ∈ bitsOf sets.write, fd < n) ∧ ∀ fd ∈ bitsOf sets.except, fd < n

instance (n : Nat) (sets : Sets) : Decidable (Below n sets) := inferInstanceAs (Decidable (_ ∧ _ ∧ _))

/-! ## One scan -/

section Scan

theorem isset_iff : isset set fd ↔ fd ∈ bitsOf set := by
  cases set with
  | none =>
    refine iff_of_false ?_ (Finset.notMem_empty fd)
    rintro ⟨_, h, -⟩
    cases h
  | some t =>
    refine ⟨?_, fun h => ⟨t, rfl, h⟩⟩
    rintro ⟨_, h, hmem⟩
    cases h
    exact hmem

theorem bitsOf_clr : bitsOf (set.map (·.clr fd)) = (bitsOf set).erase fd := by
  cases set with
  | none => exact (Finset.erase_empty fd).symm
  | some t => rfl

theorem checkFd_none : checkFd r events fd set = none ↔ fd ∈ bitsOf set ∧ r.file fd = none := by
  rw [checkFd]
  split
  · rename_i hset
    cases hfile : r.file fd with
    | none => exact ⟨fun _ => ⟨isset_iff.mp hset, rfl⟩, fun _ => rfl⟩
    | some poll =>
      dsimp only
      split <;> exact ⟨nofun, fun h => nomatch h.2⟩
  · rename_i hset
    exact ⟨nofun, fun h => absurd (isset_iff.mpr h.1) hset⟩

theorem checkExcept_none : checkExcept r fd set = none ↔ fd ∈ bitsOf set ∧ r.file fd = none := by
  rw [checkExcept]
  split
  · rename_i hset
    cases hfile : r.file fd with
    | none => exact ⟨fun _ => ⟨isset_iff.mp hset, rfl⟩, fun _ => rfl⟩
    | some poll => exact ⟨nofun, fun h => nomatch h.2⟩
  · rename_i hset
    exact ⟨nofun, fun h => absurd (isset_iff.mpr h.1) hset⟩

/-- A check keeps the descriptor exactly if it is ready, and then counts it. -/
theorem checkFd_some {k : Nat} (h : checkFd r events fd set = some (k, set')) :
    bitsOf set' = (bitsOf set).filter (fun fd' => fd' = fd → r.Ready events fd') ∧
      k = ((bitsOf set).filter fun fd' => fd' = fd ∧ r.Ready events fd').card := by
  rw [checkFd] at h
  split at h
  · rename_i hset
    rw [isset_iff] at hset
    cases hfile : r.file fd with
    | none =>
      rw [hfile] at h
      cases h
    | some poll =>
      rw [hfile] at h
      dsimp only at h
      split at h
      · rename_i hready
        have hready : r.Ready events fd := by simpa [Round.Ready, hfile] using hready
        cases h
        refine ⟨(Finset.filter_true_of_mem fun fd' _ heq => heq ▸ hready).symm, ?_⟩
        rw [show (bitsOf set).filter (fun fd' => fd' = fd ∧ r.Ready events fd') = {fd} by
          ext fd'
          simp only [Finset.mem_filter, Finset.mem_singleton]
          exact ⟨fun h => h.2.1, by rintro rfl; exact ⟨hset, rfl, hready⟩⟩]
        rfl
      · rename_i hready
        have hready : ¬r.Ready events fd := by simpa [Round.Ready, hfile] using hready
        cases h
        refine ⟨?_, ?_⟩
        · rw [bitsOf_clr]
          ext fd'
          simp only [Finset.mem_erase, Finset.mem_filter]
          exact ⟨fun h => ⟨h.2, fun heq => absurd heq h.1⟩, fun h => ⟨fun heq => hready (heq ▸ h.2 heq), h.1⟩⟩
        · rw [Finset.filter_false_of_mem, Finset.card_empty]
          rintro fd' - ⟨rfl, h⟩
          exact hready h
  · rename_i hset
    rw [isset_iff] at hset
    cases h
    refine ⟨(Finset.filter_true_of_mem ?_).symm, ?_⟩
    · rintro fd' hmem rfl
      exact absurd hmem hset
    rw [Finset.filter_false_of_mem, Finset.card_empty]
    rintro fd' hmem ⟨rfl, -⟩
    exact hset hmem

theorem checkExcept_some (h : checkExcept r fd set = some set') : bitsOf set' = (bitsOf set).erase fd := by
  rw [checkExcept] at h
  split at h
  · cases hfile : r.file fd with
    | none =>
      rw [hfile] at h
      cases h
    | some poll =>
      rw [hfile] at h
      cases h
      exact bitsOf_clr
  · rename_i hset
    rw [isset_iff] at hset
    cases h
    exact (Finset.erase_eq_of_notMem hset).symm

/-- One check and the checks of the descriptors behind it, together. -/
theorem checkFd_cons {k : Nat} (hfd : fd ∉ l) (h : checkFd r events fd set = some (k, set')) :
    (bitsOf set').filter (fun fd' => fd' ∈ l → r.Ready events fd') =
        (bitsOf set).filter (fun fd' => fd' ∈ fd :: l → r.Ready events fd') ∧
      k + ((bitsOf set').filter fun fd' => fd' ∈ l ∧ r.Ready events fd').card =
        ((bitsOf set).filter fun fd' => fd' ∈ fd :: l ∧ r.Ready events fd').card ∧
      ∀ fd' ∈ l, fd' ∈ bitsOf set' ↔ fd' ∈ bitsOf set := by
  obtain ⟨hbits, rfl⟩ := checkFd_some h
  refine ⟨?_, ?_, fun fd' hfd' => ?_⟩
  · rw [hbits, Finset.filter_filter]
    refine Finset.filter_congr fun fd' _ => ?_
    rw [List.mem_cons, or_imp]
  · rw [← Finset.card_union_of_disjoint]
    · congr 1
      rw [hbits]
      ext fd'
      simp only [Finset.mem_union, Finset.mem_filter, List.mem_cons]
      grind
    · refine Finset.disjoint_left.mpr fun fd' h h' => hfd ?_
      rw [Finset.mem_filter] at h h'
      exact h.2.1 ▸ h'.2.1
  · rw [hbits, Finset.mem_filter]
    exact ⟨fun h => h.1, fun h => ⟨h, fun heq => absurd (heq ▸ hfd') hfd⟩⟩

/-- A descriptor of one of the sets that is in this list and not open. -/
def ClosedAmong (r : Round me) (l : List Nat) (sets : Sets) : Prop :=
  ∃ fd ∈ l, (fd ∈ bitsOf sets.read ∨ fd ∈ bitsOf sets.write ∨ fd ∈ bitsOf sets.except) ∧ r.file fd = none

/-- A descriptor that passes the three checks is open, so the others decide. -/
theorem closedAmong_cons {k m : Nat} {rd wr ex : Option FdSet} (hfd : fd ∉ l)
    (hread : checkFd r POLLIN fd sets.read = some (k, rd)) (hwrite : checkFd r POLLOUT fd sets.write = some (m, wr))
    (hexcept : checkExcept r fd sets.except = some ex) :
    ClosedAmong r (fd :: l) sets ↔ ClosedAmong r l ⟨rd, wr, ex⟩ := by
  obtain ⟨-, -, hmemR⟩ := checkFd_cons hfd hread
  obtain ⟨-, -, hmemW⟩ := checkFd_cons hfd hwrite
  have hmemE : ∀ fd' ∈ l, fd' ∈ bitsOf ex ↔ fd' ∈ bitsOf sets.except := by
    intro fd' hfd'
    rw [checkExcept_some hexcept, Finset.mem_erase]
    exact ⟨fun h => h.2, fun h => ⟨fun heq => hfd (heq ▸ hfd'), h⟩⟩
  constructor
  · rintro ⟨fd', hfd', hmem, hfile⟩
    rcases List.mem_cons.mp hfd' with rfl | hfd'
    · rcases hmem with hmem | hmem | hmem
      · rw [checkFd_none.mpr ⟨hmem, hfile⟩] at hread
        cases hread
      · rw [checkFd_none.mpr ⟨hmem, hfile⟩] at hwrite
        cases hwrite
      · rw [checkExcept_none.mpr ⟨hmem, hfile⟩] at hexcept
        cases hexcept
    · refine ⟨fd', hfd', ?_, hfile⟩
      rwa [hmemR fd' hfd', hmemW fd' hfd', hmemE fd' hfd']
  · rintro ⟨fd', hfd', hmem, hfile⟩
    refine ⟨fd', List.mem_cons_of_mem fd hfd', ?_, hfile⟩
    rwa [hmemR fd' hfd', hmemW fd' hfd', hmemE fd' hfd'] at hmem

theorem selectLoop_spec (hnodup : l.Nodup) (ret : Nat) (sets : Sets) :
    (ClosedAmong r l sets → (selectLoop r l ret sets).1 = -EBADF) ∧
      (¬ClosedAmong r l sets →
        (selectLoop r l ret sets).1 =
            (ret + ((bitsOf sets.read).filter fun fd => fd ∈ l ∧ r.Ready POLLIN fd).card +
              ((bitsOf sets.write).filter fun fd => fd ∈ l ∧ r.Ready POLLOUT fd).card : Nat) ∧
          bitsOf (selectLoop r l ret sets).2.read =
            (bitsOf sets.read).filter (fun fd => fd ∈ l → r.Ready POLLIN fd) ∧
          bitsOf (selectLoop r l ret sets).2.write =
            (bitsOf sets.write).filter (fun fd => fd ∈ l → r.Ready POLLOUT fd) ∧
          bitsOf (selectLoop r l ret sets).2.except = (bitsOf sets.except).filter (fun fd => fd ∉ l)) := by
  induction l generalizing ret sets with
  | nil => simp [selectLoop, ClosedAmong]
  | cons fd l ih =>
    obtain ⟨hfd, hnodup⟩ := List.nodup_cons.mp hnodup
    rw [selectLoop]
    cases hread : checkFd r POLLIN fd sets.read with
    | none =>
      obtain ⟨hmem, hfile⟩ := checkFd_none.mp hread
      exact ⟨fun _ => rfl, fun h => absurd ⟨fd, List.mem_cons_self, .inl hmem, hfile⟩ h⟩
    | some x =>
      obtain ⟨k, rd⟩ := x
      dsimp only
      cases hwrite : checkFd r POLLOUT fd sets.write with
      | none =>
        obtain ⟨hmem, hfile⟩ := checkFd_none.mp hwrite
        exact ⟨fun _ => rfl, fun h => absurd ⟨fd, List.mem_cons_self, .inr (.inl hmem), hfile⟩ h⟩
      | some x =>
        obtain ⟨m, wr⟩ := x
        dsimp only
        cases hexcept : checkExcept r fd sets.except with
        | none =>
          obtain ⟨hmem, hfile⟩ := checkExcept_none.mp hexcept
          exact ⟨fun _ => rfl, fun h => absurd ⟨fd, List.mem_cons_self, .inr (.inr hmem), hfile⟩ h⟩
        | some ex =>
          dsimp only
          obtain ⟨hkeepR, hcountR, -⟩ := checkFd_cons hfd hread
          obtain ⟨hkeepW, hcountW, -⟩ := checkFd_cons hfd hwrite
          have hbitsE := checkExcept_some hexcept
          have hclosed := closedAmong_cons hfd hread hwrite hexcept
          obtain ⟨hbad, hgood⟩ := ih hnodup (ret + k + m) ⟨rd, wr, ex⟩
          refine ⟨fun h => hbad (hclosed.mp h), fun h => ?_⟩
          obtain ⟨hret, hR, hW, hE⟩ := hgood fun h' => h (hclosed.mpr h')
          refine ⟨?_, hR.trans hkeepR, hW.trans hkeepW, ?_⟩
          · dsimp only at hret
            rw [hret, ← hcountR, ← hcountW]
            omega
          · rw [hE]
            dsimp only
            rw [hbitsE]
            ext fd'
            simp only [Finset.mem_filter, Finset.mem_erase, List.mem_cons, not_or]
            tauto

/-- A scan fails if it meets a descriptor that is not open. Otherwise it counts the descriptors that are
ready and clears the others below `nfds`. -/
theorem doSelect_spec {nfds : Int} (hnfds : 0 ≤ nfds) (r : Round me) (sets : Sets) :
    (Closed r nfds.toNat sets → (doSelect nfds r sets).1 = -EBADF) ∧
      (¬Closed r nfds.toNat sets →
        (doSelect nfds r sets).1 =
            ((readyIn r nfds.toNat POLLIN sets.read).card + (readyIn r nfds.toNat POLLOUT sets.write).card : Nat) ∧
          bitsOf (doSelect nfds r sets).2.read =
            (bitsOf sets.read).filter (fun fd => fd < nfds.toNat → r.Ready POLLIN fd) ∧
          bitsOf (doSelect nfds r sets).2.write =
            (bitsOf sets.write).filter (fun fd => fd < nfds.toNat → r.Ready POLLOUT fd) ∧
          bitsOf (doSelect nfds r sets).2.except = (bitsOf sets.except).filter (fun fd => ¬fd < nfds.toNat)) := by
  rw [doSelect, if_neg (by omega)]
  split
  · rename_i hnone
    obtain ⟨hread, hwrite, hexcept⟩ := hnone
    obtain ⟨rd, wr, ex⟩ := sets
    obtain rfl : rd = none := hread
    obtain rfl : wr = none := hwrite
    obtain rfl : ex = none := hexcept
    simp [Closed, bitsOf, readyIn]
  · have hspec := selectLoop_spec (r := r) (List.nodup_range (n := nfds.toNat)) 0 sets
    simp only [ClosedAmong, List.mem_range, Nat.zero_add] at hspec
    exact hspec

/-- There is nothing to look at below `n`. -/
def Drained (n : Nat) (sets : Sets) : Prop :=
  (∀ fd ∈ bitsOf sets.read, n ≤ fd) ∧ (∀ fd ∈ bitsOf sets.write, n ≤ fd) ∧ ∀ fd ∈ bitsOf sets.except, n ≤ fd

theorem selectLoop_skip (ret : Nat)
    (h : ∀ fd ∈ l, fd ∉ bitsOf sets.read ∧ fd ∉ bitsOf sets.write ∧ fd ∉ bitsOf sets.except) :
    selectLoop r l ret sets = ((ret : Int), sets) := by
  induction l with
  | nil => rfl
  | cons fd l ih =>
    obtain ⟨hread, hwrite, hexcept⟩ := h fd List.mem_cons_self
    rw [selectLoop, checkFd, if_neg (mt isset_iff.mp hread)]
    dsimp only
    rw [checkFd, if_neg (mt isset_iff.mp hwrite)]
    dsimp only
    rw [checkExcept, if_neg (mt isset_iff.mp hexcept)]
    exact ih fun fd' hfd' => h fd' (List.mem_cons_of_mem fd hfd')

theorem doSelect_drained {nfds : Int} (hnfds : 0 ≤ nfds) (h : Drained nfds.toNat sets) :
    doSelect nfds r sets = (0, sets) := by
  rw [doSelect, if_neg (by omega)]
  split
  · rfl
  · refine selectLoop_skip 0 fun fd hfd => ?_
    have hlt := List.mem_range.mp hfd
    exact ⟨fun hmem => absurd (h.1 fd hmem) (by omega), fun hmem => absurd (h.2.1 fd hmem) (by omega),
      fun hmem => absurd (h.2.2 fd hmem) (by omega)⟩

/-- The sets behind a scan that found nothing: what was below `nfds` is gone, the rest is as it was. -/
theorem doSelect_zero {nfds : Int} (hnfds : 0 ≤ nfds) (hopen : ¬Closed r nfds.toNat sets)
    (hnone : NoneReady r nfds.toNat sets) :
    (doSelect nfds r sets).1 = 0 ∧ Drained nfds.toNat (doSelect nfds r sets).2 ∧
      (Below nfds.toNat (doSelect nfds r sets).2 ↔ Below nfds.toNat sets) := by
  obtain ⟨hret, hread, hwrite, hexcept⟩ := (doSelect_spec hnfds r sets).2 hopen
  have hdrained : ∀ (events : Nat) (set : Option FdSet), readyIn r nfds.toNat events set = ∅ →
      ∀ fd ∈ (bitsOf set).filter (fun fd => fd < nfds.toNat → r.Ready events fd), nfds.toNat ≤ fd := by
    intro events set hempty fd hfd
    rw [Finset.mem_filter] at hfd
    by_contra hlt
    have hmem : fd ∈ readyIn r nfds.toNat events set :=
      Finset.mem_filter.mpr ⟨hfd.1, by omega, hfd.2 (by omega)⟩
    rw [hempty] at hmem
    exact Finset.notMem_empty fd hmem
  have hkept : ∀ (p : Nat → Prop) [DecidablePred p] (set : Option FdSet), (∀ fd, nfds.toNat ≤ fd → p fd) →
      ((∀ fd ∈ (bitsOf set).filter p, fd < nfds.toNat) ↔ ∀ fd ∈ bitsOf set, fd < nfds.toNat) := by
    intro p _ set hp
    refine ⟨fun h fd hfd => ?_, fun h fd hfd => h fd (Finset.mem_filter.mp hfd).1⟩
    by_contra hge
    exact hge (h fd (Finset.mem_filter.mpr ⟨hfd, hp fd (by omega)⟩))
  refine ⟨?_, ⟨?_, ?_, ?_⟩, ?_⟩
  · rw [hret, hnone.1, hnone.2]
    rfl
  · rw [hread]
    exact hdrained POLLIN sets.read hnone.1
  · rw [hwrite]
    exact hdrained POLLOUT sets.write hnone.2
  · intro fd hfd
    rw [hexcept, Finset.mem_filter] at hfd
    omega
  · rw [Below, Below, hread, hwrite, hexcept, hkept _ sets.read fun fd hge hlt => absurd hlt (by omega),
      hkept _ sets.write fun fd hge hlt => absurd hlt (by omega), hkept _ sets.except fun fd hge => by omega]

end Scan

/-! ## What is to be reported -/

section Reports

/-- The time that the caller asked for. -/
def PselectArgs.deadline (a : PselectArgs) (now : Nat) : Option Nat :=
  match a.timeout with
  | some (some ts) => some (now + ts.ticks)
  | _ => none

/-- The deadline, if there is one, is still ahead in this round. -/
def Before (a : PselectArgs) (now : Nat) (r : Round me) : Prop := ∀ d, a.deadline now = some d → r.time < d

/-- The deadline has passed in this round. -/
def Elapsed (a : PselectArgs) (now : Nat) (r : Round me) : Prop := ∃ d, a.deadline now = some d ∧ d ≤ r.time

/-- The number of bits in the three sets. -/
def Sets.total (sets : Sets) : Nat :=
  (bitsOf sets.read).card + (bitsOf sets.write).card + (bitsOf sets.except).card

/-- A return with a count. The sets hold what was asked for and is ready in the last round, the count is
the number of their bits, and if it is zero then the time is over or the process is killed. -/
def ReturnOk (me : Tid) (a : PselectArgs) (now : Nat) (sets : Sets) (r : Round me) (ret : Int)
    (out : Option Sets) (s' : Threads) : Prop :=
  ∃ res, out = some res ∧
    bitsOf res.read = readyIn r a.nfds.toNat POLLIN sets.read ∧
    bitsOf res.write = readyIn r a.nfds.toNat POLLOUT sets.write ∧
    bitsOf res.except = ∅ ∧ ret = res.total ∧
    (ret = 0 → Elapsed a now r ∨ ∃ th, s' me = some th ∧ th.task.killed ≠ 0)

/-- The call returns, and the descriptor is in the sets that come back. -/
def ReturnsWith (fd : Nat) (read : Bool) (result : Option (Int × Option Sets × Threads)) : Prop :=
  ∃ ret res s', result = some (ret, some res, s') ∧ 0 ≤ ret ∧
    if read then fd ∈ bitsOf res.read else fd ∈ bitsOf res.write

/-- What a call should report over these rounds: its return is as it should be, and a descriptor that is
ready in a round behind the first and before the deadline ends it. -/
def Reports (me : Tid) (a : PselectArgs) (now : Nat) (rounds : List (Round me)) (s : Threads) : Prop :=
  ∀ sets, a.sets = some sets → ∀ pre r, pre ++ [r] <+: rounds → sysPselect6 me a now pre s = none →
    (∀ ret out s', sysPselect6 me a now (pre ++ [r]) s = some (ret, out, s') → 0 ≤ ret →
        ReturnOk me a now sets r ret out s') ∧
      (pre ≠ [] → Before a now r →
        (∀ fd ∈ readyIn r a.nfds.toNat POLLIN sets.read, ReturnsWith fd true (sysPselect6 me a now (pre ++ [r]) s)) ∧
          ∀ fd ∈ readyIn r a.nfds.toNat POLLOUT sets.write, ReturnsWith fd false (sysPselect6 me a now (pre ++ [r]) s))

/-- The sets, the mask to put back, the time to stop and the threads when the call enters its loop. -/
def entered (me : Tid) (a : PselectArgs) (now : Nat) (s : Threads) :
    Option (Sets × Option UInt64 × Option Nat × Threads) :=
  if a.nfds < 0 ∨ a.nfds > FD_SETSIZE then none
  else
    match a.sets, enter me a.sigmask a.timeout twoSeconds now s with
    | some sets, .ok (old, stop, s) => some (sets, old, stop, s)
    | _, _ => none

/-- The rounds go by without a kill, a signal or the end of the time. -/
def idle (stop : Option Nat) : List (Round me) → Threads → Option Threads
  | [], s => some s
  | r :: rounds, s =>
    match s me with
    | none => none
    | some th =>
      match r.verdict true stop th with
      | (.goesOn, th) => idle stop rounds (r.others (update s me (some th)))
      | _ => none

/-- A round that is reached without anything ready: nothing may be ready in it before the deadline, and
if it ends the wait with zero then nothing is ready, no bit is left over, and the time is over or the
process is killed. -/
def LaterOk (a : PselectArgs) (now : Nat) (sets : Sets) (stop : Option Nat) (r : Round me) (th : Thread) : Prop :=
  (Before a now r → NoneReady r a.nfds.toNat sets) ∧
    ((r.verdict true stop th).1 = .killed ∨ (r.verdict true stop th).1 = .expired → a.writable = true →
      NoneReady r a.nfds.toNat sets ∧ Below a.nfds.toNat sets ∧
        ((r.verdict true stop th).1 = .expired → Elapsed a now r))

/-- When a call reports what it should. Once it is in its loop: the first scan fails, or it finds
something and there are no bits from `nfds` on, or it finds nothing and all that follows is as above. -/
def Meets (me : Tid) (a : PselectArgs) (now : Nat) (rounds : List (Round me)) (s : Threads) : Prop :=
  ∀ sets old stop s₁, entered me a now s = some (sets, old, stop, s₁) → ∀ r₀ rest, rounds = r₀ :: rest →
    Closed r₀ a.nfds.toNat sets ∨
      (¬NoneReady r₀ a.nfds.toNat sets ∧ (a.writable = true → Below a.nfds.toNat sets)) ∨
      (NoneReady r₀ a.nfds.toNat sets ∧
        ∀ pre r s' th, pre ++ [r] <+: rounds → idle stop pre s₁ = some s' → s' me = some th →
          LaterOk a now sets stop r th)

end Reports

/-! ## The wait -/

section Waiting

variable {a : PselectArgs} {now : Nat} {s s' s₁ out : Threads} {old : Option UInt64} {stop : Option Nat}
  {rounds pre rest : List (Round me)} {b : Sets} {th th' : Thread} {r₀ : Round me} {w : Wait Sets} {nfds ret : Int}
  {m : UInt64}

/-- What the call makes of the end of its loop. -/
def leave (me : Tid) (a : PselectArgs) (old : Option UInt64) : Wait Sets → Option (Int × Option Sets × Threads)
  | .waiting .. => none
  | .done ret sets s =>
    if a.writable then some (ret, some sets, restore me old s) else some (-EFAULT, none, restore me old s)

theorem entered_some (h : entered me a now s = some (sets, old, stop, s₁)) :
    0 ≤ a.nfds ∧ a.sets = some sets ∧ enter me a.sigmask a.timeout twoSeconds now s = .ok (old, stop, s₁) ∧
      ∀ rounds, sysPselect6 me a now rounds s = leave me a old (Wait.run (doSelect a.nfds) true stop rounds sets s₁) := by
  rw [entered] at h
  split at h
  · cases h
  rename_i hnfds
  split at h
  · rename_i hsets henter
    cases h
    refine ⟨by omega, hsets, henter, fun rounds => ?_⟩
    rw [sysPselect6, if_neg hnfds, hsets]
    dsimp only
    rw [henter]
    dsimp only
    cases Wait.run (doSelect a.nfds) true stop rounds sets s₁ with
    | waiting b s => rfl
    | done ret b s => rfl
  · cases h

theorem entered_none (h : entered me a now s = none) (rounds : List (Round me)) :
    sysPselect6 me a now rounds s ≠ none := by
  rw [entered] at h
  rw [sysPselect6]
  split
  · exact Option.some_ne_none _
  · rename_i hnfds
    rw [if_neg hnfds] at h
    cases hsets : a.sets with
    | none => exact Option.some_ne_none _
    | some sets =>
      dsimp only
      cases henter : enter me a.sigmask a.timeout twoSeconds now s with
      | error e => exact Option.some_ne_none _
      | ok x =>
        rw [hsets, henter] at h
        cases h

/-- The end of a round whose scan finds nothing. -/
def Wait.end (r : Round me) (stop : Option Nat) (b : Sets) (s : Threads) (th : Thread) : Wait Sets :=
  match r.verdict true stop th with
  | (.killed, th) => .done 0 b (update s me (some th))
  | (.interrupted, th) => .done (-EINTR) b (update s me (some th))
  | (.expired, th) => .done 0 b (update s me (some th))
  | (.goesOn, th) => .waiting b (r.others (update s me (some th)))

theorem Wait.step_zero {b' : Sets} (hth : s me = some th) (hscan : doSelect nfds r b = (0, b')) :
    Wait.step (doSelect nfds) true stop (.waiting b s) r = Wait.end r stop b' s th := by
  rw [step, hth]
  dsimp only
  rw [hscan, if_neg (by simp)]
  rfl

theorem Wait.foldl_done (ret : Int) (b : Sets) (s : Threads) (rounds : List (Round me)) :
    rounds.foldl (Wait.step (doSelect nfds) true stop) (.done ret b s) = .done ret b s := by
  induction rounds with
  | nil => rfl
  | cons r rounds ih => exact ih

theorem exists_thread (h : maskOf me s = some m) : ∃ th, s me = some th := by
  obtain ⟨th, hth, -⟩ := Option.map_eq_some_iff.mp h
  exact ⟨th, hth⟩

/-- The same rounds end the loop and the idle wait, once there is nothing to look at. -/
theorem run_drained (stop : Option Nat) (pre : List (Round me)) (hnfds : 0 ≤ nfds) (hb : Drained nfds.toNat b)
    (hlive : maskOf me s = some m) :
    (∀ s', idle stop pre s = some s' →
        pre.foldl (Wait.step (doSelect nfds) true stop) (.waiting b s) = .waiting b s') ∧
      (idle stop pre s = none →
        ∃ ret b' s', pre.foldl (Wait.step (doSelect nfds) true stop) (.waiting b s) = .done ret b' s') := by
  induction pre generalizing s with
  | nil =>
    refine ⟨fun s' h => ?_, nofun⟩
    cases h
    rfl
  | cons r pre ih =>
    obtain ⟨th, hth⟩ := exists_thread hlive
    rw [List.foldl_cons, Wait.step_zero hth (doSelect_drained hnfds hb), idle, hth]
    dsimp only
    have hsigSet := r.verdict_sigSet true stop th
    obtain ⟨v, th', hverdict⟩ : ∃ v th', r.verdict true stop th = (v, th') := ⟨_, _, rfl⟩
    rw [Wait.end, hverdict]
    rw [hverdict] at hsigSet
    cases v with
    | killed => exact ⟨nofun, fun _ => ⟨_, _, _, Wait.foldl_done ..⟩⟩
    | interrupted => exact ⟨nofun, fun _ => ⟨_, _, _, Wait.foldl_done ..⟩⟩
    | expired => exact ⟨nofun, fun _ => ⟨_, _, _, Wait.foldl_done ..⟩⟩
    | goesOn =>
      refine ih (r.maskOf_others ?_)
      rw [maskOf_update_self, hsigSet, ← maskOf_of_eq hth, hlive]

/-- The whole wait behind a first scan that finds nothing. Every scan after it works on the same sets. -/
theorem run_idle (hnfds : 0 ≤ nfds)
    (hlive : maskOf me s₁ = some m) (hfirst : doSelect nfds r₀ sets = (0, b)) (hb : Drained nfds.toNat b)
    (hpre : pre ++ [r] <+: r₀ :: rest) :
    (∀ s', idle stop pre s₁ = some s' →
        ∃ b', Wait.run (doSelect nfds) true stop pre sets s₁ = .waiting b' s' ∧ doSelect nfds r b' = (0, b)) ∧
      (idle stop pre s₁ = none →
        ∃ ret b' s', Wait.run (doSelect nfds) true stop pre sets s₁ = .done ret b' s') := by
  cases pre with
  | nil =>
    obtain rfl : r = r₀ := (List.cons_prefix_cons.mp hpre).1
    refine ⟨fun s' h => ?_, fun h => absurd h (Option.some_ne_none _)⟩
    cases h
    exact ⟨sets, rfl, hfirst⟩
  | cons r' pre =>
    obtain rfl : r' = r₀ := (List.cons_prefix_cons.mp hpre).1
    obtain ⟨th, hth⟩ := exists_thread hlive
    rw [Wait.run, List.foldl_cons, Wait.step_zero hth hfirst, idle, hth]
    dsimp only
    have hsigSet := r'.verdict_sigSet true stop th
    obtain ⟨v, th', hverdict⟩ : ∃ v th', r'.verdict true stop th = (v, th') := ⟨_, _, rfl⟩
    rw [Wait.end, hverdict]
    rw [hverdict] at hsigSet
    cases v with
    | killed => exact ⟨fun _ h => absurd h.symm (Option.some_ne_none _), fun _ => ⟨_, _, _, Wait.foldl_done ..⟩⟩
    | interrupted => exact ⟨fun _ h => absurd h.symm (Option.some_ne_none _), fun _ => ⟨_, _, _, Wait.foldl_done ..⟩⟩
    | expired => exact ⟨fun _ h => absurd h.symm (Option.some_ne_none _), fun _ => ⟨_, _, _, Wait.foldl_done ..⟩⟩
    | goesOn =>
      have hnext : maskOf me (r'.others (update s₁ me (some th'))) = some m := by
        refine r'.maskOf_others ?_
        rw [maskOf_update_self, hsigSet, ← maskOf_of_eq hth, hlive]
      obtain ⟨hwaits, hends⟩ := run_drained stop pre hnfds hb hnext
      exact ⟨fun s' h => ⟨b, hwaits s' h, doSelect_drained hnfds hb⟩, hends⟩

/-! ## A return of zero -/

theorem killed_restore (old : Option UInt64) (s : Threads) (hth : s me = some th) :
    ∃ th', restore me old s me = some th' ∧ th'.task.killed = th.task.killed := by
  cases old with
  | none => exact ⟨th, hth, rfl⟩
  | some mask =>
    refine ⟨th.setMask mask, ?_, rfl⟩
    rw [restore, setMask, update_self, hth, Option.map_some]

/-- Sets that only have bits from `nfds` on are the right answer exactly if nothing is ready and they
are empty. -/
theorem returnOk_zero (hb : Drained a.nfds.toNat b) : ReturnOk me a now sets r 0 (some b) out ↔
      NoneReady r a.nfds.toNat sets ∧ Below a.nfds.toNat b ∧
        (Elapsed a now r ∨ ∃ th, out me = some th ∧ th.task.killed ≠ 0) := by
  have hempty : ∀ set : Option FdSet, (∀ fd ∈ bitsOf set, a.nfds.toNat ≤ fd) →
      (∀ fd ∈ bitsOf set, fd < a.nfds.toNat) → bitsOf set = ∅ := fun set hge hlt =>
    Finset.eq_empty_of_forall_notMem fun fd hfd => absurd (hlt fd hfd) (by have := hge fd hfd; omega)
  constructor
  · rintro ⟨res, hres, hread, hwrite, hexcept, htotal, hzero⟩
    cases hres
    have hcard : b.total = 0 := by omega
    rw [Sets.total] at hcard
    have hR : bitsOf b.read = ∅ := Finset.card_eq_zero.mp (by omega)
    have hW : bitsOf b.write = ∅ := Finset.card_eq_zero.mp (by omega)
    refine ⟨⟨?_, ?_⟩, ⟨?_, ?_, ?_⟩, hzero rfl⟩
    · rw [← hread, hR]
    · rw [← hwrite, hW]
    · simp [hR]
    · simp [hW]
    · simp [hexcept]
  · rintro ⟨⟨hreadyR, hreadyW⟩, hbelow, hend⟩
    have hR := hempty b.read hb.1 hbelow.1
    have hW := hempty b.write hb.2.1 hbelow.2.1
    have hE := hempty b.except hb.2.2 hbelow.2.2
    refine ⟨b, rfl, by rw [hR, hreadyR], by rw [hW, hreadyW], hE, ?_, fun _ => hend⟩
    rw [Sets.total, hR, hW, hE]
    rfl

/-- The kill comes first, and the checks leave it as it is. -/
theorem Round.verdict_killed (r : Round me) (stop : Option Nat) (th : Thread) :
    (r.verdict true stop th).2.task.killed = th.task.killed ∧
      ((r.verdict true stop th).1 = .killed ↔ th.task.killed ≠ 0) := by
  obtain ⟨p, hp⟩ := th.task.checkPendingSignals_eq
  have hsame : th.task.checkPendingSignals.2.killed = th.task.killed := by rw [hp]
  rw [verdict]
  split
  · rename_i hkilled
    exact ⟨rfl, fun _ => hkilled.2, fun _ => rfl⟩
  · rename_i hkilled
    have hnot : ¬th.task.killed ≠ 0 := fun h => hkilled ⟨rfl, h⟩
    dsimp only
    split
    · exact ⟨hsame, iff_of_false (by rintro ⟨⟩) hnot⟩
    · split
      · exact ⟨hsame, iff_of_false (by rintro ⟨⟩) hnot⟩
      · split
        · exact ⟨hsame, iff_of_false (by rintro ⟨⟩) hnot⟩
        · exact ⟨hsame, iff_of_false (by rintro ⟨⟩) hnot⟩

/-- The sets that come back from a round whose scan finds nothing. -/
theorem leave_end_sets {res : Sets}
    (h : leave me a old (Wait.end r stop b s th) = some (ret, some res, out)) : res = b := by
  rw [Wait.end] at h
  split at h
  all_goals
    rw [leave] at h
    try split at h
  all_goals cases h
  all_goals rfl

/-- The return of such a round is right exactly under the second part of the condition. -/
theorem returnOk_end (hb : Drained a.nfds.toNat b) (hbelow : Below a.nfds.toNat b ↔ Below a.nfds.toNat sets) :
    (∀ ret out s', leave me a old (Wait.end r stop b s th) = some (ret, out, s') → 0 ≤ ret →
        ReturnOk me a now sets r ret out s') ↔
      ((r.verdict true stop th).1 = .killed ∨ (r.verdict true stop th).1 = .expired → a.writable = true →
        NoneReady r a.nfds.toNat sets ∧ Below a.nfds.toNat sets ∧
          ((r.verdict true stop th).1 = .expired → Elapsed a now r)) := by
  obtain ⟨hkeeps, hkilled⟩ := r.verdict_killed stop th
  obtain ⟨v, th', hverdict⟩ : ∃ v th', r.verdict true stop th = (v, th') := ⟨_, _, rfl⟩
  rw [Wait.end, hverdict]
  rw [hverdict] at hkeeps hkilled
  dsimp only at hkeeps hkilled ⊢
  obtain ⟨th'', hth'', hkilled''⟩ := killed_restore old (update s me (some th')) (update_self ..)
  -- a kill or the end of the time makes the call return zero with the sets it has, if they can be written
  have hzero : v = .killed ∨ v = .expired →
      ((∀ ret out s', leave me a old (.done 0 b (update s me (some th'))) = some (ret, out, s') → 0 ≤ ret →
          ReturnOk me a now sets r ret out s') ↔
        (v = .killed ∨ v = .expired → a.writable = true →
          NoneReady r a.nfds.toNat sets ∧ Below a.nfds.toNat sets ∧ (v = .expired → Elapsed a now r))) := by
    intro hv
    rw [leave]
    by_cases hwritable : a.writable = true
    · rw [if_pos hwritable]
      have hreturn : ReturnOk me a now sets r 0 (some b) (restore me old (update s me (some th'))) ↔
          NoneReady r a.nfds.toNat sets ∧ Below a.nfds.toNat b ∧ (Elapsed a now r ∨
            ∃ th, restore me old (update s me (some th')) me = some th ∧ th.task.killed ≠ 0) :=
        returnOk_zero hb
      have hends : (Elapsed a now r ∨
          ∃ th, restore me old (update s me (some th')) me = some th ∧ th.task.killed ≠ 0) ↔
          (v = .expired → Elapsed a now r) := by
        rw [hth'']
        have hiff : (∃ th, some th'' = some th ∧ th.task.killed ≠ 0) ↔ v = .killed := by
          rw [hkilled, ← hkeeps, ← hkilled'']
          exact ⟨fun ⟨_, heq, h⟩ => Option.some.inj heq ▸ h, fun h => ⟨th'', rfl, h⟩⟩
        rw [hiff]
        rcases hv with rfl | rfl
        · exact iff_of_true (.inr rfl) nofun
        · exact ⟨fun h _ => h.resolve_right nofun, fun h => .inl (h rfl)⟩
      rw [hbelow, hends] at hreturn
      constructor
      · intro h _ _
        exact hreturn.mp (h 0 (some b) _ rfl le_rfl)
      · intro h ret out s' heq _
        cases heq
        exact hreturn.mpr (h hv hwritable)
    · rw [if_neg hwritable]
      refine iff_of_true (fun ret out s' heq hret => ?_) fun _ h => absurd h hwritable
      cases heq
      exact absurd hret (by decide)
  cases v with
  | killed => exact hzero (.inl rfl)
  | expired => exact hzero (.inr rfl)
  | interrupted =>
    refine iff_of_true (fun ret out s' heq hret => ?_) fun h => absurd h (by simp)
    rw [leave] at heq
    split at heq
    all_goals
      cases heq
      exact absurd hret (by decide)
  | goesOn => exact iff_of_true nofun fun h => absurd h (by simp)

/-- A round that is reached without anything ready does what it should exactly if it is as above. -/
theorem round_iff (hb : Drained a.nfds.toNat b) (hbelow : Below a.nfds.toNat b ↔ Below a.nfds.toNat sets)
    (hfirst : pre = [] → NoneReady r a.nfds.toNat sets) :
    ((∀ ret out s', leave me a old (Wait.end r stop b s th) = some (ret, out, s') → 0 ≤ ret →
          ReturnOk me a now sets r ret out s') ∧
        (pre ≠ [] → Before a now r →
          (∀ fd ∈ readyIn r a.nfds.toNat POLLIN sets.read,
              ReturnsWith fd true (leave me a old (Wait.end r stop b s th))) ∧
            ∀ fd ∈ readyIn r a.nfds.toNat POLLOUT sets.write,
              ReturnsWith fd false (leave me a old (Wait.end r stop b s th)))) ↔
      LaterOk a now sets stop r th := by
  have hnever : ∀ fd read, ReturnsWith fd read (leave me a old (Wait.end r stop b s th)) → a.nfds.toNat ≤ fd := by
    rintro fd read ⟨ret, res, out, heq, -, hmem⟩
    obtain rfl := leave_end_sets heq
    split at hmem
    · exact hb.1 fd hmem
    · exact hb.2.1 fd hmem
  have hlater : (pre ≠ [] → Before a now r →
      (∀ fd ∈ readyIn r a.nfds.toNat POLLIN sets.read,
          ReturnsWith fd true (leave me a old (Wait.end r stop b s th))) ∧
        ∀ fd ∈ readyIn r a.nfds.toNat POLLOUT sets.write,
          ReturnsWith fd false (leave me a old (Wait.end r stop b s th))) ↔
      (Before a now r → NoneReady r a.nfds.toNat sets) := by
    constructor
    · intro h hbefore
      by_cases hpre : pre = []
      · exact hfirst hpre
      · obtain ⟨hread, hwrite⟩ := h hpre hbefore
        constructor
        · refine Finset.eq_empty_of_forall_notMem fun fd hfd => ?_
          have hge := hnever fd true (hread fd hfd)
          have hlt := (Finset.mem_filter.mp hfd).2.1
          omega
        · refine Finset.eq_empty_of_forall_notMem fun fd hfd => ?_
          have hge := hnever fd false (hwrite fd hfd)
          have hlt := (Finset.mem_filter.mp hfd).2.1
          omega
    · intro h _ hbefore
      obtain ⟨hread, hwrite⟩ := h hbefore
      rw [hread, hwrite]
      exact ⟨fun fd hfd => absurd hfd (Finset.notMem_empty fd), fun fd hfd => absurd hfd (Finset.notMem_empty fd)⟩
  rw [returnOk_end hb hbelow, hlater, LaterOk, and_comm]

/-- The return of a first scan that finds something is right exactly if no bit is set from `nfds` on. -/
theorem returnOk_first (now : Nat) (hnfds : 0 ≤ a.nfds) (hopen : ¬Closed r₀ a.nfds.toNat sets)
    (hready : ¬NoneReady r₀ a.nfds.toNat sets) (out : Threads) :
    (doSelect a.nfds r₀ sets).1 ≠ 0 ∧ 0 ≤ (doSelect a.nfds r₀ sets).1 ∧
      (ReturnOk me a now sets r₀ (doSelect a.nfds r₀ sets).1 (some (doSelect a.nfds r₀ sets).2) out ↔
        Below a.nfds.toNat sets) := by
  obtain ⟨hret, hread, hwrite, hexcept⟩ := (doSelect_spec hnfds r₀ sets).2 hopen
  have hne : (doSelect a.nfds r₀ sets).1 ≠ 0 := by
    intro hzero
    rw [hret] at hzero
    exact hready ⟨Finset.card_eq_zero.mp (by omega), Finset.card_eq_zero.mp (by omega)⟩
  -- what is kept is what is ready and what is not looked at
  have hkept : ∀ (events : Nat) (set : Option FdSet),
      (bitsOf set).filter (fun fd => fd < a.nfds.toNat → r₀.Ready events fd) = readyIn r₀ a.nfds.toNat events set ↔
        ∀ fd ∈ bitsOf set, fd < a.nfds.toNat := by
    intro events set
    rw [readyIn, Finset.filter_inj']
    refine ⟨fun h fd hfd => ?_, fun h fd hfd => ?_⟩
    · by_contra hge
      exact hge ((h hfd).mp fun hlt => absurd hlt hge).1
    · exact ⟨fun himp => ⟨h fd hfd, himp (h fd hfd)⟩, fun h _ => h.2⟩
  have hdropped : (bitsOf sets.except).filter (fun fd => ¬fd < a.nfds.toNat) = ∅ ↔
      ∀ fd ∈ bitsOf sets.except, fd < a.nfds.toNat := by
    rw [Finset.filter_eq_empty_iff]
    exact ⟨fun h fd hfd => not_not.mp (h hfd), fun h fd hfd => not_not.mpr (h fd hfd)⟩
  refine ⟨hne, by rw [hret]; exact Int.natCast_nonneg _, ?_⟩
  constructor
  · rintro ⟨res, hres, hR, hW, hE, -, -⟩
    cases hres
    rw [hread] at hR
    rw [hwrite] at hW
    rw [hexcept] at hE
    exact ⟨(hkept POLLIN _).mp hR, (hkept POLLOUT _).mp hW, hdropped.mp hE⟩
  · rintro ⟨hR, hW, hE⟩
    have hR := (hkept POLLIN _).mpr hR
    have hW := (hkept POLLOUT _).mpr hW
    have hE := hdropped.mpr hE
    refine ⟨_, rfl, hread.trans hR, hwrite.trans hW, hexcept.trans hE, ?_, fun h => absurd h hne⟩
    rw [Sets.total, hread, hwrite, hexcept, hR, hW, hE, hret, Finset.card_empty, Nat.add_zero]

/-- The prefixes of the rounds of a call: none, or those that start with its first round. -/
theorem prefix_cases (h : pre ++ [r] <+: r₀ :: rest) : (pre = [] ∧ r = r₀) ∨ ∃ pre', pre = r₀ :: pre' := by
  cases pre with
  | nil => exact .inl ⟨rfl, (List.cons_prefix_cons.mp h).1⟩
  | cons r' pre => exact .inr ⟨pre, by rw [(List.cons_prefix_cons.mp h).1]⟩

section Entered

variable (hent : entered me a now s = some (sets, old, stop, s₁))

include hent

/-- A call whose first scan ends it has only this return to get right. -/
theorem reports_of_done (hdone : Wait.step (doSelect a.nfds) true stop (.waiting sets s₁) r₀ = .done ret b s₁) :
    Reports me a now (r₀ :: rest) s ↔
      ∀ ret' out s', leave me a old (.done ret b s₁) = some (ret', out, s') → 0 ≤ ret' →
        ReturnOk me a now sets r₀ ret' out s' := by
  obtain ⟨-, hsets, -, hcall⟩ := entered_some hent
  have hone : sysPselect6 me a now [r₀] s = leave me a old (.done ret b s₁) := by
    rw [hcall, Wait.run, List.foldl_cons, hdone]
    rfl
  constructor
  · intro h
    have hfirst := (h sets hsets [] r₀ ⟨rest, rfl⟩ (by rw [hcall]; rfl)).1
    rwa [List.nil_append, hone] at hfirst
  · intro h sets' hsets' pre r hpre hwait
    rw [hsets] at hsets'
    cases hsets'
    rcases prefix_cases hpre with ⟨rfl, rfl⟩ | ⟨pre', rfl⟩
    · refine ⟨?_, fun hne => absurd rfl hne⟩
      rw [List.nil_append, hone]
      exact h
    · -- the call has returned before this round
      rw [hcall, Wait.run, List.foldl_cons, hdone, Wait.foldl_done, leave] at hwait
      split at hwait <;> cases hwait

theorem reports_of_closed
    (hth : s₁ me = some th) (hclosed : Closed r₀ a.nfds.toNat sets) : Reports me a now (r₀ :: rest) s := by
  obtain ⟨hnfds, -⟩ := entered_some hent
  have hret := (doSelect_spec hnfds r₀ sets).1 hclosed
  have hdone : Wait.step (doSelect a.nfds) true stop (.waiting sets s₁) r₀ =
      .done (-EBADF) (doSelect a.nfds r₀ sets).2 s₁ := by
    rw [Wait.step, hth]
    dsimp only
    rw [hret, if_pos (by decide)]
  refine (reports_of_done hent hdone).mpr fun ret out s' heq hge => ?_
  rw [leave] at heq
  split at heq
  all_goals
    cases heq
    exact absurd hge (by decide)

theorem reports_of_ready
    (hth : s₁ me = some th) (hopen : ¬Closed r₀ a.nfds.toNat sets) (hready : ¬NoneReady r₀ a.nfds.toNat sets) :
    Reports me a now (r₀ :: rest) s ↔ (a.writable = true → Below a.nfds.toNat sets) := by
  obtain ⟨hnfds, -⟩ := entered_some hent
  obtain ⟨hne, hge, hok⟩ := returnOk_first now hnfds hopen hready (restore me old s₁)
  have hdone : Wait.step (doSelect a.nfds) true stop (.waiting sets s₁) r₀ =
      .done (doSelect a.nfds r₀ sets).1 (doSelect a.nfds r₀ sets).2 s₁ := by
    rw [Wait.step, hth]
    dsimp only
    rw [if_pos hne]
  rw [reports_of_done hent hdone, leave]
  by_cases hwritable : a.writable = true
  · rw [if_pos hwritable]
    constructor
    · exact fun h _ => hok.mp (h _ _ _ rfl hge)
    · intro h ret out s' heq _
      cases heq
      exact hok.mpr (h hwritable)
  · rw [if_neg hwritable]
    refine iff_of_true (fun ret out s' heq hret => ?_) fun h => absurd h hwritable
    cases heq
    exact absurd hret (by decide)

/-- A call whose first scan finds nothing has to get right every round that it reaches. -/
theorem reports_of_none (hlive : maskOf me s₁ = some m)
    (hopen : ¬Closed r₀ a.nfds.toNat sets) (hnone : NoneReady r₀ a.nfds.toNat sets) :
    Reports me a now (r₀ :: rest) s ↔
      ∀ pre r s' th, pre ++ [r] <+: r₀ :: rest → idle stop pre s₁ = some s' → s' me = some th →
        LaterOk a now sets stop r th := by
  obtain ⟨hnfds, hsets, -, hcall⟩ := entered_some hent
  obtain ⟨hzero, hdrained, hbelow⟩ := doSelect_zero hnfds hopen hnone
  have hfirst : doSelect a.nfds r₀ sets = (0, (doSelect a.nfds r₀ sets).2) := Prod.ext hzero rfl
  have hhead : ∀ pre r, pre ++ [r] <+: r₀ :: rest → pre = [] → NoneReady r a.nfds.toNat sets := by
    rintro pre r hpre rfl
    rcases prefix_cases hpre with ⟨-, rfl⟩ | ⟨pre', heq⟩
    · exact hnone
    · cases heq
  -- the call after one more round, in terms of the end of that round
  have hround : ∀ pre r s' th, pre ++ [r] <+: r₀ :: rest → idle stop pre s₁ = some s' → s' me = some th →
      sysPselect6 me a now pre s = none ∧
        sysPselect6 me a now (pre ++ [r]) s = leave me a old (Wait.end r stop (doSelect a.nfds r₀ sets).2 s' th) := by
    intro pre r s' th hpre hidle hth
    obtain ⟨b', hwaits, hscan⟩ := (run_idle hnfds hlive hfirst hdrained hpre).1 s' hidle
    rw [hcall, hcall, hwaits]
    refine ⟨rfl, ?_⟩
    rw [Wait.run] at hwaits ⊢
    rw [List.foldl_append, hwaits, List.foldl_cons, List.foldl_nil, Wait.step_zero hth hscan]
  constructor
  · intro h pre r s' th hpre hidle hth
    obtain ⟨hwait, hnext⟩ := hround pre r s' th hpre hidle hth
    have hstep := h sets hsets pre r hpre hwait
    rw [hnext] at hstep
    exact (round_iff hdrained hbelow (hhead pre r hpre)).mp hstep
  · intro h sets' hsets' pre r hpre hwait
    rw [hsets] at hsets'
    cases hsets'
    cases hidle : idle stop pre s₁ with
    | none =>
      obtain ⟨ret, b', s', hdone⟩ := (run_idle hnfds hlive hfirst hdrained hpre).2 hidle
      rw [hcall, hdone, leave] at hwait
      split at hwait <;> cases hwait
    | some s' =>
      obtain ⟨b', hwaits, -⟩ := (run_idle hnfds hlive hfirst hdrained hpre).1 s' hidle
      have hlive' := Wait.run_maskOf (doSelect a.nfds) true stop pre sets hlive
      rw [hwaits] at hlive'
      obtain ⟨th, hth⟩ := exists_thread hlive'
      have hth : s' me = some th := hth
      rw [(hround pre r s' th hpre hidle hth).2]
      exact (round_iff hdrained hbelow (hhead pre r hpre)).mpr (h pre r s' th hpre hidle hth)

end Entered

/-- For every call, every evolution of its descriptors and every behaviour of the other threads:
`pselect6` reports what it should exactly if the condition is met. -/
theorem pselect_reports_iff (hme : s me = some th) : Reports me a now rounds s ↔ Meets me a now rounds s := by
  cases hent : entered me a now s with
  | none =>
    refine iff_of_true (fun _ _ pre _ _ hwait => absurd hwait (entered_none hent pre)) fun _ _ _ _ heq => ?_
    rw [hent] at heq
    cases heq
  | some x =>
    obtain ⟨sets, old, stop, s₁⟩ := x
    obtain ⟨hnfds, hsets, henter, hcall⟩ := entered_some hent
    have hmask := enter_mask a.sigmask a.timeout twoSeconds now (maskOf_of_eq hme)
    rw [henter] at hmask
    obtain ⟨m, hlive, -⟩ := hmask
    obtain ⟨th₁, hth₁⟩ := exists_thread hlive
    cases rounds with
    | nil =>
      refine iff_of_true (fun _ _ pre r hpre => ?_) fun _ _ _ _ _ _ _ heq => nomatch heq
      exact absurd (List.prefix_nil.mp hpre) (by simp)
    | cons r₀ rest =>
      have hmeets : Meets me a now (r₀ :: rest) s ↔
          Closed r₀ a.nfds.toNat sets ∨
            (¬NoneReady r₀ a.nfds.toNat sets ∧ (a.writable = true → Below a.nfds.toNat sets)) ∨
            (NoneReady r₀ a.nfds.toNat sets ∧
              ∀ pre r s' th, pre ++ [r] <+: r₀ :: rest → idle stop pre s₁ = some s' → s' me = some th →
                LaterOk a now sets stop r th) := by
        constructor
        · exact fun h => h sets old stop s₁ hent r₀ rest rfl
        · intro h sets' old' stop' s₁' heq r₀' rest' hrounds
          rw [hent] at heq
          cases heq
          cases hrounds
          exact h
      rw [hmeets]
      by_cases hclosed : Closed r₀ a.nfds.toNat sets
      · exact iff_of_true (reports_of_closed hent hth₁ hclosed) (.inl hclosed)
      · by_cases hnone : NoneReady r₀ a.nfds.toNat sets
        · rw [reports_of_none hent hlive hclosed hnone]
          constructor
          · exact fun h => .inr (.inr ⟨hnone, h⟩)
          · rintro (h | h | h)
            · exact absurd h hclosed
            · exact absurd hnone h.1
            · exact h.2
        · rw [reports_of_ready hent hth₁ hclosed hnone]
          constructor
          · exact fun h => .inr (.inl ⟨hnone, h⟩)
          · rintro (h | h | h)
            · exact absurd h hclosed
            · exact h.2
            · exact absurd h.1 hnone

end Waiting

/-! ## Readiness that is lost -/

/-- `pselect(1, {0}, NULL, NULL, NULL, NULL)`. -/
def readZero : PselectArgs := ⟨1, some ⟨some ⟨{0}, by decide⟩, true⟩, none, none, none, none⟩

/-- Descriptor 0 is open and its `poll` operation answers with these events. -/
def roundOf (revents : Nat) : Round 1 := ⟨fun fd => if fd = 0 then some fun _ => revents else none, 0, id, fun _ => .refl⟩

theorem pselect_reports_first_scan : Reports 1 readZero 0 [roundOf POLLIN] Signal.oneThread := by
  have hme : Signal.oneThread 1 = some Signal.newThread := rfl
  refine (pselect_reports_iff hme).mpr fun sets old stop s₁ hent r₀ rest hrounds => ?_
  obtain ⟨-, hsets, -⟩ := entered_some hent
  cases hsets
  cases hrounds
  exact .inr (.inl ⟨by decide, fun _ => by decide⟩)

/-- Descriptor 0 becomes readable after the first scan, and the call goes on waiting. -/
theorem pselect_loses_readiness : ¬Reports 1 readZero 0 [roundOf 0, roundOf POLLIN] Signal.oneThread := by
  intro h
  have hstep := h _ rfl [roundOf 0] (roundOf POLLIN) List.prefix_rfl rfl
  obtain ⟨ret, res, s', hcall, -⟩ := (hstep.2 (by simp) nofun).1 0 (by decide)
  have hwaits : sysPselect6 1 readZero 0 [roundOf 0, roundOf POLLIN] Signal.oneThread = none := rfl
  exact absurd (hwaits.symm.trans hcall) nofun

end SC7.Select
