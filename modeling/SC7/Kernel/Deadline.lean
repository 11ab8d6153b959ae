-- SUMMARY: Deadlines of `clock_nanosleep` and of futex waits: when their 64-bit arithmetic is that of time.
import SC7.Kernel.Futex

/-!
# Deadlines

The clock shows the seconds since the boot, from a counter of 10 MHz, on top of `boot_time`. `clock_nanosleep` computes its
deadline in ticks of the counter; a futex wait computes it in nanoseconds of the clock, and the scheduler compares these
with the clock.

Mathematical times are nanoseconds of the clock. A deadline in ticks is held against them to the nanosecond, or to the
tick.
-/

namespace SC7.Deadline

open Futex (Sys Thread Timespec WaitKind Tid)

abbrev EINTR : Int := 4
abbrev EFAULT : Int := 14
abbrev EINVAL : Int := 22
abbrev ENOTSUP : Int := 95

def CLK_FREQ : UInt64 := 10000000
def TIMER_ABSTIME : UInt32 := 1
def MAX_CLOCKS : Int := 16

/-- `boot_time`, after `timer_init` has added what the clock chip shows. -/
def bootTime (rtc : UInt32) : UInt64 := 0x98856837c + rtc.toUInt64

/-- `timer_get_ntime` when the counter shows `clk`. -/
def timerGetNtime (rtc : UInt32) (clk : UInt64) : Timespec :=
  ⟨bootTime rtc + clk / CLK_FREQ, clk % CLK_FREQ * 1000000000 / CLK_FREQ⟩

/-! ## `clock_nanosleep` -/

/-- The request is `none` if it cannot be read; `rmtp` may be null, and may refuse to be written. -/
structure SleepArgs where
  whichClock : Int
  flags : UInt32
  rqtp : Option Timespec
  rmtp : Option Bool

/-- One turn of the loop: the counter at its test, whether the thread is killed or interrupted, and the counter at the
computation of the time that is left. -/
structure SleepRound where
  time : UInt64
  stopped : Bool
  left : UInt64

inductive ClockCheck where
  | sleeps
  | fails (e : Int)

/-- Which clocks can be slept on. -/
def checkClock (whichClock : Int) : ClockCheck :=
  if whichClock ≥ MAX_CLOCKS then .fails (-EINVAL)
  else if whichClock = 0 ∨ whichClock = 1 ∨ whichClock = 4 ∨ whichClock = 7 then .sleeps
  else if whichClock = 2 ∨ whichClock = 3 then .fails (-ENOTSUP)
  else .fails (-EINVAL)

/-- `tv_nsec` is a `long`, as it is checked. -/
def nsecRefused (ts : Timespec) : Bool := ts.tvNsec.toBitVec.toInt < 0 ∨ ts.tvNsec.toBitVec.toInt ≥ 1000000000

def targetTime (rtc : UInt32) (flags : UInt32) (ts : Timespec) (now : UInt64) : UInt64 :=
  if flags &&& TIMER_ABSTIME ≠ 0 then (ts.tvSec - bootTime rtc) * CLK_FREQ + ts.tvNsec * CLK_FREQ / 1000000000
  else now + (ts.tvSec * CLK_FREQ + ts.tvNsec * CLK_FREQ / 1000000000)

def remaining (ticks : UInt64) : Timespec := ⟨ticks / CLK_FREQ, ticks % CLK_FREQ * 1000000000 / CLK_FREQ⟩

/-- The result, with the time that is left for the user. -/
def finish (rmtp : Option Bool) (ret : Int) (left : Timespec) : Int × Option Timespec :=
  match rmtp with
  | none => (ret, none)
  | some false => (-EFAULT, none)
  | some true => (ret, some left)

/-- The loop; it sleeps on when the rounds are used up. -/
def sleepLoop (rmtp : Option Bool) (target : UInt64) : List SleepRound → Option (Int × Option Timespec)
  | [] => none
  | r :: rounds =>
    if r.time < target then
      if r.stopped then some (finish rmtp (-EINTR) (remaining (target - r.left)))
      else sleepLoop rmtp target rounds
    else some (finish rmtp 0 ⟨0, 0⟩)

/-- `sys_clock_nanosleep`. `tv_sec` is unsigned, so that its check never refuses. -/
def sysClockNanosleep (rtc : UInt32) (a : SleepArgs) (now : UInt64) (rounds : List SleepRound) : Option (Int × Option Timespec) :=
  match checkClock a.whichClock with
  | .fails e => some (e, none)
  | .sleeps =>
    match a.rqtp with
    | none => some (-EFAULT, none)
    | some ts =>
      if nsecRefused ts then some (-EINVAL, none)
      else if ts = ⟨0, 0⟩ then some (finish a.rmtp 0 ⟨0, 0⟩)
      else if targetTime rtc a.flags ts now < now then some (finish a.rmtp 0 ⟨0, 0⟩)
      else sleepLoop a.rmtp (targetTime rtc a.flags ts now) rounds

/-! ## Mathematical time -/

/-- No negative part, and less than a second of nanoseconds. -/
structure Valid (ts : Timespec) : Prop where
  sec : 0 ≤ ts.tvSec.toBitVec.toInt
  nsec : 0 ≤ ts.tvNsec.toBitVec.toInt
  lt : ts.tvNsec.toBitVec.toInt < 1000000000

/-- The nanoseconds of a time without a negative part. -/
def ns (ts : Timespec) : Nat := ts.tvSec.toNat * 1000000000 + ts.tvNsec.toNat

/-- What the clock stands for when the counter shows `clk`. -/
def clockNs (rtc : UInt32) (clk : UInt64) : Nat := (bootTime rtc).toNat * 1000000000 + clk.toNat * 100

/-- The time that is asked for. -/
def dueNs (rtc : UInt32) (absolute : Bool) (ts : Timespec) (now : UInt64) : Nat :=
  if absolute then ns ts else clockNs rtc now + ns ts

/-- How exactly a deadline in ticks is meant. -/
inductive Grain where
  | nanosecond
  | tick
  deriving DecidableEq

/-- The time at the start of its tick, if ticks are meant. -/
def Grain.round : Grain → Nat → Nat
  | .nanosecond, t => t
  | .tick, t => t / 100 * 100

def SleepArgs.absolute (a : SleepArgs) : Bool := a.flags &&& TIMER_ABSTIME ≠ 0

/-- What is asked of `clock_nanosleep`. -/
structure SleepContract (g : Grain) (rtc : UInt32) (a : SleepArgs) (now : UInt64) (ts : Timespec) : Prop where
  refuses : ¬Valid ts → ∀ rounds, sysClockNanosleep rtc a now rounds = some (-EINVAL, none)
  deadline : Valid ts → ts ≠ ⟨0, 0⟩ → clockNs rtc (targetTime rtc a.flags ts now) = g.round (dueNs rtc a.absolute ts now)
  notEarly : Valid ts → ∀ rounds r ret left, sysClockNanosleep rtc a now rounds = none →
    sysClockNanosleep rtc a now (rounds ++ [r]) = some (ret, left) → r.stopped = false ∨ ret = 0 →
    g.round (dueNs rtc a.absolute ts now) ≤ clockNs rtc r.time
  past : Valid ts → a.absolute = true → ns ts < clockNs rtc now → ∀ r, now ≤ r.time →
    sysClockNanosleep rtc a now [r] = some (finish a.rmtp 0 ⟨0, 0⟩)

/-- The deadline in ticks is a number of 64 bits and, to the nanosecond, a whole one. -/
structure SleepFits (g : Grain) (rtc : UInt32) (a : SleepArgs) (now : UInt64) (ts : Timespec) : Prop where
  sec : nsecRefused ts = false → 0 ≤ ts.tvSec.toBitVec.toInt
  relative : Valid ts → ts ≠ ⟨0, 0⟩ → a.absolute = false →
    now.toNat + ts.tvSec.toNat * 10000000 + ts.tvNsec.toNat / 100 < 2 ^ 64
  absolute : Valid ts → ts ≠ ⟨0, 0⟩ → a.absolute = true → (bootTime rtc).toNat ≤ ts.tvSec.toNat ∧
    (ts.tvSec.toNat - (bootTime rtc).toNat) * 10000000 + ts.tvNsec.toNat / 100 < 2 ^ 64
  whole : Valid ts → g = .nanosecond → ts.tvNsec.toNat % 100 = 0

/-- A call that gets to its request. -/
structure Asks (a : SleepArgs) (ts : Timespec) : Prop where
  clock : checkClock a.whichClock = .sleeps
  request : a.rqtp = some ts

/-! ## Futex waits -/

/-- A wait with a timeout: the state at the comparison, and at the call of the wait function. -/
structure FutexCall where
  s : Sys
  th : Tid
  addr : UInt64
  val : UInt32
  ts : Timespec
  kind : WaitKind
  atWait : Sys

/-- The thread comes from user mode, and the wait is not refused for its bitset or the word. -/
structure FutexCall.Accepted (c : FutexCall) : Prop where
  place : (c.s.thread c.th).place = .user
  bits : c.kind ≠ .bitset 0
  word : c.s.word (c.s.thread c.th).p c.addr = some c.val

def FutexCall.absolute (c : FutexCall) : Bool := c.kind ≠ .plain

/-- What is asked of a futex wait that starts when the counter shows `now`; `look` is the counter when the scheduler first
looks at the thread. -/
structure FutexContract (rtc : UInt32) (c : FutexCall) (now look : UInt64) : Prop where
  refuses : ¬Valid c.ts → c.s.sysFutexCompare c.th c.addr c.val (some c.ts) c.kind = c.s
  deadline : Valid c.ts → ∀ s', c.atWait.futexWait c.addr c.th (some c.ts) c.kind (timerGetNtime rtc now) = some s' →
    (s'.thread c.th).awakeTime.toNat = dueNs rtc c.absolute c.ts now
  notEarly : Valid c.ts → ∀ s', c.atWait.futexWait c.addr c.th (some c.ts) c.kind (timerGetNtime rtc now) = some s' →
    ∀ (u : Sys) clk, u.thread c.th = s'.thread c.th → now ≤ clk → u.schedule c.th (timerGetNtime rtc clk) ≠ none →
      dueNs rtc c.absolute c.ts now ≤ clockNs rtc clk
  past : Valid c.ts → c.absolute = true → ns c.ts < clockNs rtc now →
    ∀ s', c.atWait.futexWait c.addr c.th (some c.ts) c.kind (timerGetNtime rtc now) = some s' →
      ∀ u : Sys, u.thread c.th = s'.thread c.th → u.schedule c.th (timerGetNtime rtc look) ≠ none

/-- The wait is absolute, its time is a number of 64 bits, and what is left of the clock in 64 bits is beyond it at the
first look. -/
structure FutexFits (rtc : UInt32) (c : FutexCall) (look : UInt64) : Prop where
  valid : Valid c.ts
  absolute : c.atWait.freeSlot ≠ none → c.absolute = true
  lt : c.atWait.freeSlot ≠ none → ns c.ts < 2 ^ 64
  passed : c.atWait.freeSlot ≠ none → ns c.ts < clockNs rtc look % 2 ^ 64

variable {rtc : UInt32} {flags : UInt32} {ts : Timespec} {a : SleepArgs} {now look clk target : UInt64} {g : Grain}
  {rounds : List SleepRound} {r : SleepRound} {rmtp : Option Bool} {c : FutexCall} {s s' u : Sys} {th : Tid}
  {addr : UInt64} {kind : WaitKind}

/-! ## Words as numbers -/

section Words

theorem signed_nonneg_iff (x : UInt64) : 0 ≤ x.toBitVec.toInt ↔ x.toNat < 2 ^ 63 := by
  rw [BitVec.toInt_eq_toNat_cond, UInt64.toNat_toBitVec]
  have hlt := x.toNat_lt
  split
  · omega
  · omega

theorem signed_lt_iff {x : UInt64} (h : 0 ≤ x.toBitVec.toInt) : x.toBitVec.toInt < 1000000000 ↔ x.toNat < 1000000000 := by
  have hlt := (signed_nonneg_iff x).mp h
  rw [BitVec.toInt_eq_toNat_cond, UInt64.toNat_toBitVec, if_pos (by omega)]
  omega

theorem nsecRefused_iff : nsecRefused ts = false ↔ ts.tvNsec.toNat < 1000000000 := by
  unfold nsecRefused
  rw [decide_eq_false_iff_not, not_or, not_lt, ge_iff_le, not_le]
  constructor
  · intro h
    exact (signed_lt_iff h.1).mp h.2
  · intro h
    have hpos : 0 ≤ ts.tvNsec.toBitVec.toInt := (signed_nonneg_iff _).mpr (by omega)
    exact ⟨hpos, (signed_lt_iff hpos).mpr h⟩

theorem valid_iff : Valid ts ↔ 0 ≤ ts.tvSec.toBitVec.toInt ∧ nsecRefused ts = false := by
  rw [nsecRefused_iff]
  constructor
  · intro h
    exact ⟨h.sec, (signed_lt_iff h.nsec).mp h.lt⟩
  · intro h
    have hpos : 0 ≤ ts.tvNsec.toBitVec.toInt := (signed_nonneg_iff _).mpr (by omega)
    exact ⟨h.1, hpos, (signed_lt_iff hpos).mpr h.2⟩

theorem Valid.nsec_lt (h : Valid ts) : ts.tvNsec.toNat < 1000000000 := nsecRefused_iff.mp (valid_iff.mp h).2

/-- The clock is beyond 64 bits of nanoseconds from its start. -/
theorem bootTime_ge (rtc : UInt32) : 40942076796 ≤ (bootTime rtc).toNat := by
  unfold bootTime
  have hlt := rtc.toNat_lt
  rw [UInt64.toNat_add, UInt32.toNat_toUInt64, show (0x98856837c : UInt64).toNat = 40942076796 from rfl]
  omega

theorem clockNs_ge (rtc : UInt32) (clk : UInt64) : 2 ^ 64 ≤ clockNs rtc clk := by
  have hboot := bootTime_ge rtc
  unfold clockNs
  omega

theorem nanos_toNat (ts : Timespec) : ts.nanos.toNat = ns ts % 2 ^ 64 := by
  unfold Timespec.nanos ns
  rw [UInt64.toNat_add, UInt64.toNat_mul, show (1000000000 : UInt64).toNat = 1000000000 from rfl]
  omega

theorem clock_nanos (rtc : UInt32) (clk : UInt64) : (timerGetNtime rtc clk).nanos.toNat = clockNs rtc clk % 2 ^ 64 := by
  rw [nanos_toNat]
  unfold ns timerGetNtime clockNs CLK_FREQ
  dsimp only
  rw [UInt64.toNat_add, UInt64.toNat_div, UInt64.toNat_div, UInt64.toNat_mul, UInt64.toNat_mod,
    show (10000000 : UInt64).toNat = 10000000 from rfl, show (1000000000 : UInt64).toNat = 1000000000 from rfl]
  have hrest : clk.toNat % 10000000 * 1000000000 % 2 ^ 64 / 10000000 = clk.toNat % 10000000 * 100 := by omega
  rw [hrest]
  omega

/-- The ticks of the nanoseconds. -/
theorem nsec_ticks (h : ts.tvNsec.toNat < 1000000000) : (ts.tvNsec * CLK_FREQ / 1000000000).toNat = ts.tvNsec.toNat / 100 := by
  unfold CLK_FREQ
  rw [UInt64.toNat_div, UInt64.toNat_mul, show (10000000 : UInt64).toNat = 10000000 from rfl,
    show (1000000000 : UInt64).toNat = 1000000000 from rfl]
  omega

theorem target_relative (h : ts.tvNsec.toNat < 1000000000) (hflags : ¬flags &&& TIMER_ABSTIME ≠ 0) :
    (targetTime rtc flags ts now).toNat = (now.toNat + ts.tvSec.toNat * 10000000 + ts.tvNsec.toNat / 100) % 2 ^ 64 := by
  unfold targetTime
  rw [if_neg hflags, UInt64.toNat_add, UInt64.toNat_add, UInt64.toNat_mul, nsec_ticks h,
    show CLK_FREQ.toNat = 10000000 from rfl]
  omega

theorem target_absolute (h : ts.tvNsec.toNat < 1000000000) (hflags : flags &&& TIMER_ABSTIME ≠ 0)
    (hle : (bootTime rtc).toNat ≤ ts.tvSec.toNat) : (targetTime rtc flags ts now).toNat =
      ((ts.tvSec.toNat - (bootTime rtc).toNat) * 10000000 + ts.tvNsec.toNat / 100) % 2 ^ 64 := by
  unfold targetTime
  rw [if_pos hflags, UInt64.toNat_add, UInt64.toNat_mul, UInt64.toNat_sub_of_le _ _ (UInt64.le_iff_toNat_le.mpr hle),
    nsec_ticks h, show CLK_FREQ.toNat = 10000000 from rfl]
  omega

end Words

/-! ## `clock_nanosleep` -/

section Sleep

theorem Grain.round_le (g : Grain) (t : Nat) : g.round t ≤ t := by
  cases g with
  | nanosecond => exact Nat.le_refl t
  | tick => exact Nat.div_mul_le_self t 100

/-- A number of ticks, in 64 bits, for a number of nanoseconds. -/
theorem round_iff (g : Grain) (boot ticks nsec : Nat) :
    boot * 1000000000 + (ticks + nsec / 100) % 2 ^ 64 * 100 = g.round (boot * 1000000000 + ticks * 100 + nsec) ↔
      ticks + nsec / 100 < 2 ^ 64 ∧ (g = .nanosecond → nsec % 100 = 0) := by
  cases g with
  | nanosecond =>
    simp only [Grain.round, true_implies]
    omega
  | tick =>
    simp only [Grain.round, reduceCtorEq, false_implies, and_true]
    omega

/-- A relative deadline is right exactly when it is a number of 64 bits, and a whole one to the nanosecond. -/
theorem deadline_relative_iff (h : ts.tvNsec.toNat < 1000000000) (hflags : ¬flags &&& TIMER_ABSTIME ≠ 0) :
    clockNs rtc (targetTime rtc flags ts now) = g.round (dueNs rtc false ts now) ↔
      now.toNat + ts.tvSec.toNat * 10000000 + ts.tvNsec.toNat / 100 < 2 ^ 64 ∧ (g = .nanosecond → ts.tvNsec.toNat % 100 = 0) := by
  have hdue : dueNs rtc false ts now =
      (bootTime rtc).toNat * 1000000000 + (now.toNat + ts.tvSec.toNat * 10000000) * 100 + ts.tvNsec.toNat := by
    unfold dueNs clockNs ns
    rw [if_neg Bool.false_ne_true]
    omega
  rw [← round_iff g (bootTime rtc).toNat, hdue, clockNs, target_relative h hflags]

theorem deadline_absolute_iff (h : ts.tvNsec.toNat < 1000000000) (hflags : flags &&& TIMER_ABSTIME ≠ 0) :
    clockNs rtc (targetTime rtc flags ts now) = g.round (dueNs rtc true ts now) ↔
      ((bootTime rtc).toNat ≤ ts.tvSec.toNat ∧
        (ts.tvSec.toNat - (bootTime rtc).toNat) * 10000000 + ts.tvNsec.toNat / 100 < 2 ^ 64) ∧
      (g = .nanosecond → ts.tvNsec.toNat % 100 = 0) := by
  by_cases hle : (bootTime rtc).toNat ≤ ts.tvSec.toNat
  · have hdue : dueNs rtc true ts now = (bootTime rtc).toNat * 1000000000 +
        (ts.tvSec.toNat - (bootTime rtc).toNat) * 10000000 * 100 + ts.tvNsec.toNat := by
      unfold dueNs ns
      rw [if_pos rfl]
      omega
    rw [and_iff_right hle, ← round_iff g (bootTime rtc).toNat, hdue, clockNs, target_absolute h hflags hle]
  · -- the time is before the start of the counter
    refine iff_of_false (fun heq => ?_) fun hfits => hle hfits.1.1
    have hround := g.round_le (dueNs rtc true ts now)
    rw [← heq] at hround
    unfold dueNs clockNs ns at hround
    rw [if_pos rfl] at hround
    omega

theorem Asks.sleep_eq (h : Asks a ts) : sysClockNanosleep rtc a now rounds =
    if nsecRefused ts then some (-EINVAL, none)
    else if ts = ⟨0, 0⟩ then some (finish a.rmtp 0 ⟨0, 0⟩)
    else if targetTime rtc a.flags ts now < now then some (finish a.rmtp 0 ⟨0, 0⟩)
    else sleepLoop a.rmtp (targetTime rtc a.flags ts now) rounds := by
  unfold sysClockNanosleep
  rw [h.clock]
  dsimp only
  rw [h.request]

/-- The loop ends when the counter has come to the deadline, or the thread is stopped. -/
theorem sleepLoop_ends {ret : Int} {left : Option Timespec} (hsleeps : sleepLoop rmtp target rounds = none)
    (hends : sleepLoop rmtp target (rounds ++ [r]) = some (ret, left)) : target ≤ r.time ∨ (r.stopped = true ∧ ret ≠ 0) := by
  induction rounds with
  | nil =>
    rw [List.nil_append, sleepLoop] at hends
    split at hends
    · split at hends
      · rename_i hstopped
        refine .inr ⟨hstopped, ?_⟩
        unfold finish at hends
        split at hends
        all_goals
          cases hends
          decide
      · cases hends
    · rename_i hpassed
      exact .inl (UInt64.not_lt.mp hpassed)
  | cons r' rounds ih =>
    rw [List.cons_append, sleepLoop] at hends
    rw [sleepLoop] at hsleeps
    split at hsleeps
    · rename_i hlt
      rw [if_pos hlt] at hends
      split at hsleeps
      · cases hsleeps
      · rename_i hgoes
        rw [if_neg hgoes] at hends
        exact ih hsleeps hends
    · cases hsleeps

theorem clockNs_mono (h : target ≤ clk) : clockNs rtc target ≤ clockNs rtc clk := by
  have hle := UInt64.le_iff_toNat_le.mp h
  unfold clockNs
  omega

theorem absolute_iff : a.absolute = true ↔ a.flags &&& TIMER_ABSTIME ≠ 0 := by
  unfold SleepArgs.absolute
  exact decide_eq_true_iff

/-- The deadline, for a request that is not zero. -/
theorem SleepFits.deadline (h : SleepFits g rtc a now ts) (hvalid : Valid ts) (hne : ts ≠ ⟨0, 0⟩) :
    clockNs rtc (targetTime rtc a.flags ts now) = g.round (dueNs rtc a.absolute ts now) := by
  cases habsolute : a.absolute with
  | false =>
    refine (deadline_relative_iff hvalid.nsec_lt ?_).mpr ⟨h.relative hvalid hne habsolute, h.whole hvalid⟩
    rw [← absolute_iff, habsolute]
    decide
  | true =>
    exact (deadline_absolute_iff hvalid.nsec_lt (absolute_iff.mp habsolute)).mpr
      ⟨h.absolute hvalid hne habsolute, h.whole hvalid⟩

theorem sleep_contract_iff (h : Asks a ts) : SleepContract g rtc a now ts ↔ SleepFits g rtc a now ts := by
  constructor
  · intro hcontract
    have hdeadline (hvalid : Valid ts) (hne : ts ≠ ⟨0, 0⟩) (habsolute : a.absolute = false) :=
      (deadline_relative_iff hvalid.nsec_lt (by rw [← absolute_iff, habsolute]; decide)).mp
        (habsolute ▸ hcontract.deadline hvalid hne)
    have hdeadline' (hvalid : Valid ts) (hne : ts ≠ ⟨0, 0⟩) (habsolute : a.absolute = true) :=
      (deadline_absolute_iff hvalid.nsec_lt (absolute_iff.mp habsolute)).mp (habsolute ▸ hcontract.deadline hvalid hne)
    refine ⟨fun hnsec => ?_, fun hvalid hne ha => (hdeadline hvalid hne ha).1, fun hvalid hne ha => (hdeadline' hvalid hne ha).1,
      fun hvalid hg => ?_⟩
    · -- otherwise the request is taken, and the call sleeps or returns 0
      by_contra hneg
      have hinvalid : ¬Valid ts := fun hvalid => hneg hvalid.sec
      have hrefused := hcontract.refuses hinvalid []
      rw [h.sleep_eq, if_neg (by rw [hnsec]; decide)] at hrefused
      have hfinish : finish a.rmtp 0 ⟨0, 0⟩ ≠ (-EINVAL, none) := by
        unfold finish
        split
        all_goals decide
      split at hrefused
      · exact hfinish (Option.some.inj hrefused)
      · split at hrefused
        · exact hfinish (Option.some.inj hrefused)
        · cases hrefused
    · by_cases hne : ts = ⟨0, 0⟩
      · rw [hne]
        rfl
      · cases habsolute : a.absolute with
        | false => exact (hdeadline hvalid hne habsolute).2 hg
        | true => exact (hdeadline' hvalid hne habsolute).2 hg
  · intro hfits
    refine ⟨fun hinvalid rounds => ?_, hfits.deadline, fun hvalid rounds r ret left hsleeps hends hwhy => ?_,
      fun hvalid habsolute hpast r hr => ?_⟩
    · have hrefused : nsecRefused ts = true := by
        cases hnsec : nsecRefused ts with
        | true => rfl
        | false => exact absurd (valid_iff.mpr ⟨hfits.sec hnsec, hnsec⟩) hinvalid
      rw [h.sleep_eq, if_pos hrefused]
    · rw [h.sleep_eq] at hsleeps hends
      split at hsleeps
      · cases hsleeps
      rename_i hnsec
      rw [if_neg hnsec] at hends
      split at hsleeps
      · cases hsleeps
      rename_i hne
      rw [if_neg hne] at hends
      split at hsleeps
      · cases hsleeps
      rename_i hahead
      rw [if_neg hahead] at hends
      rcases sleepLoop_ends hsleeps hends with hpassed | ⟨hstopped, hret⟩
      · rw [← hfits.deadline hvalid hne]
        exact clockNs_mono hpassed
      · rcases hwhy with hgoes | hzero
        · exact absurd (hgoes.symm.trans hstopped) (by decide)
        · exact absurd hzero hret
    · rw [h.sleep_eq, if_neg (by rw [(valid_iff.mp hvalid).2]; decide)]
      split
      · rfl
      · rename_i hne
        obtain ⟨hle, hlt⟩ := hfits.absolute hvalid hne habsolute
        rw [if_pos]
        apply UInt64.lt_iff_toNat_lt.mpr
        rw [target_absolute hvalid.nsec_lt (absolute_iff.mp habsolute) hle]
        unfold ns clockNs at hpast
        omega

end Sleep

/-! ## Futex waits -/

section Futexes

/-- A wait with a timeout leaves the thread waiting for the scheduler to see its time. -/
theorem futexWait_thread {time : Timespec} (h : s.futexWait addr th (some ts) kind time = some s') :
    (s'.thread th).state = .timing ∧
      (s'.thread th).awakeTime = if kind = .plain then ts.nanos + time.nanos else ts.nanos := by
  obtain ⟨i, -, rfl⟩ := Option.map_eq_some_iff.mp h
  cases kind with
  | plain =>
    dsimp only [Sys.setThread]
    rw [Function.update_self, if_pos rfl]
    exact ⟨rfl, rfl⟩
  | bitset bits =>
    dsimp only [Sys.setThread]
    rw [Function.update_self, if_neg (by nofun)]
    exact ⟨rfl, rfl⟩

theorem futexWait_some (addr : UInt64) (th : Tid) (ts : Timespec) (kind : WaitKind) (time : Timespec) (h : s.freeSlot ≠ none) :
    ∃ s', s.futexWait addr th (some ts) kind time = some s' := by
  obtain ⟨i, hi⟩ := Option.ne_none_iff_exists'.mp h
  unfold Sys.futexWait
  rw [hi]
  exact ⟨_, rfl⟩

theorem freeSlot_of_futexWait {time : Timespec} (h : s.futexWait addr th (some ts) kind time = some s') : s.freeSlot ≠ none := by
  intro hfull
  unfold Sys.futexWait at h
  rw [hfull] at h
  cases h

/-- The scheduler takes the thread exactly when its time is over in the 64 bits of the clock. -/
theorem schedule_timing (hstate : (u.thread th).state = .timing) :
    u.schedule th (timerGetNtime rtc clk) ≠ none ↔ (u.thread th).awakeTime.toNat < clockNs rtc clk % 2 ^ 64 := by
  unfold Sys.schedule
  dsimp only
  rw [hstate]
  dsimp only
  rw [← clock_nanos, ← UInt64.lt_iff_toNat_lt]
  split
  · rename_i hlt
    exact iff_of_true nofun hlt
  · rename_i hlt
    exact iff_of_false (fun h => h rfl) hlt

/-- The scheduler looks at the record of the thread only. -/
theorem awake_of_wait {time : Timespec} (h : s.futexWait addr th (some ts) kind time = some s') (hu : u.thread th = s'.thread th) :
    u.schedule th (timerGetNtime rtc clk) ≠ none ↔ (s'.thread th).awakeTime.toNat < clockNs rtc clk % 2 ^ 64 := by
  have hstate : (u.thread th).state = .timing := by
    rw [hu]
    exact (futexWait_thread h).1
  rw [schedule_timing hstate, hu]

theorem absolute_eq_false : c.absolute = false ↔ c.kind = .plain := by
  unfold FutexCall.absolute
  rw [decide_eq_false_iff_not, not_not]

/-- An accepted wait does not come back from the comparison. -/
theorem FutexCall.Accepted.goes (h : c.Accepted) : c.s.sysFutexCompare c.th c.addr c.val (some c.ts) c.kind ≠ c.s := by
  intro hsame
  have hplace := congrArg (fun s => (s.thread c.th).place) hsame
  unfold Sys.sysFutexCompare at hplace
  rw [if_neg h.bits, if_pos h.word] at hplace
  dsimp only [Sys.setThread] at hplace
  rw [Function.update_self, h.place] at hplace
  cases hplace

theorem futex_contract_iff (h : c.Accepted) : FutexContract rtc c now look ↔ FutexFits rtc c look := by
  constructor
  · intro hcontract
    have hvalid : Valid c.ts := by
      by_contra hinvalid
      exact h.goes (hcontract.refuses hinvalid)
    have habsolute (hfree : c.atWait.freeSlot ≠ none) : c.absolute = true ∧ ns c.ts < 2 ^ 64 := by
      obtain ⟨s', hwait⟩ := futexWait_some c.addr c.th c.ts c.kind (timerGetNtime rtc now) hfree
      have hlt := (s'.thread c.th).awakeTime.toNat_lt
      rw [hcontract.deadline hvalid s' hwait] at hlt
      unfold dueNs at hlt
      split at hlt
      · rename_i ha
        exact ⟨ha, hlt⟩
      · -- a relative time is added to a clock that has left 64 bits
        have hclock := clockNs_ge rtc now
        omega
    refine ⟨hvalid, fun hfree => (habsolute hfree).1, fun hfree => (habsolute hfree).2, fun hfree => ?_⟩
    obtain ⟨ha, hlt⟩ := habsolute hfree
    obtain ⟨s', hwait⟩ := futexWait_some c.addr c.th c.ts c.kind (timerGetNtime rtc now) hfree
    have hpast : ns c.ts < clockNs rtc now := hlt.trans_le (clockNs_ge rtc now)
    have hwakes := (awake_of_wait hwait rfl).mp (hcontract.past hvalid ha hpast s' hwait s' rfl)
    rw [hcontract.deadline hvalid s' hwait, ha] at hwakes
    exact hwakes
  · intro hfits
    have hdue (s' : Sys) (hwait : c.atWait.futexWait c.addr c.th (some c.ts) c.kind (timerGetNtime rtc now) = some s') :
        (s'.thread c.th).awakeTime.toNat = ns c.ts ∧ dueNs rtc c.absolute c.ts now = ns c.ts := by
      have hfree := freeSlot_of_futexWait hwait
      have ha := hfits.absolute hfree
      have hplain : c.kind ≠ .plain := fun hkind => by
        rw [absolute_eq_false.mpr hkind] at ha
        cases ha
      rw [(futexWait_thread hwait).2, if_neg hplain, nanos_toNat, Nat.mod_eq_of_lt (hfits.lt hfree), ha]
      exact ⟨rfl, rfl⟩
    refine ⟨fun hinvalid => absurd hfits.valid hinvalid, fun _ s' hwait => ?_, fun _ s' hwait u clk _ _ _ => ?_,
      fun _ _ _ s' hwait u hu => ?_⟩
    · rw [(hdue s' hwait).1, (hdue s' hwait).2]
    · rw [(hdue s' hwait).2]
      exact (hfits.lt (freeSlot_of_futexWait hwait)).le.trans (clockNs_ge rtc clk)
    · apply (awake_of_wait hwait hu).mpr
      rw [(hdue s' hwait).1]
      exact hfits.passed (freeSlot_of_futexWait hwait)

/-- Both calls have right deadlines exactly when their arithmetic stays within its 64 bits. -/
theorem deadlines_right_iff (g : Grain) (rtc : UInt32) (now : UInt64) :
    (∀ a ts, Asks a ts → (SleepContract g rtc a now ts ↔ SleepFits g rtc a now ts)) ∧
      ∀ (c : FutexCall) (look : UInt64), c.Accepted → (FutexContract rtc c now look ↔ FutexFits rtc c look) :=
  ⟨fun _ _ h => sleep_contract_iff h, fun _ _ h => futex_contract_iff h⟩

/-- Half a second of sleep. -/
theorem deadlines_right_half : SleepContract .nanosecond 0 ⟨0, 0, some ⟨0, 500000000⟩, none⟩ 0 ⟨0, 500000000⟩ :=
  ((deadlines_right_iff .nanosecond 0 0).1 _ _ ⟨rfl, rfl⟩).mpr
    ⟨fun _ => by decide, fun _ _ _ => by decide, fun _ _ h => absurd h (by decide), fun _ _ => by decide⟩

/-- The deadline of a sleep of 2000000000000 seconds wraps. -/
theorem not_right_wrapped : ¬∀ g rtc now a ts, Asks a ts → SleepContract g rtc a now ts := by
  intro h
  have hvalid : Valid ⟨2000000000000, 0⟩ := ⟨by decide, by decide, by decide⟩
  have hfits := (sleep_contract_iff ⟨rfl, rfl⟩).mp
    (h .tick 0 0 ⟨0, 0, some ⟨2000000000000, 0⟩, none⟩ ⟨2000000000000, 0⟩ ⟨rfl, rfl⟩)
  exact absurd (hfits.relative hvalid (by decide) (by decide)) (by decide)

end Futexes

end SC7.Deadline
