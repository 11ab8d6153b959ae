-- SUMMARY: Pipes (`pipe.c`): the lock sections of `pipewrite`, `piperead` and `pipeclose`, and the first-in first-out property over all their interleavings.
import SC7.Base.RingBuf
import SC7.Base.Run

/-!
# Pipes

Each function of `pipe.c` holds `pi->lock` except while it sleeps, so a call is a sequence of
lock sections: one from its start and one for each time it is woken up. A section is a function
of the pipe; what it reads of the outside world is a parameter: the bytes that `copyin` gets
(`none` if it fails), whether `copyout` succeeds, whether the process has been killed, and
whether the file is non-blocking.

The counters `nread` and `nwrite` are 32-bit and never reset; they wrap.
-/

namespace SC7

open Function (update)

abbrev PIPESIZE : Nat := 512
abbrev EPIPE : Int := 32
abbrev EAGAIN : Int := 11

def add32 (a b : Nat) : Nat := (a + b) % 2 ^ 32

/-- `struct pipe` without its lock. -/
structure Pipe where
  data : Nat → UInt8
  size : Nat
  nread : Nat
  nwrite : Nat
  readopen : Bool
  writeopen : Bool

/-- The pipe that `pipealloc` makes; `data` is whatever the new page holds. -/
def pipealloc (data : Nat → UInt8) : Pipe :=
  { data := data, size := PIPESIZE, nread := 0, nwrite := 0, readopen := true, writeopen := true }

/-- How a lock section ends: with the return value of the call, or in `sleep_on_chan` with the
loop variable `i`. -/
inductive Outcome where
  | ret (value : Int)
  | sleep (i : Nat)
  deriving DecidableEq, Repr

/-- What a lock section reads besides the pipe; `killed` and the copies are indexed by the loop
variable. -/
structure Env where
  copyin : Nat → Option UInt8
  copyout : Nat → Bool
  killed : Nat → Bool
  nonblock : Bool

namespace Pipe

/-! ## Writing -/

/-- The loop of `pipewrite` from `i` on, up to its return or its sleep; `m` is `n - i`. The
bytes are those that went into the pipe. -/
def writeLoop (env : Env) (p : Pipe) (i : Nat) : Nat → Pipe × List UInt8 × Outcome
  | 0 => (p, [], .ret i)
  | m + 1 =>
    if p.readopen = false ∨ env.killed i then (p, [], .ret (-EPIPE))
    else if p.nwrite = add32 p.nread p.size then
      if env.nonblock then (p, [], .ret (if i = 0 then -EAGAIN else i))
      else (p, [], .sleep i)
    else
      match env.copyin i with
      | none => (p, [], .ret i)
      | some ch =>
        let p' := { p with
          data := update p.data (p.nwrite % p.size) ch
          nwrite := add32 p.nwrite 1 }
        let (p'', bs, out) := writeLoop env p' (i + 1) m
        (p'', ch :: bs, out)

/-- A section of `pipewrite(pi, addr, n, f)`. -/
def writeSection (env : Env) (p : Pipe) (n : Int) (i : Nat) : Pipe × List UInt8 × Outcome :=
  writeLoop env p i (n.toNat - i)

/-! ## Reading -/

/-- The `for` loop of `piperead`; `m` is `n - i`. The bytes are those that left the pipe. -/
def readLoop (env : Env) (p : Pipe) (i : Nat) : Nat → Pipe × List UInt8 × Outcome
  | 0 => (p, [], .ret i)
  | m + 1 =>
    if p.nread = p.nwrite then (p, [], .ret i)
    else
      let ch := p.data (p.nread % p.size)
      let p' := { p with nread := add32 p.nread 1 }
      -- the byte is gone even if the copy fails
      if env.copyout i then
        let (p'', bs, out) := readLoop env p' (i + 1) m
        (p'', ch :: bs, out)
      else (p', [ch], .ret i)

/-- A section of `piperead(pi, addr, n, f)`, from the `while` loop on. The test before the loop,
with which the first section starts, is the one after it. -/
def readSection (env : Env) (p : Pipe) (n : Int) : Pipe × List UInt8 × Outcome :=
  if p.nread = p.nwrite ∧ p.writeopen = true then
    if env.killed 0 then (p, [], .ret (-1))
    else if env.nonblock then (p, [], .ret (-EAGAIN))
    else (p, [], .sleep 0)
  else if p.nread = p.nwrite ∧ p.writeopen = false then (p, [], .ret 0)
  else readLoop env p 0 n.toNat

/-- The first section of `piperead`. -/
def readStart (env : Env) (p : Pipe) (n : Int) : Pipe × List UInt8 × Outcome :=
  if p.nread = p.nwrite ∧ p.writeopen = false then (p, [], .ret 0) else readSection env p n

/-! ## Closing -/

/-- `pipeclose`; the pipe is freed once both ends are closed. -/
def close (p : Pipe) (writable : Bool) : Option Pipe :=
  let p := if writable then { p with writeopen := false } else { p with readopen := false }
  if p.readopen = false ∧ p.writeopen = false then none else some p

/-- The bytes in the pipe, read off the ring. -/
def unread (p : Pipe) : List UInt8 := RingBuf.contents (2 ^ 32) p.size ⟨p.data, p.nread, p.nwrite⟩

end Pipe

/-! ## The pipe and its users -/

/-- A call in progress, asleep in the loop. -/
inductive PipeCall where
  | write (n : Int) (i : Nat)
  | read (n : Int)
  deriving DecidableEq, Repr

/-- A pipe, the sleeping calls of its users, and all bytes that went in and came out so far. -/
structure PipeSys where
  pipe : Pipe
  calls : Nat → Option PipeCall
  produced : List UInt8
  consumed : List UInt8

/-- What the user sees of a section: the call returned `value`, or it is asleep. -/
inductive PipeEvent where
  | write (n : Int) (out : Outcome)
  | read (n : Int) (out : Outcome)
  | close (writable : Bool)

namespace PipeSys

def init (data : Nat → UInt8) : PipeSys := ⟨pipealloc data, fun _ => none, [], []⟩

/-- The state after a section of user `id`: `call` is what it does if it has to sleep. -/
def after (σ : PipeSys) (id : Nat) (call : Nat → PipeCall) (p : Pipe) (ins outs : List UInt8) :
    Outcome → PipeSys
  | .ret _ => ⟨p, update σ.calls id none, σ.produced ++ ins, σ.consumed ++ outs⟩
  | .sleep i => ⟨p, update σ.calls id (some (call i)), σ.produced ++ ins, σ.consumed ++ outs⟩

/-- The copies of user buffers succeed. -/
def Accepts (env : Env) : Prop := (∀ i, (env.copyin i).isSome) ∧ ∀ i, env.copyout i = true

/-- One lock section, on a pipe that is not freed. A sleeping call may be woken up at any time,
also without reason. The last close frees the pipe and ends the run. -/
inductive Step : PipeSys → PipeEvent → PipeSys → Prop where
  | writeStart {σ : PipeSys} {id : Nat} {n : Int} {env : Env} {p : Pipe} {bs : List UInt8} {out : Outcome} :
      σ.calls id = none → Accepts env → σ.pipe.writeSection env n 0 = (p, bs, out) →
      Step σ (.write n out) (σ.after id (.write n) p bs [] out)
  | writeResume {σ : PipeSys} {id i : Nat} {n : Int} {env : Env} {p : Pipe} {bs : List UInt8}
      {out : Outcome} :
      σ.calls id = some (.write n i) → Accepts env → σ.pipe.writeSection env n i = (p, bs, out) →
      Step σ (.write n out) (σ.after id (.write n) p bs [] out)
  | readStart {σ : PipeSys} {id : Nat} {n : Int} {env : Env} {p : Pipe} {bs : List UInt8} {out : Outcome} :
      σ.calls id = none → Accepts env → σ.pipe.readStart env n = (p, bs, out) →
      Step σ (.read n out) (σ.after id (fun _ => .read n) p [] bs out)
  | readResume {σ : PipeSys} {id : Nat} {n : Int} {env : Env} {p : Pipe} {bs : List UInt8} {out : Outcome} :
      σ.calls id = some (.read n) → Accepts env → σ.pipe.readSection env n = (p, bs, out) →
      Step σ (.read n out) (σ.after id (fun _ => .read n) p [] bs out)
  | close {σ : PipeSys} {writable : Bool} {p : Pipe} :
      σ.pipe.close writable = some p → Step σ (.close writable) { σ with pipe := p }

end PipeSys

/-! ## The ring invariant -/

namespace Pipe

/-- The pipe has `N` cells, which suits the counters, and its ring holds `xs`. -/
structure Rings (p : Pipe) (N : Nat) (xs : List UInt8) : Prop where
  size_eq : p.size = N
  dvd : N ∣ 2 ^ 32
  lt : N < 2 ^ 32
  ring : RingBuf.Holds (2 ^ 32) N ⟨p.data, p.nread, p.nwrite⟩ xs

/-- The pipe has the default size and its ring holds `xs`. -/
structure Holds (p : Pipe) (xs : List UInt8) : Prop where
  size_eq : p.size = PIPESIZE
  ring : RingBuf.Holds (2 ^ 32) PIPESIZE ⟨p.data, p.nread, p.nwrite⟩ xs

theorem holds_iff {p : Pipe} {xs : List UInt8} : p.Holds xs ↔ p.Rings PIPESIZE xs :=
  ⟨fun h => ⟨h.size_eq, by decide, by decide, h.ring⟩, fun h => ⟨h.size_eq, h.ring⟩⟩

namespace Rings

variable {p p' : Pipe} {env : Env} {xs bs : List UInt8} {out : Outcome} {N i m : Nat} {n : Int}

theorem unread_eq (h : p.Rings N xs) : p.unread = xs := by
  rw [unread, h.size_eq]
  exact h.ring.contents_eq h.lt

theorem empty_iff (h : p.Rings N xs) : p.nread = p.nwrite ↔ xs = [] := h.ring.wr_eq_rd_iff h.lt

theorem full_iff (h : p.Rings N xs) : p.nwrite = add32 p.nread p.size ↔ xs.length = N := by
  rw [h.size_eq]
  exact h.ring.wr_eq_add_iff h.lt

theorem push (h : p.Rings N xs) (hlt : xs.length < N) (ch : UInt8) :
    Rings { p with data := update p.data (p.nwrite % p.size) ch, nwrite := add32 p.nwrite 1 }
      N (xs ++ [ch]) := by
  refine ⟨h.size_eq, h.dvd, h.lt, ?_⟩
  have := h.ring.push h.dvd hlt ch
  rw [← h.size_eq] at this ⊢
  exact this

theorem pop {x : UInt8} (h : p.Rings N (x :: xs)) :
    p.data (p.nread % p.size) = x ∧ Rings { p with nread := add32 p.nread 1 } N xs := by
  obtain ⟨hx, hring⟩ := h.ring.pop
  rw [← h.size_eq] at hx
  exact ⟨hx, h.size_eq, h.dvd, h.lt, hring⟩

/-- A section of `pipewrite` appends its bytes. -/
theorem writeLoop (h : p.Rings N xs) (hrun : p.writeLoop env i m = (p', bs, out)) :
    p'.Rings N (xs ++ bs) := by
  induction m generalizing p xs i bs with
  | zero =>
    rw [Pipe.writeLoop] at hrun
    cases hrun
    rwa [List.append_nil]
  | succ m ih =>
    rw [Pipe.writeLoop] at hrun
    split at hrun
    · cases hrun
      rwa [List.append_nil]
    · split at hrun
      · split at hrun <;>
        · cases hrun
          rwa [List.append_nil]
      · rename_i hfull
        have hlt : xs.length < N := lt_of_le_of_ne h.ring.length_le fun heq => hfull (h.full_iff.mpr heq)
        split at hrun
        · cases hrun
          rwa [List.append_nil]
        · rename_i ch _
          simp only [Prod.mk.injEq] at hrun
          obtain ⟨rfl, rfl, rfl⟩ := hrun
          have hrest := ih (h.push hlt ch) rfl
          rwa [List.append_assoc, List.singleton_append] at hrest

/-- The copy loop of `piperead` takes its bytes off the front; it takes none only if it is asked
for none or there is none. -/
theorem readLoop (h : p.Rings N xs) (hacc : ∀ i, env.copyout i = true)
    (hrun : p.readLoop env i m = (p', bs, out)) :
    ∃ ys, xs = bs ++ ys ∧ p'.Rings N ys ∧ out = .ret ((i + bs.length : Nat) : Int) ∧
      (0 < m → xs ≠ [] → bs ≠ []) := by
  induction m generalizing p xs i bs with
  | zero =>
    rw [Pipe.readLoop] at hrun
    cases hrun
    exact ⟨xs, rfl, h, rfl, fun hm => absurd hm (lt_irrefl 0)⟩
  | succ m ih =>
    rw [Pipe.readLoop] at hrun
    split at hrun
    · rename_i hempty
      cases hrun
      exact ⟨xs, rfl, h, rfl, fun _ hne => absurd (h.empty_iff.mp hempty) hne⟩
    · rename_i hne
      obtain ⟨x, xs, rfl⟩ := List.exists_cons_of_ne_nil fun hnil => hne (h.empty_iff.mpr hnil)
      obtain ⟨hx, hpop⟩ := h.pop
      simp only [hacc i, if_true, Prod.mk.injEq] at hrun
      obtain ⟨rfl, rfl, rfl⟩ := hrun
      obtain ⟨ys, hys, hholds, hout, -⟩ := ih hpop rfl
      refine ⟨ys, ?_, hholds, ?_, fun _ _ => by simp⟩
      · rw [hx, List.cons_append, ← hys]
      · rw [hout, List.length_cons]
        congr 2
        omega

/-- A section of `piperead` takes its bytes off the front; with at least one byte asked for, it
returns 0 only from an empty pipe without a writer. -/
theorem readSection (h : p.Rings N xs) (hacc : ∀ i, env.copyout i = true)
    (hrun : p.readSection env n = (p', bs, out)) :
    ∃ ys, xs = bs ++ ys ∧ p'.Rings N ys ∧ (out = .ret 0 → 1 ≤ n → xs = [] ∧ p.writeopen = false) := by
  rw [Pipe.readSection] at hrun
  split at hrun
  · have hnone : p' = p ∧ bs = [] ∧ out ≠ .ret 0 := by
      split at hrun
      · cases hrun
        exact ⟨rfl, rfl, by decide⟩
      · split at hrun
        · cases hrun
          exact ⟨rfl, rfl, by decide⟩
        · cases hrun
          exact ⟨rfl, rfl, by decide⟩
    obtain ⟨rfl, rfl, hout⟩ := hnone
    exact ⟨xs, rfl, h, fun h0 => absurd h0 hout⟩
  · split at hrun
    · rename_i heof
      cases hrun
      exact ⟨xs, rfl, h, fun _ _ => ⟨h.empty_iff.mp heof.1, heof.2⟩⟩
    · rename_i hopen hclosed
      obtain ⟨ys, hys, hholds, hout, hsome⟩ := h.readLoop hacc hrun
      refine ⟨ys, hys, hholds, fun h0 hn => ?_⟩
      -- the pipe is not empty, so the loop took a byte
      have hne : xs ≠ [] := by
        intro hnil
        have hempty := h.empty_iff.mpr hnil
        cases hw : p.writeopen with
        | true => exact hopen ⟨hempty, hw⟩
        | false => exact hclosed ⟨hempty, hw⟩
      have hbs := hsome (by omega) hne
      rw [hout, Outcome.ret.injEq] at h0
      have hlen := List.length_pos_iff.mpr hbs
      omega

theorem readStart (h : p.Rings N xs) (hacc : ∀ i, env.copyout i = true)
    (hrun : p.readStart env n = (p', bs, out)) :
    ∃ ys, xs = bs ++ ys ∧ p'.Rings N ys ∧ (out = .ret 0 → 1 ≤ n → xs = [] ∧ p.writeopen = false) := by
  rw [Pipe.readStart] at hrun
  split at hrun
  · rename_i heof
    cases hrun
    exact ⟨xs, rfl, h, fun _ _ => ⟨h.empty_iff.mp heof.1, heof.2⟩⟩
  · exact h.readSection hacc hrun

theorem close {writable : Bool} (h : p.Rings N xs) (hrun : p.close writable = some p') : p'.Rings N xs := by
  have hring : ∀ q : Pipe, q.data = p.data → q.size = p.size → q.nread = p.nread →
      q.nwrite = p.nwrite → q.Rings N xs := by
    intro q hd hs hr hw
    refine ⟨hs.trans h.size_eq, h.dvd, h.lt, ?_⟩
    rw [hd, hr, hw]
    exact h.ring
  simp only [Pipe.close, Option.ite_none_left_eq_some, Option.some_inj] at hrun
  rw [← hrun.2]
  cases writable with
  | true => exact hring _ rfl rfl rfl rfl
  | false => exact hring _ rfl rfl rfl rfl

end Rings

end Pipe

/-! ## Runs -/

namespace PipeSys

/-- The pipe is a ring of `N` cells, and the bytes that went in are those that came out and those in
the pipe. -/
def RingInv (σ : PipeSys) (N : Nat) : Prop := ∃ xs, σ.pipe.Rings N xs ∧ σ.produced = σ.consumed ++ xs

/-- The bytes that went in are those that came out and those in the pipe. -/
def Inv (σ : PipeSys) : Prop := ∃ xs, σ.pipe.Holds xs ∧ σ.produced = σ.consumed ++ xs

theorem inv_iff {σ : PipeSys} : σ.Inv ↔ σ.RingInv PIPESIZE := by
  simp only [Inv, RingInv, Pipe.holds_iff]

theorem init_inv (data : Nat → UInt8) : (init data).Inv := ⟨[], ⟨rfl, RingBuf.Holds.nil (by decide)⟩, rfl⟩

namespace RingInv

variable {σ σ' : PipeSys} {env : Env} {N id i : Nat} {n : Int} {p : Pipe} {bs ys : List UInt8}
  {out : Outcome} {e : PipeEvent}

theorem write (h : σ.RingInv N) (hrun : σ.pipe.writeSection env n i = (p, bs, out)) :
    (σ.after id (.write n) p bs [] out).RingInv N := by
  obtain ⟨xs, hxs, hprod⟩ := h
  have hrings := hxs.writeLoop hrun
  cases out with
  | ret value => exact ⟨xs ++ bs, hrings, by simp [after, hprod]⟩
  | sleep i => exact ⟨xs ++ bs, hrings, by simp [after, hprod]⟩

theorem read (hprod : σ.produced = σ.consumed ++ (bs ++ ys)) (hrings : p.Rings N ys) :
    (σ.after id (fun _ => .read n) p [] bs out).RingInv N := by
  cases out with
  | ret value => exact ⟨ys, hrings, by simp [after, hprod]⟩
  | sleep i => exact ⟨ys, hrings, by simp [after, hprod]⟩

theorem step (h : σ.RingInv N) (hstep : Step σ e σ') : σ'.RingInv N := by
  cases hstep with
  | writeStart _ _ hrun => exact h.write hrun
  | writeResume _ _ hrun => exact h.write hrun
  | readStart _ hacc hrun =>
    obtain ⟨xs, hxs, hprod⟩ := h
    obtain ⟨ys, rfl, hrings, -⟩ := hxs.readStart hacc.2 hrun
    exact read hprod hrings
  | readResume _ hacc hrun =>
    obtain ⟨xs, hxs, hprod⟩ := h
    obtain ⟨ys, rfl, hrings, -⟩ := hxs.readSection hacc.2 hrun
    exact read hprod hrings
  | close hrun =>
    obtain ⟨xs, hxs, hprod⟩ := h
    exact ⟨xs, hxs.close hrun, hprod⟩

/-- A read of at least one byte that returns 0 found nothing to deliver and no writer. -/
theorem eof (h : σ.RingInv N) (hstep : Step σ (.read n (.ret 0)) σ') (hn : 1 ≤ n) :
    σ.consumed = σ.produced ∧ σ.pipe.writeopen = false := by
  obtain ⟨xs, hxs, hprod⟩ := h
  cases hstep with
  | readStart _ hacc hrun =>
    obtain ⟨ys, -, -, heof⟩ := hxs.readStart hacc.2 hrun
    obtain ⟨rfl, hw⟩ := heof rfl hn
    exact ⟨by rw [hprod, List.append_nil], hw⟩
  | readResume _ hacc hrun =>
    obtain ⟨ys, -, -, heof⟩ := hxs.readSection hacc.2 hrun
    obtain ⟨rfl, hw⟩ := heof rfl hn
    exact ⟨by rw [hprod, List.append_nil], hw⟩

end RingInv

/-- A state that lock sections lead to from a new pipe. -/
def Reachable (data : Nat → UInt8) (σ : PipeSys) : Prop :=
  Reaches (fun σ σ' => ∃ e, Step σ e σ') (init data) σ

end PipeSys

/-- Pipes are first-in first-out: in every reachable state the bytes delivered are a prefix of the
bytes accepted, the rest is exactly what the ring holds, and that is at most `PIPESIZE` bytes as
counted by the counters; a read of at least one byte returns 0 only when everything accepted
has been delivered and the write end is closed. -/
theorem pipe_fifo {data : Nat → UInt8} {σ : PipeSys} (hreach : σ.Reachable data) :
    σ.consumed <+: σ.produced ∧
    σ.produced = σ.consumed ++ σ.pipe.unread ∧
    σ.pipe.unread.length = (σ.pipe.nwrite + (2 ^ 32 - σ.pipe.nread)) % 2 ^ 32 ∧
    σ.pipe.unread.length ≤ PIPESIZE ∧
    ∀ (n : Int) (σ' : PipeSys), PipeSys.Step σ (.read n (.ret 0)) σ' → 1 ≤ n →
      σ.consumed = σ.produced ∧ σ.pipe.writeopen = false := by
  have hinv : σ.RingInv PIPESIZE :=
    hreach.invariant (I := fun t => t.RingInv PIPESIZE) (PipeSys.inv_iff.mp (PipeSys.init_inv data))
      fun t t' ht ⟨e, hstep⟩ => ht.step hstep
  obtain ⟨xs, hxs, hprod⟩ := id hinv
  have hunread := hxs.unread_eq
  refine ⟨?_, ?_, ?_, ?_, fun n σ' hstep hn => hinv.eof hstep hn⟩
  · rw [hprod]
    exact List.prefix_append _ _
  · rw [hunread, hprod]
  · rw [hunread]
    exact (hxs.ring.count_eq (by decide)).symm
  · rw [hunread]
    exact hxs.ring.length_le

/-- Buffers full of the letter `A`, for a process that blocks and is not killed. -/
def Env.letters : Env := ⟨fun _ => some 65, fun _ => true, fun _ => false, false⟩

theorem Env.letters_accepts : PipeSys.Accepts Env.letters := ⟨fun _ => rfl, fun _ => rfl⟩

/-- A new pipe after one byte was written. -/
def PipeSys.oneByte : PipeSys :=
  (PipeSys.init fun _ => 0).after 0 (.write 1) ((pipealloc fun _ => 0).writeSection Env.letters 1 0).1
    [65] [] (.ret 1)

theorem PipeSys.oneByte_reachable : PipeSys.oneByte.Reachable fun _ => 0 := by
  have hrun : (PipeSys.init fun _ => 0).pipe.writeSection Env.letters 1 0 =
      (((pipealloc fun _ => 0).writeSection Env.letters 1 0).1, [65], .ret 1) := rfl
  exact .single ⟨_, .writeStart rfl Env.letters_accepts hrun⟩

theorem pipe_fifo_oneByte :
    PipeSys.oneByte.consumed <+: PipeSys.oneByte.produced ∧ PipeSys.oneByte.pipe.unread.length ≤ PIPESIZE := by
  obtain ⟨hpre, -, -, hle, -⟩ := pipe_fifo PipeSys.oneByte_reachable
  exact ⟨hpre, hle⟩

/-- A read of no bytes returns 0 although a byte is waiting and the write end is open. -/
theorem pipe_read_zero_not_eof :
    ¬ ∀ (σ : PipeSys) (n : Int) (σ' : PipeSys), σ.Reachable (fun _ => 0) →
      PipeSys.Step σ (.read n (.ret 0)) σ' → σ.consumed = σ.produced ∧ σ.pipe.writeopen = false := by
  intro heof
  have hrun : PipeSys.oneByte.pipe.readStart Env.letters 0 = (PipeSys.oneByte.pipe, [], .ret 0) := rfl
  have hstep := PipeSys.Step.readStart (σ := PipeSys.oneByte) (rfl : PipeSys.oneByte.calls 0 = none)
    Env.letters_accepts hrun
  have hopen := (heof _ _ _ PipeSys.oneByte_reachable hstep).2
  cases hopen

end SC7
