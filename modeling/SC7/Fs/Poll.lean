-- SUMMARY: `filepoll` on pipes and FIFOs against the reads and writes it announces: exactly when it agrees with what a non-blocking call would do.
import SC7.Fs.Fifo
import SC7.Fs.PipeResize

/-!
# Poll

`filepoll` looks at the same counters as the transfers, but has tests of its own: for room it compares
where `pipewrite` and `fifowrite` test for equality, and for a hang-up it looks for an access mode that
a read end never has. `FIFO`s and pipes share the code, so it is one definition with the size of the ring
and the closed ends as parameters.
-/

namespace SC7

namespace Poll

abbrev POLLIN : Nat := 0x0001
abbrev POLLOUT : Nat := 0x0004
abbrev POLLHUP : Nat := 0x0010

/-- `filepoll(f, events)` for a ring of `size` cells; `flags` is `f->f_flags`. -/
def pollRing (nread nwrite size : Nat) (readClosed writeClosed : Bool) (flags events : Nat) : Nat :=
  let revents := 0
  let revents := if events &&& POLLIN ≠ 0 ∧ (nread ≠ nwrite ∨ writeClosed) then revents ||| POLLIN else revents
  let revents := if events &&& POLLOUT ≠ 0 ∧ nwrite < add32 nread size then revents ||| POLLOUT else revents
  let revents := if readClosed ∧ flags &&& Fifo.O_RDONLY ≠ 0 then revents ||| POLLHUP else revents
  if writeClosed ∧ flags &&& Fifo.O_WRONLY ≠ 0 then revents ||| POLLHUP else revents

variable {nread nwrite size flags events : Nat} {readClosed writeClosed : Bool}

theorem pollRing_in (hevents : events &&& POLLIN ≠ 0) :
    pollRing nread nwrite size readClosed writeClosed flags events &&& POLLIN ≠ 0 ↔
      nread ≠ nwrite ∨ writeClosed := by
  simp only [pollRing, hevents, ne_eq, not_false_eq_true, true_and]
  by_cases hready : ¬nread = nwrite ∨ writeClosed = true
  · rw [if_pos hready]
    refine iff_of_true ?_ hready
    split_ifs <;> decide
  · rw [if_neg hready]
    refine iff_of_false ?_ hready
    split_ifs <;> decide

theorem pollRing_out (hevents : events &&& POLLOUT ≠ 0) :
    pollRing nread nwrite size readClosed writeClosed flags events &&& POLLOUT ≠ 0 ↔
      nwrite < add32 nread size := by
  simp only [pollRing, hevents, ne_eq, not_false_eq_true, true_and]
  by_cases hroom : nwrite < add32 nread size
  · refine iff_of_true ?_ hroom
    split_ifs <;> decide
  · refine iff_of_false ?_ hroom
    split_ifs <;> decide

/-- A file whose access mode is not write-only is never told that the other end has hung up. -/
theorem pollRing_hup (hflags : flags &&& Fifo.O_WRONLY = 0) :
    pollRing nread nwrite size readClosed writeClosed flags events &&& POLLHUP = 0 := by
  have hrdonly : flags &&& Fifo.O_RDONLY = 0 := Nat.and_zero flags
  simp only [pollRing, hflags, hrdonly, ne_eq, not_true_eq_false, and_false, if_false]
  split_ifs <;> decide

/-- The bits of the access mode are apart. -/
theorem readMode_not_wronly (h : Fifo.ReadMode flags) : flags &&& Fifo.O_WRONLY = 0 := by
  have hmask : flags &&& Fifo.O_WRONLY = flags &&& Fifo.O_ACCMODE &&& Fifo.O_WRONLY := by
    rw [Nat.and_assoc]
    rfl
  rcases h with hmode | hmode
  · rw [hmask, hmode]
    rfl
  · rw [hmask, hmode]
    rfl

/-- An event on an end says that the non-blocking call of one byte on it would not fail with `EAGAIN`. -/
def Agrees (event : Nat) (poll : Nat → Nat → Nat) (End : Nat → Prop) (call : Outcome) : Prop :=
  ∀ flags events, End flags → events &&& event ≠ 0 → (poll flags events &&& event ≠ 0 ↔ call ≠ .ret (-EAGAIN))

/-- `POLLHUP` on a read end says that no writer is open. -/
def HupAgrees (poll : Nat → Nat → Nat) (ReadEnd : Nat → Prop) (noWriter : Prop) : Prop :=
  ∀ flags events, ReadEnd flags → (poll flags events &&& POLLHUP ≠ 0 ↔ noWriter)

theorem ret_ne {value : Int} (hne : value ≠ -EAGAIN) : Outcome.ret value ≠ .ret (-EAGAIN) :=
  fun h => hne (Outcome.ret.inj h)

variable {event : Nat} {poll : Nat → Nat → Nat} {End : Nat → Prop} {call : Outcome} {P : Prop}

/-- If the event does not depend on the flags, it only has to be right. -/
theorem agrees_iff (hevent : event &&& event ≠ 0) (hend : ∃ flags, End flags)
    (hpoll : ∀ flags events, events &&& event ≠ 0 → (poll flags events &&& event ≠ 0 ↔ P)) :
    Agrees event poll End call ↔ (P ↔ call ≠ .ret (-EAGAIN)) := by
  constructor
  · intro h
    obtain ⟨flags, hflags⟩ := hend
    rw [← hpoll flags event hevent]
    exact h flags event hflags hevent
  · intro h flags events _ hevents
    rw [hpoll flags events hevents]
    exact h

theorem hupAgrees_iff (hend : ∃ flags, End flags)
    (hpoll : ∀ flags events, End flags → poll flags events &&& POLLHUP = 0) :
    HupAgrees poll End P ↔ ¬P := by
  constructor
  · intro h
    obtain ⟨flags, hflags⟩ := hend
    rw [← h flags 0 hflags]
    exact fun hne => hne (hpoll flags 0 hflags)
  · intro h flags events hflags
    exact iff_of_false (fun hne => hne (hpoll flags events hflags)) h

end Poll

/-! ## Pipes -/

namespace Pipe

open Poll

variable {p p' : Pipe} {env : Env} {data : Nat → UInt8}

/-- The branch of `filepoll` for a pipe. -/
def filepoll (p : Pipe) (flags events : Nat) : Nat :=
  pollRing p.nread p.nwrite p.size (!p.readopen) (!p.writeopen) flags events

/-- What a pipe can go through: the sections of its calls, whatever happens to them, and resizes. -/
inductive Next : Pipe → Pipe → Prop where
  | write {p : Pipe} (env : Env) (n : Int) (i : Nat) : Next p (p.writeSection env n i).1
  | readStart {p : Pipe} (env : Env) (n : Int) : Next p (p.readStart env n).1
  | read {p : Pipe} (env : Env) (n : Int) : Next p (p.readSection env n).1
  | close {p p' : Pipe} (writable : Bool) : p.close writable = some p' → Next p p'
  | setSize {p : Pipe} (kalloc : Option (Nat → UInt8)) (size : Nat) : size < 2 ^ 32 → Next p (p.setSize kalloc size).2

def Reachable (p : Pipe) : Prop := ∃ data, Reaches Next (pipealloc data) p

/-- The counters are those of a ring with the size of the pipe. -/
structure Counted (p : Pipe) : Prop where
  size_lt : p.size < 2 ^ 32
  bounded : RingBuf.Bounded (2 ^ 32) p.size ⟨p.data, p.nread, p.nwrite⟩

namespace Counted

theorem writeLoop (h : p.Counted) (env : Env) (i m : Nat) : (p.writeLoop env i m).1.Counted := by
  induction m generalizing p i with
  | zero => exact h
  | succ m ih =>
    rw [Pipe.writeLoop]
    split
    · exact h
    · split
      · split <;> exact h
      · rename_i hfull
        split
        · exact h
        · rename_i ch _
          have hpush : Counted { p with
              data := Function.update p.data (p.nwrite % p.size) ch, nwrite := add32 p.nwrite 1 } :=
            ⟨h.size_lt, h.bounded.push h.size_lt hfull ch⟩
          exact ih hpush (i + 1)

theorem readLoop (h : p.Counted) (env : Env) (i m : Nat) : (p.readLoop env i m).1.Counted := by
  induction m generalizing p i with
  | zero => exact h
  | succ m ih =>
    rw [Pipe.readLoop]
    split
    · exact h
    · rename_i hempty
      have hpop : Counted { p with nread := add32 p.nread 1 } := ⟨h.size_lt, h.bounded.pop hempty⟩
      by_cases hcopy : env.copyout i = true
      · simp only [hcopy, if_true]
        exact ih hpop (i + 1)
      · simp only [hcopy, Bool.false_eq_true, if_false]
        exact hpop

theorem readSection (h : p.Counted) (env : Env) (n : Int) : (p.readSection env n).1.Counted := by
  rw [Pipe.readSection]
  split
  · split_ifs <;> exact h
  · split
    · exact h
    · exact h.readLoop env 0 n.toNat

theorem setSize (h : p.Counted) (kalloc : Option (Nat → UInt8)) {size : Nat} (hsize : size < 2 ^ 32) :
    (p.setSize kalloc size).2.Counted := by
  unfold Pipe.setSize
  split
  · exact h
  · split
    · exact h
    · cases kalloc with
      | none => exact h
      | some page =>
        by_cases hgt : p.nwrite > p.nread
        · by_cases hbig : p.nwrite - p.nread > size
          · simp only [if_pos hgt, if_pos hbig]
            exact ⟨hsize, RingBuf.Bounded.start (le_refl size) hsize⟩
          · simp only [if_pos hgt, if_neg hbig]
            exact ⟨hsize, RingBuf.Bounded.start (Nat.le_of_not_lt hbig) hsize⟩
        · simp only [if_neg hgt]
          exact ⟨hsize, RingBuf.Bounded.start (Nat.zero_le size) hsize⟩

theorem step (h : p.Counted) (hstep : Next p p') : p'.Counted := by
  cases hstep with
  | write env n i => exact h.writeLoop env i _
  | readStart env n =>
    rw [Pipe.readStart]
    split
    · exact h
    · exact h.readSection env n
  | read env n => exact h.readSection env n
  | close writable hclose =>
    have hsame : ∀ q : Pipe, q.size = p.size → q.data = p.data → q.nread = p.nread → q.nwrite = p.nwrite → q.Counted := by
      intro q hs hd hr hw
      refine ⟨by rw [hs]; exact h.size_lt, ?_⟩
      rw [hs, hd, hr, hw]
      exact h.bounded
    simp only [Pipe.close, Option.ite_none_left_eq_some, Option.some_inj] at hclose
    rw [← hclose.2]
    cases writable with
    | true => exact hsame _ rfl rfl rfl rfl
    | false => exact hsame _ rfl rfl rfl rfl
  | setSize kalloc size hsize => exact h.setSize kalloc hsize

end Counted

theorem Reachable.counted (h : p.Reachable) : p.Counted := by
  obtain ⟨data, hrun⟩ := h
  have hsize : PIPESIZE < 2 ^ 32 := by decide
  have hinit : (pipealloc data).Counted := ⟨hsize, RingBuf.Bounded.start (Nat.zero_le _) hsize⟩
  exact hrun.invariant hinit fun _ _ h => h.step

theorem write_eagain (p : Pipe) (env : Env) :
    (p.writeSection { env with nonblock := true } 1 0).2.2 = .ret (-EAGAIN) ↔
      p.readopen = true ∧ env.killed 0 = false ∧ p.nwrite = add32 p.nread p.size := by
  rw [writeSection, show (1 : Int).toNat - 0 = 0 + 1 from rfl, Pipe.writeLoop]
  by_cases hepipe : p.readopen = false ∨ env.killed 0 = true
  · rw [if_pos hepipe]
    refine iff_of_false (ret_ne (by decide)) fun h => ?_
    rcases hepipe with hread | hkilled
    · exact absurd h.1 (by simp [hread])
    · exact absurd h.2.1 (by simp [hkilled])
  · rw [if_neg hepipe]
    simp only [not_or, Bool.not_eq_false, Bool.not_eq_true] at hepipe
    by_cases hfull : p.nwrite = add32 p.nread p.size
    · rw [if_pos hfull]
      exact iff_of_true rfl ⟨hepipe.1, hepipe.2, hfull⟩
    · rw [if_neg hfull]
      refine iff_of_false ?_ fun h => hfull h.2.2
      split
      · exact ret_ne (by decide)
      · exact ret_ne (by decide)

theorem readLoop_one (p : Pipe) (env : Env) : (p.readLoop env 0 1).2.2 ≠ .ret (-EAGAIN) := by
  simp only [Pipe.readLoop]
  split_ifs <;> exact ret_ne (by decide)

theorem read_eagain (p : Pipe) (env : Env) :
    (p.readStart { env with nonblock := true } 1).2.2 = .ret (-EAGAIN) ↔
      p.nread = p.nwrite ∧ p.writeopen = true ∧ env.killed 0 = false := by
  rw [Pipe.readStart, Pipe.readSection]
  by_cases hempty : p.nread = p.nwrite
  · cases hwrite : p.writeopen with
    | false => exact iff_of_false (by simp [hempty, EAGAIN]) (by simp)
    | true => cases hkilled : env.killed 0 <;> simp [hempty, EAGAIN]
  · rw [if_neg fun h => hempty h.1, if_neg fun h => hempty h.1, if_neg fun h => hempty h.1]
    exact iff_of_false (p.readLoop_one _) fun h => hempty h.1

end Pipe

/-! ## FIFOs -/

namespace Fifo

open Poll

variable {fi fi' : Fifo} {env : Env}

/-- The branch of `filepoll` for a FIFO. -/
def filepoll (fi : Fifo) (flags events : Nat) : Nat :=
  pollRing fi.nread fi.nwrite FIFO_SIZE (fi.readopen == 0) (fi.writeopen == 0) flags events

/-- What a slot can go through: it is taken for a path, and the sections of the calls on it. -/
inductive Next : Fifo → Fifo → Prop where
  | create {fi : Fifo} (path : List UInt8) : Next fi (fi.create path)
  | open {fi : Fifo} (flags : Nat) : Next fi (fi.openSection flags).2
  | close {fi : Fifo} (flags : Nat) : Next fi (fi.closeSection flags)
  | clear {fi : Fifo} : Next fi fi.clear
  | writeStart {fi : Fifo} (env : Env) (n : Int) : Next fi (fi.writeStart env n).1
  | write {fi : Fifo} (env : Env) (i m : Nat) : Next fi (fi.writeLoop env i m).1
  | readStart {fi : Fifo} (env : Env) (n : Int) : Next fi (fi.readStart env n).1
  | read {fi : Fifo} (env : Env) (n : Int) : Next fi (fi.readSection env n).1

def Reachable (fi : Fifo) : Prop := ∃ data, Reaches Next (init data) fi

/-- The counters are those of a ring of `FIFO_SIZE` cells. -/
def Counted (fi : Fifo) : Prop := RingBuf.Bounded (2 ^ 32) FIFO_SIZE (⟨fi.data, fi.nread, fi.nwrite⟩ : RingBuf UInt8)

theorem fifo_size_lt : FIFO_SIZE < 2 ^ 32 := by decide

namespace Counted

theorem writeLoop (h : fi.Counted) (env : Env) (i m : Nat) : (fi.writeLoop env i m).1.Counted := by
  induction m generalizing fi i with
  | zero => exact h
  | succ m ih =>
    rw [Fifo.writeLoop]
    split
    · exact h
    · split
      · split <;> exact h
      · rename_i hfull
        split
        · exact h
        · rename_i ch _
          have hpush : Counted { fi with
              data := Function.update fi.data (fi.nwrite % FIFO_SIZE) ch, nwrite := add32 fi.nwrite 1 } :=
            h.push fifo_size_lt hfull ch
          exact ih hpush (i + 1)

theorem readLoop (h : fi.Counted) (env : Env) (i m : Nat) : (fi.readLoop env i m).1.Counted := by
  induction m generalizing fi i with
  | zero => exact h
  | succ m ih =>
    rw [Fifo.readLoop]
    split
    · exact h
    · rename_i hempty
      have hpop : Counted { fi with nread := add32 fi.nread 1 } := h.pop hempty
      by_cases hcopy : env.copyout i = true
      · simp only [hcopy, if_true]
        exact ih hpop (i + 1)
      · simp only [hcopy, Bool.false_eq_true, if_false]
        exact hpop

theorem readSection (h : fi.Counted) (env : Env) (n : Int) : (fi.readSection env n).1.Counted := by
  rw [Fifo.readSection]
  split
  · split_ifs <;> exact h
  · exact h.readLoop env 0 n.toNat

theorem step (h : fi.Counted) (hstep : Next fi fi') : fi'.Counted := by
  cases hstep with
  | create path => exact RingBuf.Bounded.start (Nat.zero_le _) fifo_size_lt
  | «open» flags =>
    rw [Fifo.openSection]
    split_ifs <;> exact h
  | close flags =>
    rw [Fifo.closeSection]
    split_ifs <;> exact h
  | clear => exact h
  | writeStart env n =>
    rw [Fifo.writeStart]
    split_ifs
    · exact h
    · exact h
    · exact h.writeLoop env 0 n.toNat
  | write env i m => exact h.writeLoop env i m
  | readStart env n =>
    rw [Fifo.readStart]
    split_ifs
    · exact h
    · exact h.readSection env n
  | read env n => exact h.readSection env n

end Counted

theorem Reachable.counted (h : fi.Reachable) : fi.Counted := by
  obtain ⟨data, hrun⟩ := h
  have hinit : (init data).Counted := RingBuf.Bounded.start (Nat.zero_le _) fifo_size_lt
  exact hrun.invariant hinit fun _ _ h => h.step

theorem write_eagain (fi : Fifo) (env : Env) :
    (fi.writeStart { env with nonblock := true } 1).2 = .ret (-EAGAIN) ↔
      fi.readopen ≠ 0 ∧ fi.nwrite = add32 fi.nread FIFO_SIZE := by
  rw [Fifo.writeStart]
  by_cases hread : fi.readopen = 0
  · rw [if_pos hread]
    exact iff_of_false (ret_ne (by decide)) fun h => h.1 hread
  · rw [if_neg hread]
    by_cases hfull : fi.nwrite = add32 fi.nread FIFO_SIZE
    · rw [if_pos ⟨rfl, hfull⟩]
      exact iff_of_true rfl ⟨hread, hfull⟩
    · rw [if_neg fun h => hfull h.2]
      refine iff_of_false ?_ fun h => hfull h.2
      rw [show (1 : Int).toNat = 0 + 1 from rfl, Fifo.writeLoop]
      rw [if_neg hfull]
      split
      · exact ret_ne (by decide)
      · split
        · exact ret_ne (by decide)
        · exact ret_ne (by decide)

theorem readLoop_one (fi : Fifo) (env : Env) : (fi.readLoop env 0 1).2 ≠ .ret (-EAGAIN) := by
  simp only [Fifo.readLoop]
  split_ifs <;> exact ret_ne (by decide)

theorem read_eagain (fi : Fifo) (env : Env) :
    (fi.readStart { env with nonblock := true } 1).2 = .ret (-EAGAIN) ↔ fi.nread = fi.nwrite ∧ fi.writeopen ≠ 0 := by
  rw [Fifo.readStart, Fifo.readSection]
  by_cases hwait : fi.nread = fi.nwrite ∧ fi.writeopen > 0
  · rw [if_pos ⟨rfl, hwait⟩]
    exact iff_of_true rfl ⟨hwait.1, Nat.ne_of_gt hwait.2⟩
  · rw [if_neg fun h => hwait h.2, if_neg hwait]
    exact iff_of_false (fi.readLoop_one _) fun h => hwait ⟨h.1, Nat.pos_of_ne_zero h.2⟩

end Fifo

/-! ## Poll and the calls -/

namespace Pipe

open Poll

variable {p : Pipe} (env : Env)

def WriteEnd (flags : Nat) : Prop := flags &&& Fifo.O_ACCMODE = Fifo.O_WRONLY

def ReadEnd (flags : Nat) : Prop := flags &&& Fifo.O_ACCMODE = Fifo.O_RDONLY

theorem out_agrees (h : p.Counted) :
    Agrees POLLOUT p.filepoll WriteEnd (p.writeSection { env with nonblock := true } 1 0).2.2 ↔
      (p.nread + p.size < 2 ^ 32 ∨ p.nwrite < p.nread) ∧
        (p.nwrite = add32 p.nread p.size → p.readopen = true ∧ env.killed 0 = false) := by
  have hpoll : ∀ flags events, events &&& POLLOUT ≠ 0 →
      (p.filepoll flags events &&& POLLOUT ≠ 0 ↔ p.nwrite < add32 p.nread p.size) :=
    fun _ _ hevents => pollRing_out hevents
  have hend : ∃ flags, WriteEnd flags := ⟨Fifo.O_WRONLY, rfl⟩
  rw [agrees_iff (by decide) hend hpoll, ne_eq, p.write_eagain, ← and_assoc]
  exact h.bounded.room_agrees_iff h.size_lt _

theorem in_agrees (p : Pipe) :
    Agrees POLLIN p.filepoll ReadEnd (p.readStart { env with nonblock := true } 1).2.2 ↔
      (p.nread = p.nwrite ∧ p.writeopen = true → env.killed 0 = false) := by
  have hpoll : ∀ flags events, events &&& POLLIN ≠ 0 →
      (p.filepoll flags events &&& POLLIN ≠ 0 ↔ p.nread ≠ p.nwrite ∨ (!p.writeopen) = true) :=
    fun _ _ hevents => pollRing_in hevents
  have hend : ∃ flags, ReadEnd flags := ⟨Fifo.O_RDONLY, rfl⟩
  have hread := not_congr (p.read_eagain env)
  rw [agrees_iff (by decide) hend hpoll, ne_eq (Pipe.readStart _ _ _).2.2, hread]
  cases p.writeopen with
  | false => simp
  | true => cases env.killed 0 <;> simp

theorem hup_agrees (p : Pipe) : HupAgrees p.filepoll ReadEnd (p.writeopen = false) ↔ p.writeopen = true := by
  have hpoll : ∀ flags events, ReadEnd flags → p.filepoll flags events &&& POLLHUP = 0 :=
    fun _ _ hflags => pollRing_hup (readMode_not_wronly (Or.inl hflags))
  have hend : ∃ flags, ReadEnd flags := ⟨Fifo.O_RDONLY, rfl⟩
  rw [hupAgrees_iff hend hpoll, Bool.not_eq_false]

end Pipe

namespace Fifo

open Poll

variable {fi : Fifo} (env : Env)

theorem out_agrees (h : fi.Counted) :
    Agrees POLLOUT fi.filepoll WriteMode (fi.writeStart { env with nonblock := true } 1).2 ↔
      (fi.nread + FIFO_SIZE < 2 ^ 32 ∨ fi.nwrite < fi.nread) ∧
        (fi.nwrite = add32 fi.nread FIFO_SIZE → fi.readopen ≠ 0) := by
  have hpoll : ∀ flags events, events &&& POLLOUT ≠ 0 →
      (fi.filepoll flags events &&& POLLOUT ≠ 0 ↔ fi.nwrite < add32 fi.nread FIFO_SIZE) :=
    fun _ _ hevents => pollRing_out hevents
  have hend : ∃ flags, WriteMode flags := ⟨O_WRONLY, Or.inl rfl⟩
  rw [agrees_iff (by decide) hend hpoll, ne_eq, fi.write_eagain]
  exact RingBuf.Bounded.room_agrees_iff h fifo_size_lt _

theorem in_agrees (fi : Fifo) :
    Agrees POLLIN fi.filepoll ReadMode (fi.readStart { env with nonblock := true } 1).2 := by
  have hpoll : ∀ flags events, events &&& POLLIN ≠ 0 →
      (fi.filepoll flags events &&& POLLIN ≠ 0 ↔ fi.nread ≠ fi.nwrite ∨ (fi.writeopen == 0) = true) :=
    fun _ _ hevents => pollRing_in hevents
  have hend : ∃ flags, ReadMode flags := ⟨O_RDONLY, Or.inl rfl⟩
  rw [agrees_iff (by decide) hend hpoll, ← not_iff_not, not_not, fi.read_eagain env, beq_iff_eq, not_or, not_not]

theorem hup_agrees (fi : Fifo) : HupAgrees fi.filepoll ReadMode (fi.writeopen = 0) ↔ fi.writeopen ≠ 0 := by
  have hpoll : ∀ flags events, ReadMode flags → fi.filepoll flags events &&& POLLHUP = 0 :=
    fun _ _ hflags => pollRing_hup (readMode_not_wronly hflags)
  exact hupAgrees_iff ⟨O_RDONLY, Or.inl rfl⟩ hpoll

end Fifo

namespace Poll

/-- For every state of a pipe or a FIFO, which of the announcements of `filepoll` are right. The calls are
of a process that has been killed or not, as `env` says. -/
theorem filepoll_agrees (env : Env) :
    (∀ p : Pipe, p.Reachable →
      (Agrees POLLOUT p.filepoll Pipe.WriteEnd (p.writeSection { env with nonblock := true } 1 0).2.2 ↔
        (p.nread + p.size < 2 ^ 32 ∨ p.nwrite < p.nread) ∧
          (p.nwrite = add32 p.nread p.size → p.readopen = true ∧ env.killed 0 = false)) ∧
      (Agrees POLLIN p.filepoll Pipe.ReadEnd (p.readStart { env with nonblock := true } 1).2.2 ↔
        (p.nread = p.nwrite ∧ p.writeopen = true → env.killed 0 = false)) ∧
      (HupAgrees p.filepoll Pipe.ReadEnd (p.writeopen = false) ↔ p.writeopen = true)) ∧
    ∀ fi : Fifo, fi.Reachable →
      (Agrees POLLOUT fi.filepoll Fifo.WriteMode (fi.writeStart { env with nonblock := true } 1).2 ↔
        (fi.nread + FIFO_SIZE < 2 ^ 32 ∨ fi.nwrite < fi.nread) ∧
          (fi.nwrite = add32 fi.nread FIFO_SIZE → fi.readopen ≠ 0)) ∧
      Agrees POLLIN fi.filepoll Fifo.ReadMode (fi.readStart { env with nonblock := true } 1).2 ∧
      (HupAgrees fi.filepoll Fifo.ReadMode (fi.writeopen = 0) ↔ fi.writeopen ≠ 0) :=
  ⟨fun p hp => ⟨Pipe.out_agrees env hp.counted, p.in_agrees env, p.hup_agrees⟩,
    fun fi hfi => ⟨Fifo.out_agrees env hfi.counted, fi.in_agrees env, fi.hup_agrees⟩⟩

/-- A pipe whose writer is gone. -/
def hungUp : Pipe := { pipealloc (fun _ => 0) with writeopen := false }

theorem hungUp_reachable : hungUp.Reachable :=
  ⟨fun _ => 0, Relation.ReflTransGen.single (.close true (by simp [Pipe.close, pipealloc, hungUp]))⟩

/-- A live process: `POLLIN` and `POLLOUT` are right on a pipe that has lost its writer. -/
theorem filepoll_agrees_hungUp :
    Agrees POLLOUT hungUp.filepoll Pipe.WriteEnd
        (hungUp.writeSection ⟨fun _ => some 0, fun _ => true, fun _ => false, true⟩ 1 0).2.2 ∧
      Agrees POLLIN hungUp.filepoll Pipe.ReadEnd
        (hungUp.readStart ⟨fun _ => some 0, fun _ => true, fun _ => false, true⟩ 1).2.2 := by
  have h := (filepoll_agrees ⟨fun _ => some 0, fun _ => true, fun _ => false, true⟩).1 hungUp hungUp_reachable
  exact ⟨h.1.mpr ⟨Or.inl (by decide), fun hfull => absurd hfull (by decide)⟩, h.2.1.mpr fun _ => rfl⟩

/-- The read end of a pipe whose writer is gone is not told so. -/
theorem hungUp_not_reported :
    hungUp.Reachable ∧ ¬HupAgrees hungUp.filepoll Pipe.ReadEnd (hungUp.writeopen = false) := by
  refine ⟨hungUp_reachable, fun h => ?_⟩
  have hreported := (h Fifo.O_RDONLY POLLIN rfl).mpr rfl
  exact hreported (by decide)

end Poll

end SC7
