-- SUMMARY: What `piperead` and `fiforead` consume when a copy to the user fails, and when it is what they return.
import SC7.Fs.Fifo

/-!
# Failed copies

The loops of `piperead` and `fiforead` advance `nread` in the expression that fetches a byte, in front of
the copy that can fail. Both are the loop of a consumer that takes first and delivers afterwards.
-/

namespace SC7

/-- The number of bytes that a section reports. -/
def Outcome.taken : Outcome → Nat
  | .ret value => value.toNat
  | .sleep _ => 0

@[simp]
theorem Outcome.taken_ret {value : Int} : (Outcome.ret value).taken = value.toNat := rfl

/-- A section with this outcome turns the unread bytes `xs` into `ys`: it consumes what it reports. -/
def Consumes (xs ys : List UInt8) (out : Outcome) : Prop := out.taken ≤ xs.length ∧ ys = xs.drop out.taken

instance (xs ys : List UInt8) (out : Outcome) : Decidable (Consumes xs ys out) :=
  inferInstanceAs (Decidable (_ ∧ _))

/-- Every copy succeeds. -/
def Env.Good (env : Env) : Prop := ∀ i, env.copyout i = true

/-- Every byte that a read of `n` bytes tries to copy can be written. -/
def Env.Serves (env : Env) (n : Int) (xs : List UInt8) : Prop :=
  ∀ j : Nat, j < n.toNat → j < xs.length → env.copyout j = true

/-- A section that reports nothing consumes nothing. -/
theorem Consumes.none {xs : List UInt8} {out : Outcome} (h : out.taken = 0) : Consumes xs xs out := by
  refine ⟨?_, ?_⟩
  · rw [h]
    exact Nat.zero_le _
  · rw [h, List.drop_zero]

section Loop

variable {r : RingBuf UInt8} {env : Env} {n : Int} {N : Nat}

theorem consumes_takeLoop_iff (h : RingBuf.Bounded (2 ^ 32) (2 ^ 32) r) :
    Consumes (r.contents (2 ^ 32) N) ((r.takeLoop (2 ^ 32) env.copyout 0 n.toNat).1.contents (2 ^ 32) N)
      (.ret ((r.takeLoop (2 ^ 32) env.copyout 0 n.toNat).2 : Nat)) ↔
    env.Serves n (r.contents (2 ^ 32) N) := by
  unfold Consumes Env.Serves
  rw [Outcome.taken_ret, Int.toNat_natCast, RingBuf.length_contents]
  exact RingBuf.takeLoop_exact_iff h

end Loop

/-! ## Pipes -/

namespace Pipe

def ring (p : Pipe) : RingBuf UInt8 := ⟨p.data, p.nread, p.nwrite⟩

def withRing (p : Pipe) (r : RingBuf UInt8) : Pipe :=
  { p with data := r.data, nread := r.rd, nwrite := r.wr }

/-- The counters are `uint`. -/
def Counters (p : Pipe) : Prop := p.nread < 2 ^ 32 ∧ p.nwrite < 2 ^ 32

/-- A call of `piperead`, from its start or after it has slept, consumes what it returns, and a later read
of everything with a good buffer gets the rest. -/
structure ReadsExactly (p : Pipe) (env : Env) (n : Int) : Prop where
  start : Consumes p.unread (p.readStart env n).1.unread (p.readStart env n).2.2
  resume : Consumes p.unread (p.readSection env n).1.unread (p.readSection env n).2.2
  retry : ∀ (env' : Env) (n' : Int), env'.Good → p.unread.length ≤ n' →
    (p.readStart env n).2.2.taken + ((p.readStart env n).1.readStart env' n').2.2.taken = p.unread.length

variable {p : Pipe} {env : Env} {n : Int} {i m : Nat}

theorem Counters.bounded (h : p.Counters) : RingBuf.Bounded (2 ^ 32) (2 ^ 32) p.ring := .any h.1 h.2

theorem unread_eq_contents : p.unread = p.ring.contents (2 ^ 32) p.size := rfl

theorem Counters.unread_nil_iff (h : p.Counters) : p.nread = p.nwrite ↔ p.unread.length = 0 := by
  rw [unread_eq_contents, RingBuf.length_contents]
  exact h.bounded.empty_iff

/-- The loop of `piperead`. -/
theorem readLoop_eq :
    ∃ bs, p.readLoop env i m =
      (p.withRing (p.ring.takeLoop (2 ^ 32) env.copyout i m).1, bs,
        .ret ((p.ring.takeLoop (2 ^ 32) env.copyout i m).2 : Nat)) := by
  induction m generalizing p i with
  | zero => exact ⟨[], rfl⟩
  | succ m ih =>
    unfold readLoop RingBuf.takeLoop
    by_cases hempty : p.nread = p.nwrite
    · refine ⟨[], ?_⟩
      rw [if_pos hempty, if_pos (show p.ring.rd = p.ring.wr from hempty)]
      rfl
    · rw [if_neg hempty, if_neg (show ¬p.ring.rd = p.ring.wr from hempty)]
      by_cases hok : env.copyout i = true
      · obtain ⟨bs, hbs⟩ := @ih { p with nread := add32 p.nread 1 } (i + 1)
        refine ⟨p.data (p.nread % p.size) :: bs, ?_⟩
        simp only [hok, if_true, hbs]
        rfl
      · refine ⟨[p.data (p.nread % p.size)], ?_⟩
        simp only [hok, if_false, Bool.false_eq_true]
        rfl

/-- The loop runs on a pipe that is not empty; otherwise the section reports nothing. -/
theorem readSection_cases (p : Pipe) (env : Env) (n : Int) :
    (p.readSection env n).1 = p ∧ (p.readSection env n).2.2.taken = 0 ∧ p.nread = p.nwrite ∨
    p.readSection env n = p.readLoop env 0 n.toNat ∧ p.nread ≠ p.nwrite := by
  unfold readSection
  split
  · rename_i hempty
    left
    split
    · exact ⟨rfl, rfl, hempty.1⟩
    · split
      · exact ⟨rfl, rfl, hempty.1⟩
      · exact ⟨rfl, rfl, hempty.1⟩
  · rename_i hopen
    split
    · rename_i hclosed
      exact .inl ⟨rfl, rfl, hclosed.1⟩
    · rename_i hclosed
      right
      refine ⟨rfl, fun hempty => ?_⟩
      cases hw : p.writeopen with
      | false => exact hclosed ⟨hempty, hw⟩
      | true => exact hopen ⟨hempty, hw⟩

theorem readStart_cases (p : Pipe) (env : Env) (n : Int) :
    (p.readStart env n).1 = p ∧ (p.readStart env n).2.2.taken = 0 ∧ p.nread = p.nwrite ∨
    p.readStart env n = p.readLoop env 0 n.toNat ∧ p.nread ≠ p.nwrite := by
  unfold readStart
  split
  · rename_i hempty
    exact .inl ⟨rfl, rfl, hempty.1⟩
  · exact readSection_cases p env n

/-- A section consumes what it reports exactly if the copies succeed. -/
theorem consumes_iff {result : Pipe × List UInt8 × Outcome} (h : p.Counters)
    (hcases : result.1 = p ∧ result.2.2.taken = 0 ∧ p.nread = p.nwrite ∨
      result = p.readLoop env 0 n.toNat ∧ p.nread ≠ p.nwrite) :
    Consumes p.unread result.1.unread result.2.2 ↔ env.Serves n p.unread := by
  obtain ⟨hsame, htaken, hempty⟩ | ⟨rfl, -⟩ := hcases
  · rw [hsame]
    have hnil := h.unread_nil_iff.mp hempty
    exact iff_of_true (Consumes.none htaken) fun j _ hj => by omega
  · obtain ⟨bs, hloop⟩ := @readLoop_eq p env 0 n.toNat
    rw [hloop]
    exact consumes_takeLoop_iff h.bounded

theorem readStart_counters (h : p.Counters) : (p.readStart env n).1.Counters := by
  obtain ⟨hsame, -, -⟩ | ⟨heq, -⟩ := readStart_cases p env n
  · rw [hsame]
    exact h
  · obtain ⟨bs, hloop⟩ := @readLoop_eq p env 0 n.toNat
    rw [heq, hloop]
    have hbounded : RingBuf.Bounded (2 ^ 32) (2 ^ 32) (p.ring.takeLoop (2 ^ 32) env.copyout 0 n.toNat).1 :=
      h.bounded.takeLoop
    exact ⟨hbounded.rd_lt, hbounded.wr_lt⟩

/-- A read of everything with a good buffer gets everything. -/
theorem readStart_all (h : p.Counters) (hgood : env.Good) (hn : p.unread.length ≤ n) :
    (p.readStart env n).2.2.taken = p.unread.length := by
  obtain ⟨-, htaken, hempty⟩ | ⟨heq, -⟩ := readStart_cases p env n
  · rw [htaken, h.unread_nil_iff.mp hempty]
  · obtain ⟨bs, hloop⟩ := @readLoop_eq p env 0 n.toNat
    obtain ⟨htaken, -⟩ := RingBuf.takeLoop_all h.bounded (N := p.size) (i := 0) (m := n.toNat)
      fun j _ _ => hgood (0 + j)
    rw [unread_eq_contents, RingBuf.length_contents] at hn ⊢
    rw [heq, hloop, Outcome.taken_ret, Int.toNat_natCast, htaken]
    omega

theorem readsExactly_iff (h : p.Counters) : p.ReadsExactly env n ↔ env.Serves n p.unread := by
  constructor
  · intro hexact
    exact (consumes_iff h (readStart_cases p env n)).mp hexact.start
  · intro hserves
    have hstart := (consumes_iff h (readStart_cases p env n)).mpr hserves
    refine ⟨hstart, (consumes_iff h (readSection_cases p env n)).mpr hserves, fun env' n' hgood hn => ?_⟩
    have hrest := congrArg List.length hstart.2
    rw [List.length_drop] at hrest
    have htaken := hstart.1
    rw [readStart_all (readStart_counters h) hgood (by omega)]
    omega

end Pipe

/-! ## FIFOs -/

namespace Fifo

def ring (fi : Fifo) : RingBuf UInt8 := ⟨fi.data, fi.nread, fi.nwrite⟩

def withRing (fi : Fifo) (r : RingBuf UInt8) : Fifo :=
  { fi with data := r.data, nread := r.rd, nwrite := r.wr }

/-- The bytes in the FIFO, read off the ring. -/
def unread (fi : Fifo) : List UInt8 := fi.ring.contents (2 ^ 32) FIFO_SIZE

/-- The counters are `uint`. -/
def Counters (fi : Fifo) : Prop := fi.nread < 2 ^ 32 ∧ fi.nwrite < 2 ^ 32

/-- The same for `fiforead`. -/
structure ReadsExactly (fi : Fifo) (env : Env) (n : Int) : Prop where
  start : Consumes fi.unread (fi.readStart env n).1.unread (fi.readStart env n).2
  resume : Consumes fi.unread (fi.readSection env n).1.unread (fi.readSection env n).2
  retry : ∀ (env' : Env) (n' : Int), env'.Good → fi.unread.length ≤ n' →
    (fi.readStart env n).2.taken + ((fi.readStart env n).1.readStart env' n').2.taken = fi.unread.length

variable {fi : Fifo} {env : Env} {n : Int} {i m : Nat}

theorem Counters.bounded (h : fi.Counters) : RingBuf.Bounded (2 ^ 32) (2 ^ 32) fi.ring := .any h.1 h.2

theorem Counters.unread_nil_iff (h : fi.Counters) : fi.nread = fi.nwrite ↔ fi.unread.length = 0 := by
  rw [unread, RingBuf.length_contents]
  exact h.bounded.empty_iff

/-- The loop of `fiforead`. -/
theorem readLoop_eq :
    fi.readLoop env i m = (fi.withRing (fi.ring.takeLoop (2 ^ 32) env.copyout i m).1,
      .ret ((fi.ring.takeLoop (2 ^ 32) env.copyout i m).2 : Nat)) := by
  induction m generalizing fi i with
  | zero => rfl
  | succ m ih =>
    unfold readLoop RingBuf.takeLoop
    by_cases hempty : fi.nread = fi.nwrite
    · rw [if_pos hempty, if_pos (show fi.ring.rd = fi.ring.wr from hempty)]
      rfl
    · rw [if_neg hempty, if_neg (show ¬fi.ring.rd = fi.ring.wr from hempty)]
      by_cases hok : env.copyout i = true
      · simp only [hok, if_true, ih]
        rfl
      · simp only [hok, if_false, Bool.false_eq_true]
        rfl

/-- Other than a pipe, an empty FIFO without a writer goes through the loop, which takes nothing. -/
theorem readSection_cases (fi : Fifo) (env : Env) (n : Int) :
    (fi.readSection env n).1 = fi ∧ (fi.readSection env n).2.taken = 0 ∧ fi.nread = fi.nwrite ∨
    fi.readSection env n = fi.readLoop env 0 n.toNat := by
  unfold readSection
  split
  · rename_i hempty
    left
    split
    · exact ⟨rfl, rfl, hempty.1⟩
    · split
      · exact ⟨rfl, rfl, hempty.1⟩
      · exact ⟨rfl, rfl, hempty.1⟩
  · exact .inr rfl

theorem readStart_cases (fi : Fifo) (env : Env) (n : Int) :
    (fi.readStart env n).1 = fi ∧ (fi.readStart env n).2.taken = 0 ∧ fi.nread = fi.nwrite ∨
    fi.readStart env n = fi.readLoop env 0 n.toNat := by
  unfold readStart
  split
  · rename_i hempty
    exact .inl ⟨rfl, rfl, hempty.2.1⟩
  · exact readSection_cases fi env n

theorem consumes_iff {result : Fifo × Outcome} (h : fi.Counters)
    (hcases : result.1 = fi ∧ result.2.taken = 0 ∧ fi.nread = fi.nwrite ∨
      result = fi.readLoop env 0 n.toNat) :
    Consumes fi.unread result.1.unread result.2 ↔ env.Serves n fi.unread := by
  obtain ⟨hsame, htaken, hempty⟩ | rfl := hcases
  · rw [hsame]
    have hnil := h.unread_nil_iff.mp hempty
    exact iff_of_true (Consumes.none htaken) fun j _ hj => by omega
  · rw [readLoop_eq]
    exact consumes_takeLoop_iff h.bounded

theorem readStart_counters (h : fi.Counters) : (fi.readStart env n).1.Counters := by
  obtain ⟨hsame, -, -⟩ | heq := readStart_cases fi env n
  · rw [hsame]
    exact h
  · rw [heq, readLoop_eq]
    have hbounded : RingBuf.Bounded (2 ^ 32) (2 ^ 32) (fi.ring.takeLoop (2 ^ 32) env.copyout 0 n.toNat).1 :=
      h.bounded.takeLoop
    exact ⟨hbounded.rd_lt, hbounded.wr_lt⟩

theorem readStart_all (h : fi.Counters) (hgood : env.Good) (hn : fi.unread.length ≤ n) :
    (fi.readStart env n).2.taken = fi.unread.length := by
  obtain ⟨-, htaken, hempty⟩ | heq := readStart_cases fi env n
  · rw [htaken, h.unread_nil_iff.mp hempty]
  · obtain ⟨htaken, -⟩ := RingBuf.takeLoop_all h.bounded (N := FIFO_SIZE) (i := 0) (m := n.toNat)
      fun j _ _ => hgood (0 + j)
    rw [unread, RingBuf.length_contents] at hn ⊢
    rw [heq, readLoop_eq, Outcome.taken_ret, Int.toNat_natCast, htaken]
    omega

theorem readsExactly_iff (h : fi.Counters) : fi.ReadsExactly env n ↔ env.Serves n fi.unread := by
  constructor
  · intro hexact
    exact (consumes_iff h (readStart_cases fi env n)).mp hexact.start
  · intro hserves
    have hstart := (consumes_iff h (readStart_cases fi env n)).mpr hserves
    refine ⟨hstart, (consumes_iff h (readSection_cases fi env n)).mpr hserves, fun env' n' hgood hn => ?_⟩
    have hrest := congrArg List.length hstart.2
    rw [List.length_drop] at hrest
    have htaken := hstart.1
    rw [readStart_all (readStart_counters h) hgood (by omega)]
    omega

end Fifo

/-! ## Both -/

section Both

variable {p : Pipe} {fi : Fifo} {env : Env} {n : Int}

/-- `piperead` and `fiforead` consume what they return exactly if no copy that they try fails. -/
theorem reads_exactly_iff (hp : p.Counters) (hfi : fi.Counters) :
    p.ReadsExactly env n ∧ fi.ReadsExactly env n ↔ env.Serves n p.unread ∧ env.Serves n fi.unread :=
  and_congr (Pipe.readsExactly_iff hp) (Fifo.readsExactly_iff hfi)

end Both

/-- A pipe with the byte 7, and a FIFO with it. -/
def Pipe.seven : Pipe := { pipealloc (fun _ => 7) with nwrite := 1 }

def Fifo.seven : Fifo := { Fifo.init (fun _ => 7) with nwrite := 1, readopen := 1, writeopen := 1 }

/-- The buffer of a user of which `i` bytes can be written. -/
def Env.writable (i : Nat) : Env := ⟨fun _ => none, fun j => j < i, fun _ => false, true⟩

theorem reads_exactly_iff_seven :
    Pipe.seven.ReadsExactly (.writable 1) 1 ∧ Fifo.seven.ReadsExactly (.writable 1) 1 ↔
      (Env.writable 1).Serves 1 Pipe.seven.unread ∧ (Env.writable 1).Serves 1 Fifo.seven.unread :=
  reads_exactly_iff ⟨by decide, by decide⟩ ⟨by decide, by decide⟩

/-- A bad buffer loses the byte: both reads return 0, and nothing is left to read. -/
theorem not_reads_exactly_seven :
    ¬(Pipe.seven.ReadsExactly (.writable 0) 1 ∧ Fifo.seven.ReadsExactly (.writable 0) 1) := by
  intro h
  exact absurd h.1.start (by decide)

end SC7
