-- SUMMARY: Resizing a pipe (`fcntl(F_SETPIPE_SZ)`): which bytes survive, and that the pipe stays first-in first-out afterwards.
import SC7.Fs.Pipe
import SC7.Mem.Pmem

/-!
# Resizing a pipe

`pipeset_size` copies the unread bytes to a new page and restarts the counters. If the new size is
smaller than the backlog it keeps the last bytes only. The ring works for a size that divides `2 ^ 32`,
because the counters wrap there, and that is at most one page, because `kalloc` gives one page.
`fcntl` passes on the low 32 bits of its argument, or the page size for 0: any size can come.
-/

namespace SC7

namespace Pipe

/-- The copy loop of `pipeset_size`: the new buffer after `n` bytes. -/
def copyCells (p : Pipe) (nread : Nat) (newData : Nat → UInt8) : Nat → Nat → UInt8
  | 0 => newData
  | n + 1 =>
    Function.update (copyCells p nread newData n) n (p.data (add32 nread n % p.size))

/-- `pipeset_size(pi, size)`; `kalloc` is the new page with what it holds. -/
def setSize (p : Pipe) (kalloc : Option (Nat → UInt8)) (size : Nat) : Int × Pipe :=
  if size = 0 then (-1, p)
  else if p.size = size then (0, p)
  else
    match kalloc with
    | none => (-1, p)
    | some page =>
      let newData := fun i => if i < size then 0 else page i
      let (dataSize, nread) :=
        if p.nwrite > p.nread then
          if p.nwrite - p.nread > size then (size, p.nwrite - size)
          else (p.nwrite - p.nread, p.nread)
        else (0, p.nread)
      (0, { p with data := p.copyCells nread newData dataSize, size, nread := 0, nwrite := dataSize })

/-- A size that the ring can work with. -/
def GoodSize (size : Nat) : Prop := size ∣ 2 ^ 32 ∧ size ≤ PGSIZE

variable {p p' : Pipe} {xs : List UInt8} {N size : Nat} {kalloc : Option (Nat → UInt8)} {r : Int}

theorem copyCells_eq (p : Pipe) (nread : Nat) (newData : Nat → UInt8) (n j : Nat) :
    p.copyCells nread newData n j =
      if j < n then p.data (add32 nread j % p.size) else newData j := by
  induction n with
  | zero => rw [copyCells, if_neg (Nat.not_lt_zero j)]
  | succ n ih =>
    rw [copyCells]
    by_cases hj : j = n
    · rw [hj, Function.update_self, if_pos (Nat.lt_succ_self n)]
    · rw [Function.update_of_ne hj, ih]
      exact if_congr (by omega) rfl rfl

/-- The counters give the number of unread bytes, if they have not wrapped past each other. -/
theorem Rings.length_eq (h : p.Rings N xs) (hle : p.nread ≤ p.nwrite) : xs.length = p.nwrite - p.nread := by
  have hcount := h.ring.count_eq h.lt
  have hwr : p.nwrite < 2 ^ 32 := by
    have := h.ring.wr_eq
    simp only at this
    rw [this]
    exact Nat.mod_lt _ (by decide)
  rw [← hcount, RingBuf.count]
  simp only
  omega

/-- A failed call changes nothing. -/
theorem setSize_failed (hcall : p.setSize kalloc size = (r, p')) (hr : r ≠ 0) : p' = p := by
  unfold setSize at hcall
  split at hcall
  · cases hcall
    rfl
  · split at hcall
    · cases hcall
      rfl
    · split at hcall
      · cases hcall
        rfl
      · cases hcall
        exact absurd rfl hr

/-- The bytes from the `k`th on, copied to the start of a new ring. -/
theorem Rings.copied (h : p.Rings N xs) {k : Nat} (hfit : xs.length - k ≤ size) (hdvd : size ∣ 2 ^ 32)
    (hlt : size < 2 ^ 32) (newData : Nat → UInt8) :
    Rings { p with data := p.copyCells (p.nread + k) newData (xs.length - k), size, nread := 0,
                   nwrite := xs.length - k } size (xs.drop k) where
  size_eq := rfl
  dvd := hdvd
  lt := hlt
  ring :=
    { rd_lt := Nat.two_pow_pos 32
      wr_eq := by
        have hsmall : xs.length - k < 2 ^ 32 := by omega
        simp only [List.length_drop, Nat.zero_add]
        exact (Nat.mod_eq_of_lt hsmall).symm
      length_le := by
        rw [List.length_drop]
        exact hfit
      data := by
        intro j hj
        have hj' : j < xs.length - k := by rwa [List.length_drop] at hj
        have hcell : (0 + j) % 2 ^ 32 % size = j := by
          rw [Nat.zero_add, Nat.mod_eq_of_lt (by omega), Nat.mod_eq_of_lt (by omega)]
        have hold : p.data ((p.nread + (k + j)) % 2 ^ 32 % N) = xs.get ⟨k + j, by omega⟩ :=
          h.ring.data (k + j) (by omega)
        simp only [hcell]
        rw [copyCells_eq, if_pos hj', h.size_eq, add32, Nat.add_assoc, hold]
        simp }

/-- The new ring holds the last bytes of the old one, as many as fit. -/
theorem Rings.setSize (h : p.Rings N xs) (hle : p.nread ≤ p.nwrite) (hdvd : size ∣ 2 ^ 32)
    (hlt : size < 2 ^ 32) (hcall : p.setSize kalloc size = (0, p')) :
    p'.Rings size (xs.drop (xs.length - size)) := by
  have hlen := h.length_eq hle
  unfold Pipe.setSize at hcall
  split at hcall
  · cases hcall
  · split at hcall
    · rename_i hsame
      cases hcall
      have hfit := h.ring.length_le
      obtain rfl : N = size := h.size_eq.symm.trans hsame
      rw [show xs.length - N = 0 by omega, List.drop_zero]
      exact h
    · split at hcall
      · cases hcall
      · have hcopied := h.copied (k := xs.length - size) (by omega) hdvd hlt
        rename_i page
        by_cases hgt : p.nwrite > p.nread
        · by_cases hbig : p.nwrite - p.nread > size
          · -- the oldest bytes are left out
            simp only [if_pos hgt, if_pos hbig, Prod.mk.injEq, true_and] at hcall
            subst hcall
            have hnew := hcopied fun i => if i < size then 0 else page i
            rw [show p.nread + (xs.length - size) = p.nwrite - size by omega,
              show xs.length - (xs.length - size) = size by omega] at hnew
            exact hnew
          · simp only [if_pos hgt, if_neg hbig, Prod.mk.injEq, true_and] at hcall
            subst hcall
            have hnew := hcopied fun i => if i < size then 0 else page i
            rw [show xs.length - size = 0 by omega, Nat.add_zero, Nat.sub_zero, hlen] at hnew
            rw [show xs.length - size = 0 by omega]
            exact hnew
        · simp only [if_neg hgt, Prod.mk.injEq, true_and] at hcall
          subst hcall
          have hnew := hcopied fun i => if i < size then 0 else page i
          have hnil : xs.length = 0 := by omega
          rw [hnil, Nat.zero_sub, Nat.add_zero, Nat.sub_zero] at hnew
          rw [hnil, Nat.zero_sub]
          exact hnew

end Pipe

/-! ## Runs with resizing -/

namespace PipeSys

/-- A lock section of the pipe, or a call of `F_SETPIPE_SZ`. The bytes that a resized pipe leaves out
are taken out of the record of what it accepted. -/
inductive ResizeStep (allowed : Pipe → Nat → Prop) : PipeSys → PipeSys → Prop where
  | lockSection {σ σ' : PipeSys} {e : PipeEvent} : Step σ e σ' → ResizeStep allowed σ σ'
  | resize {σ : PipeSys} {kalloc : Option (Nat → UInt8)} {size : Nat} {p : Pipe} :
      allowed σ.pipe size → σ.pipe.setSize kalloc size = (0, p) →
      ResizeStep allowed σ { σ with
        pipe := p
        produced := σ.consumed ++ σ.pipe.unread.drop (σ.pipe.unread.length - size) }
  | resizeFailed {σ : PipeSys} {kalloc : Option (Nat → UInt8)} {size : Nat} {r : Int} {p : Pipe} :
      σ.pipe.setSize kalloc size = (r, p) → r ≠ 0 → ResizeStep allowed σ { σ with pipe := p }

/-- The sizes for which the ring keeps working, while the counters have not wrapped past each
other. -/
def Resizable (p : Pipe) (size : Nat) : Prop := Pipe.GoodSize size ∧ p.nread ≤ p.nwrite

variable {σ σ' : PipeSys} {N : Nat}

theorem RingInv.resizeStep (h : σ.RingInv N) (hN : N ≤ PGSIZE) (hstep : ResizeStep Resizable σ σ') :
    ∃ N', σ'.RingInv N' ∧ N' ≤ PGSIZE := by
  cases hstep with
  | lockSection hsec => exact ⟨N, h.step hsec, hN⟩
  | @resize kalloc size p hok hcall =>
    obtain ⟨xs, hxs, -⟩ := h
    obtain ⟨⟨hdvd, hle⟩, hcount⟩ := hok
    refine ⟨size, ⟨_, hxs.setSize hcount hdvd (by simp only [PGSIZE] at hle; omega) hcall, ?_⟩, hle⟩
    rw [hxs.unread_eq]
  | resizeFailed hcall hr =>
    obtain rfl := Pipe.setSize_failed hcall hr
    exact ⟨N, h, hN⟩

end PipeSys

/-- Resizing keeps the last bytes. In every run of a pipe in which every successful resize asks for a
size that divides `2 ^ 32` and fits into a page, while the counters have not wrapped past each other,
the pipe is first-in first-out over the bytes it kept and never leaves its page; a resize that
succeeds keeps the last bytes in order, all of them if they fit, and one that fails changes
nothing. -/
theorem pipe_resize {data : Nat → UInt8} {σ : PipeSys}
    (hreach : Reaches (PipeSys.ResizeStep PipeSys.Resizable) (PipeSys.init data) σ) :
    σ.consumed <+: σ.produced ∧
    σ.produced = σ.consumed ++ σ.pipe.unread ∧
    (∀ n σ', PipeSys.Step σ (.read n (.ret 0)) σ' → 1 ≤ n →
      σ.consumed = σ.produced ∧ σ.pipe.writeopen = false) ∧
    (∀ count, count % σ.pipe.size < PGSIZE) ∧
    ∀ kalloc size r p, σ.pipe.setSize kalloc size = (r, p) →
      (r ≠ 0 → p = σ.pipe) ∧
      (r = 0 → PipeSys.Resizable σ.pipe size →
        p.unread = σ.pipe.unread.drop (σ.pipe.unread.length - size) ∧
        (σ.pipe.unread.length ≤ size → p.unread = σ.pipe.unread)) := by
  obtain ⟨N, hinv, hN⟩ : ∃ N, σ.RingInv N ∧ N ≤ PGSIZE := by
    refine hreach.invariant (I := fun t => ∃ N, t.RingInv N ∧ N ≤ PGSIZE)
      ⟨PIPESIZE, PipeSys.inv_iff.mp (PipeSys.init_inv data), by decide⟩ ?_
    rintro t t' ⟨N, ht, hN⟩ hstep
    exact ht.resizeStep hN hstep
  obtain ⟨xs, hxs, hprod⟩ := id hinv
  have hunread := hxs.unread_eq
  refine ⟨?_, ?_, fun n σ' hstep hn => hinv.eof hstep hn, ?_, ?_⟩
  · rw [hprod]
    exact List.prefix_append _ _
  · rw [hunread, hprod]
  · intro count
    rw [hxs.size_eq]
    have hpos : 0 < N := Nat.pos_of_dvd_of_pos hxs.dvd (Nat.two_pow_pos 32)
    exact (Nat.mod_lt count hpos).trans_le hN
  · intro kalloc size r p hcall
    refine ⟨Pipe.setSize_failed hcall, ?_⟩
    rintro rfl ⟨⟨hdvd, hle⟩, hcount⟩
    have hlt : size < 2 ^ 32 := by
      simp only [PGSIZE] at hle
      omega
    have hnew := (hxs.setSize hcount hdvd hlt hcall).unread_eq
    rw [hunread]
    refine ⟨hnew, fun hfit => ?_⟩
    rw [hnew, show xs.length - size = 0 by omega, List.drop_zero]

/-- One unread byte survives a larger buffer. -/
theorem pipe_resize_oneByte :
    ∃ p, PipeSys.oneByte.pipe.setSize (some fun _ => 0) 1024 = (0, p) ∧
      p.unread = PipeSys.oneByte.pipe.unread := by
  have hrun : (PipeSys.init fun _ => 0).pipe.writeSection Env.letters 1 0 =
      (((pipealloc fun _ => 0).writeSection Env.letters 1 0).1, [65], .ret 1) := rfl
  have hreach : Reaches (PipeSys.ResizeStep PipeSys.Resizable) (PipeSys.init fun _ => 0) PipeSys.oneByte :=
    .single (.lockSection (.writeStart rfl Env.letters_accepts hrun))
  obtain ⟨-, -, -, -, hset⟩ := pipe_resize hreach
  have hgood : PipeSys.Resizable PipeSys.oneByte.pipe 1024 := ⟨⟨by decide, by decide⟩, by decide⟩
  exact ⟨_, rfl, ((hset (some fun _ => 0) 1024 0 _ rfl).2 rfl hgood).2 (by decide)⟩

/-- A new pipe after two bytes were written. -/
def PipeSys.twoBytes : PipeSys :=
  (PipeSys.init fun _ => 0).after 0 (.write 2) ((pipealloc fun _ => 0).writeSection Env.letters 2 0).1
    [65, 65] [] (.ret 2)

/-- A buffer of one byte keeps only the last of two. -/
theorem pipe_resize_drops_oldest :
    PipeSys.twoBytes.Reachable (fun _ => 0) ∧
    ∃ p, PipeSys.twoBytes.pipe.setSize (some fun _ => 0) 1 = (0, p) ∧
      PipeSys.twoBytes.pipe.unread = [65, 65] ∧ p.unread = [65] := by
  have hrun : (PipeSys.init fun _ => 0).pipe.writeSection Env.letters 2 0 =
      (((pipealloc fun _ => 0).writeSection Env.letters 2 0).1, [65, 65], .ret 2) := rfl
  exact ⟨.single ⟨_, .writeStart rfl Env.letters_accepts hrun⟩, _, rfl, by decide, by decide⟩

end SC7
