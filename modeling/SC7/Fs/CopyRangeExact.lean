-- SUMMARY: When `sys_copy_file_range` is exact: the condition on the positions, and turn by turn on what is read, filled and written.
import SC7.Fs.CopyRange
import SC7.Fs.PositionalExact

/-!
# Exact copies

A call that returns `n` is exact if the `n` bytes at the offset of the destination are those at the offset of the
source, nothing else has changed, and pointers and positions are where they belong.

The loop is compared with the bytes that the destination should hold. A byte that is wrong behind a turn may
still become right, if a later turn lays another one over it.
-/

namespace SC7.CopyRange

open Function (update update_of_ne update_self)
open Position (File Ext4File Chunk Transfer Coherent toInt PGSIZE SEEK_SET SEEK_CUR)
open Positional (moveTo)

/-- Both positions are `n` further. -/
def Advanced (n : UInt64) (f f' : File) : Prop := f'.fPos = f.fPos + n ∧ f'.ext4.fpos = f.ext4.fpos + n

/-- How far a copy of `n` bytes moves the position of a file: not at all if the offset is given. -/
def advance (p : Option Pointer) (n : UInt64) : UInt64 := if p.isSome then 0 else n

/-- The bytes at `[off_in, off_in + n)` exist and are copied to `[off_out, off_out + n)`, all other bytes of the
destination are unchanged, pointers that are given are `n` further, and so are the positions otherwise. -/
structure Exact (c : Call) (i o : Open) (s : State) (n : UInt64) (r : Result) : Prop where
  exist : ∀ k, k < n → (startOffset c.offIn i s + k).toNat < (s.content i.ino).size
  bytes : (r.state.content o.ino).byte = overlay (s.content o.ino).byte (startOffset c.offOut o s) n
    fun k => (s.content i.ino).byte (startOffset c.offIn i s + k)
  offIn : r.offIn = c.offIn.map fun p => p.value + n
  offOut : r.offOut = c.offOut.map fun p => p.value + n
  posIn : Advanced (advance c.offIn n) (s.file i.id) (r.state.file i.id)
  posOut : Advanced (advance c.offOut n) (s.file o.id) (r.state.file o.id)

/-! ## What a turn does -/

namespace Turn

variable (t : Turn) (p : Progress)

/-- The number of bytes that a turn reads. -/
def count : UInt64 := if (t.read.transfer p.chunk).status = 0 then (t.read.transfer p.chunk).moved else 0

/-- The number of bytes that it writes. -/
def written : UInt64 := (t.write.transfer (t.count p)).moved

/-- The bytes that it has read. -/
def buf (i : Open) (k : UInt64) : UInt8 := p.state.deliver i t.beyond (p.intOffset + k)

/-- Where it fills with zeros, and how far. -/
def filled (o : Open) : UInt64 × UInt64 :=
  match t.stat.fstat (p.state.content o.ino).size with
  | some st => if p.writeOffset > st.2 then (st.2, p.writeOffset - st.2) else (p.writeOffset, 0)
  | none => (p.writeOffset, 0)

/-- The byte that it lays at a position, if it does. -/
def laid (i o : Open) (q : UInt64) : Option UInt8 :=
  if q - p.writeOffset < t.written p then some (t.buf p i (q - p.writeOffset))
  else if q - (t.filled p o).1 < (t.filled p o).2 then some 0
  else none

/-- The bytes of the destination behind it. -/
def after (i o : Open) : UInt64 → UInt8 :=
  overlay (overlay (p.state.content o.ino).byte (t.filled p o).1 (t.filled p o).2 fun _ => 0) p.writeOffset (t.written p)
    (t.buf p i)

end Turn

section Fits

variable (i o : Open) (implicit : Bool) (src : Content)

/-- A later turn lays a byte at `q`. -/
def Later : List Turn → Progress → UInt64 → Prop
  | [], _, _ => False
  | t :: ts, p, q =>
    p.remaining ≠ 0 ∧ t.count p ≠ 0 ∧
      ((t.laid p i o q).isSome ∨ ∃ p', copyChunk i o implicit t p = some (.next p') ∧ Later ts p' q)

/-- What the destination should hold behind a turn, if that is `want` in front of it. -/
def wantAfter (t : Turn) (p : Progress) (want : UInt64 → UInt8) : UInt64 → UInt8 :=
  overlay want p.writeOffset (t.count p) fun k => src.byte (p.readOffset + k)

/-- Each turn that reads something writes all of it, reads from inside of the source, and lays only bytes that the
destination should hold there, but for those over which a later turn lays another one. -/
def LoopFits : List Turn → Progress → (UInt64 → UInt8) → Prop
  | [], _, _ => True
  | t :: ts, p, want =>
    p.remaining = 0 ∨ t.count p = 0 ∨
      t.written p = t.count p ∧ (∀ k, k < t.count p → (p.readOffset + k).toNat < src.size) ∧
        (∀ q b, t.laid p i o q = some b → b = wantAfter src t p want q ∨
          ∃ p', copyChunk i o implicit t p = some (.next p') ∧ Later i o implicit ts p' q) ∧
        ∀ p', copyChunk i o implicit t p = some (.next p') → LoopFits ts p' (wantAfter src t p want)

/-- The first turn reads something. -/
def Reads : List Turn → Progress → Prop
  | [], _ => False
  | t :: _, p => p.remaining ≠ 0 ∧ t.count p ≠ 0

/-- The state of a loop that reads nothing. -/
def looked : List Turn → Progress → State
  | [], p => if p.remaining = 0 then p.state else (p.read i .nothing).2
  | t :: _, p => if p.remaining = 0 then p.state else (p.read i t.read).2

end Fits

/-- The file at the position that has been saved as an `int`. -/
def savedPos (f : File) : File := moveTo f (UInt64.ofInt (toInt f.ext4.fpos))

/-- The variables with which the call comes to its loop. -/
def Call.begin (c : Call) (i o : Open) (stSize : UInt64) (s : State) : Progress :=
  c.start i o stSize (saved c.offOut o (saved c.offIn i s).2).2

/-- The position of the source. If an offset is given, its two halves are the same and fit an `int`. Otherwise
they are the same, and the position is not the one that is restored for the destination; or nothing is read,
and it is restored or has not changed. -/
def InFits (c : Call) (i o : Open) (s : State) (turns : List Turn) (p : Progress) : Prop :=
  if c.offIn.isSome then Advanced 0 (s.file i.id) (savedPos (s.file i.id))
  else (Reads turns p → Coherent (s.file i.id) ∧ ¬(i.id = o.id ∧ c.offOut.isSome)) ∧
    (¬Reads turns p → (i.id = o.id ∧ c.offOut.isSome) ∨
      Advanced 0 (s.file i.id) ((looked i turns p).file i.id))

/-- The position of the destination. -/
def OutFits (c : Call) (i o : Open) (s : State) (turns : List Turn) (p : Progress) : Prop :=
  if c.offOut.isSome then Advanced 0 (s.file o.id) (savedPos (s.file o.id))
  else Reads turns p → Coherent (s.file o.id) ∧ ¬(i.id = o.id ∧ c.offIn.isSome)

/-- The positions fit, and each turn of the loop. -/
def Fits (c : Call) (env : Env) (i o : Open) (s : State) : Prop :=
  ∀ st, env.stat.fstat (s.content i.ino).size = some st →
    InFits c i o s env.turns (c.begin i o st.2 s) ∧ OutFits c i o s env.turns (c.begin i o st.2 s) ∧
      LoopFits i o c.offOut.isNone (s.content i.ino) env.turns (c.begin i o st.2 s) (s.content o.ino).byte

variable {c : Call} {env : Env} {i o : Open} {s : State} {p p' : Progress} {t : Turn} {ts : List Turn} {r : Int × Progress}
  {a : Answer} {n R W : UInt64} {implicit : Bool} {src : Content} {want : UInt64 → UInt8}

/-! ## Reads, writes and seeks -/

section Calls

theorem readat_kernel (f : File) (n offset : UInt64) (c : Chunk) :
    f.vfsExt4Readat n offset (.kernel c) =
      if (c.transfer n).status = 0 then (toInt (c.transfer n).moved, moveTo f f.fPos)
      else (0, { f with ext4 := { f.ext4 with fpos := offset + (c.transfer n).moved } }) := by
  unfold File.vfsExt4Readat File.readInto
  have hseek : ∀ (e : Ext4File) (x : UInt64), e.fseek x SEEK_SET = (0, { e with fpos := x }) := fun _ _ => rfl
  by_cases hstatus : (c.transfer n).status = 0
  · rw [if_pos hstatus, hseek]
    simp [hstatus, hseek, moveTo]
  · rw [if_neg hstatus, hseek]
    simp [hstatus]

theorem write_kernel (f : File) (n : UInt64) (c : Chunk) :
    f.vfsExt4Write n (.kernel c) =
      if (c.transfer n).status = 0 then
        (toInt (c.transfer n).moved, ⟨f.ext4.fpos + (c.transfer n).moved, f.ext4.fpos + (c.transfer n).moved, (c.transfer n).fsize⟩)
      else (-(c.transfer n).status, { f with ext4 := ⟨f.ext4.fpos + (c.transfer n).moved, (c.transfer n).fsize⟩ }) := by
  unfold File.vfsExt4Write
  by_cases hstatus : (c.transfer n).status = 0
  · simp [hstatus]
  · simp [hstatus]
theorem chunk_le : p.chunk ≤ p.remaining ∧ p.chunk.toNat ≤ 4096 := by
  unfold Progress.chunk
  exact ⟨Std.min_le_left, UInt64.le_iff_toNat_le.mp Std.min_le_right⟩

theorem toInt_of_le (hn : n.toNat ≤ 4096) : toInt n = n.toNat := by
  rw [Positional.toInt_eq_iff]
  omega

theorem ofInt_toNat (n : UInt64) : UInt64.ofInt n.toNat = n := by
  rw [Positional.ofInt_natCast, UInt64.ofNat_toNat]

theorem count_le : t.count p ≤ p.chunk := by
  unfold Turn.count
  split
  · exact t.read.bounded _
  · exact UInt64.le_iff_toNat_le.mpr (Nat.zero_le _)

theorem count_toNat_le : (t.count p).toNat ≤ 4096 :=
  Nat.le_trans (UInt64.le_iff_toNat_le.mp count_le) chunk_le.2

theorem written_le : t.written p ≤ t.count p := t.write.bounded _

/-- A read returns what it has read, and 0 if it fails. -/
theorem read_value : (p.read i t.read).1 = (t.count p).toNat := by
  have hle := UInt64.le_iff_toNat_le.mp (t.read.bounded p.chunk)
  have hchunk := (chunk_le (p := p)).2
  unfold Progress.read State.readat Turn.count
  rw [readat_kernel]
  by_cases hstatus : (t.read.transfer p.chunk).status = 0
  · rw [if_pos hstatus, if_pos hstatus]
    dsimp only
    rw [toInt_of_le (Nat.le_trans hle hchunk)]
  · rw [if_neg hstatus, if_neg hstatus]
    rfl

@[simp] theorem read_content : (p.read i a).2.content = p.state.content := rfl

@[simp] theorem seek_content (offset : UInt64) (flag : UInt32) : (s.seek o offset flag).2.content = s.content := rfl

@[simp] theorem seek_set_file (offset : UInt64) :
    (s.seek o offset SEEK_SET).2.file = update s.file o.id (moveTo (s.file o.id) offset) := by
  unfold State.seek
  rw [Positional.vfsExt4Lseek_set]

@[simp] theorem setPos_content (q : UInt64) : (s.setPos o q).content = s.content := rfl

/-- A write that does not fail returns what it has written, and the position is behind it. -/
theorem write_spec (hn : n.toNat ≤ 4096) (data : UInt64 → UInt8) (hok : ¬(s.write o n data a).1 < 0) :
    (s.write o n data a).1 = (a.transfer n).moved.toNat ∧
      ((s.write o n data a).2.content o.ino).byte =
        overlay (s.content o.ino).byte (s.file o.id).ext4.fpos (a.transfer n).moved data ∧
      ((s.write o n data a).2.file o.id).ext4.fpos = (s.file o.id).ext4.fpos + (a.transfer n).moved := by
  have hle := UInt64.le_iff_toNat_le.mp (a.bounded n)
  have hpos := a.positive n
  unfold State.write at hok ⊢
  rw [write_kernel] at hok ⊢
  by_cases hstatus : (a.transfer n).status = 0
  · simp only [if_pos hstatus, update_self]
    exact ⟨toInt_of_le (Nat.le_trans hle hn), rfl, trivial⟩
  · rw [if_neg hstatus] at hok
    dsimp only at hok
    omega

end Calls

/-! ## A turn of the loop -/

section Turns

/-- A zero fill that does not fail has replaced the bytes behind the position by zeros. -/
theorem zeroLoop_spec {as : List Answer} {left : UInt64} {z : Int × State} (h : zeroLoop o as left s = some z)
    (hok : ¬z.1 < 0) :
    (z.2.content o.ino).byte = overlay (s.content o.ino).byte (s.file o.id).ext4.fpos left fun _ => 0 := by
  induction as generalizing left s with
  | nil =>
    unfold zeroLoop at h
    split at h
    · rename_i hzero
      rw [← Option.some.inj h, hzero, overlay_zero]
    · nomatch h
  | cons a as ih =>
    unfold zeroLoop at h
    split at h
    · rename_i hzero
      rw [← Option.some.inj h, hzero, overlay_zero]
    · have hpage : (min left PGSIZE).toNat ≤ 4096 := UInt64.le_iff_toNat_le.mp Std.min_le_right
      have hleft : (a.transfer (min left PGSIZE)).moved.toNat ≤ left.toNat :=
        Nat.le_trans (UInt64.le_iff_toNat_le.mp (a.bounded _)) (UInt64.le_iff_toNat_le.mp Std.min_le_left)
      dsimp only at h
      split at h
      · rw [← Option.some.inj h] at hok
        contradiction
      · rename_i hwrite
        obtain ⟨hvalue, hbyte, hfpos⟩ := write_spec hpage (fun _ => 0) hwrite
        rw [ih h, hbyte, hfpos, hvalue, ofInt_toNat]
        have hsum : (a.transfer (min left PGSIZE)).moved + (left - (a.transfer (min left PGSIZE)).moved) = left := by
          grind
        have hfit : (a.transfer (min left PGSIZE)).moved.toNat +
            (left - (a.transfer (min left PGSIZE)).moved).toNat < 2 ^ 64 := by
          rw [UInt64.toNat_sub_of_le _ _ (UInt64.le_iff_toNat_le.mpr hleft)]
          have := left.toNat_lt
          omega
        have hwindows := overlay_overlay (f := (s.content o.ino).byte) (p := (s.file o.id).ext4.fpos) hfit
        rw [hsum] at hwindows
        exact hwindows _

theorem zeroFill_spec {st : Int × UInt64} {orig : UInt64} {z : Int × State}
    (hst : t.stat.fstat (p.state.content o.ino).size = some st) (hcontent : s.content = p.state.content)
    (h : zeroFill o t st.2 p.writeOffset orig s = some z) (hok : ¬z.1 < 0) :
    (z.2.content o.ino).byte =
      overlay (p.state.content o.ino).byte (t.filled p o).1 (t.filled p o).2 fun _ => 0 := by
  unfold Turn.filled
  rw [hst]
  dsimp only
  unfold zeroFill at h
  split at h
  · rename_i hbehind
    rw [if_pos hbehind]
    dsimp only at h
    split at h
    · rw [← Option.some.inj h] at hok
      exact absurd (show (- EIO : Int) < 0 by decide) hok
    · split at h
      · rw [← Option.some.inj h] at hok
        exact absurd (show (-Positional.ENOMEM : Int) < 0 by decide) hok
      · obtain ⟨zero, hzero, hrest⟩ := Option.bind_eq_some_iff.mp h
        by_cases hfail : zero.1 < 0
        · rw [if_pos hfail] at hrest
          rw [← Option.some.inj hrest] at hok
          exact absurd hfail hok
        · rw [if_neg hfail] at hrest
          rw [← Option.some.inj hrest]
          have hbyte := zeroLoop_spec hzero hfail
          rw [seek_set_file, update_self, seek_content, hcontent] at hbyte
          exact hbyte
  · rename_i hinside
    rw [if_neg hinside, ← Option.some.inj h, overlay_zero, hcontent]

/-- How a turn can end: it fails, reads nothing, or reads and writes something. -/
theorem copyChunk_cases {x : Turned} (h : copyChunk i o implicit t p = some x) :
    (∃ e s, x = .failed e s ∧ e < 0) ∨
    (t.count p = 0 ∧ x = .stopped { p with state := (p.read i t.read).2 }) ∨
    (t.count p ≠ 0 ∧ ∃ s, (s.content o.ino).byte = t.after p i o ∧
      (x = .stopped (p.advance s (t.count p) (t.written p)) ∨ x = .next (p.advance s (t.count p) (t.written p)))) := by
  unfold copyChunk at h
  dsimp only at h
  split at h
  · rename_i hfail
    exact .inl ⟨_, _, (Option.some.inj h).symm, hfail⟩
  · split at h
    · rename_i hzero
      rw [read_value] at hzero
      refine .inr (.inl ⟨?_, (Option.some.inj h).symm⟩)
      exact UInt64.toNat_inj.mp (by simpa using hzero)
    · rename_i hcount
      rw [read_value] at hcount
      have hne : t.count p ≠ 0 := by
        intro hz
        rw [hz] at hcount
        exact hcount rfl
      obtain ⟨st, hst, h⟩ := Option.bind_eq_some_iff.mp h
      rw [read_content] at hst
      split at h
      · exact .inl ⟨_, _, (Option.some.inj h).symm, by decide⟩
      · obtain ⟨zero, hzero, h⟩ := Option.bind_eq_some_iff.mp h
        split at h
        · rename_i hfail
          exact .inl ⟨_, _, (Option.some.inj h).symm, hfail⟩
        · rename_i hfilled
          split at h
          · exact .inl ⟨_, _, (Option.some.inj h).symm, by decide⟩
          · split at h
            · rename_i hfail
              exact .inl ⟨_, _, (Option.some.inj h).symm, hfail⟩
            · rename_i hwrite
              rw [read_value, ofInt_toNat] at h hwrite
              have hspec := write_spec count_toNat_le _ hwrite
              have hfill := zeroFill_spec hst read_content hzero hfilled
              rw [seek_set_file, update_self, seek_content, hfill] at hspec
              obtain ⟨hvalue, hbyte, -⟩ := hspec
              rw [hvalue, ofInt_toNat] at h
              generalize hs : (if implicit = true then _ else _) = s' at h
              refine .inr (.inr ⟨hne, s', ?_, ?_⟩)
              · rw [← hs]
                split
                · rw [setPos_content]
                  exact hbyte
                · exact hbyte
              · split at h
                · exact .inl (Option.some.inj h).symm
                · exact .inr (Option.some.inj h).symm

end Turns

/-! ## The loop -/

section Loop

/-- The loop has read `R` and written `W` bytes. -/
structure Moved (p p' : Progress) (R W : UInt64) : Prop where
  read : p'.readOffset = p.readOffset + R
  written : p'.writeOffset = p.writeOffset + W
  copied : p'.copied = p.copied + R
  read_le : R.toNat ≤ p.remaining.toNat
  written_le : W.toNat ≤ R.toNat

theorem Moved.refl : Moved p { p with state := s } 0 0 where
  read := by simp
  written := by simp
  copied := by simp
  read_le := Nat.zero_le _
  written_le := Nat.zero_le _

theorem moved_advance : Moved p (p.advance s (t.count p) (t.written p)) (t.count p) (t.written p) where
  read := rfl
  written := rfl
  copied := rfl
  read_le := Nat.le_trans (UInt64.le_iff_toNat_le.mp count_le) (UInt64.le_iff_toNat_le.mp chunk_le.1)
  written_le := UInt64.le_iff_toNat_le.mp written_le

/-- What is left behind a turn. -/
theorem toNat_remaining : (p.advance s (t.count p) W).remaining.toNat = p.remaining.toNat - (t.count p).toNat := by
  unfold Progress.advance
  apply UInt64.toNat_sub_of_le
  exact UInt64.le_trans count_le chunk_le.1

variable {R₁ W₁ : UInt64}

/-- A turn with the loop behind it. -/
theorem Moved.behind (h : Moved (p.advance s (t.count p) (t.written p)) p' R₁ W₁) :
    Moved p p' (t.count p + R₁) (t.written p + W₁) ∧ (t.count p).toNat + R₁.toNat < 2 ^ 64 ∧
      (t.written p).toNat + W₁.toNat < 2 ^ 64 := by
  have hfirst := moved_advance (p := p) (s := s) (t := t)
  have hread := h.read_le
  rw [toNat_remaining] at hread
  have hle := hfirst.read_le
  have hwritten := hfirst.written_le
  have hbehind := h.written_le
  have := p.remaining.toNat_lt
  refine ⟨⟨?_, ?_, ?_, ?_, ?_⟩, by omega, by omega⟩
  · rw [h.read, hfirst.read, UInt64.add_assoc]
  · rw [h.written, hfirst.written, UInt64.add_assoc]
  · rw [h.copied, hfirst.copied, UInt64.add_assoc]
  · rw [UInt64.toNat_add]
    omega
  · rw [UInt64.toNat_add, UInt64.toNat_add]
    omega

theorem Moved.unique {R' W' : UInt64} (h : Moved p p' R W) (h' : Moved p p' R' W') : R = R' ∧ W = W' := by
  have hread := h.read.symm.trans h'.read
  have hwritten := h.written.symm.trans h'.written
  exact ⟨by grind, by grind⟩

theorem looked_content : (looked i ts p).content = p.state.content := by
  unfold looked
  split
  · split
    · rfl
    · rfl
  · split
    · rfl
    · rfl

/-- The loop has moved something if it reads in its first turn, and otherwise it leaves the state of that turn. -/
theorem copyLoop_moved (h : copyLoop i o implicit ts p = some r) (hok : ¬r.1 < 0) :
    ∃ R W, Moved p r.2 R W ∧ (Reads ts p → R ≠ 0) ∧ (¬Reads ts p → R = 0 ∧ r.2.state = looked i ts p) := by
  induction ts generalizing p with
  | nil =>
    unfold copyLoop at h
    rw [← Option.some.inj h]
    refine ⟨0, 0, ?_, False.elim, fun _ => ⟨rfl, ?_⟩⟩
    · dsimp only
      split
      · exact .refl
      · exact .refl
    · unfold looked
      dsimp only
      split
      · rfl
      · rfl
  | cons t ts ih =>
    unfold copyLoop at h
    by_cases hzero : p.remaining = 0
    · rw [if_pos hzero] at h
      rw [← Option.some.inj h]
      exact ⟨0, 0, .refl, fun hreads => absurd hzero hreads.1, fun _ => ⟨rfl, by rw [looked, if_pos hzero]⟩⟩
    · rw [if_neg hzero] at h
      cases hx : copyChunk i o implicit t p with
      | none =>
        rw [hx] at h
        cases h
      | some x =>
        rw [hx] at h
        obtain ⟨e, s, rfl, he⟩ | ⟨hcount, rfl⟩ | ⟨hcount, s, -, rfl | rfl⟩ := copyChunk_cases hx
        · rw [← Option.some.inj h] at hok
          exact absurd he hok
        · rw [← Option.some.inj h]
          exact ⟨0, 0, .refl, fun hreads => absurd hcount hreads.2, fun _ => ⟨rfl, by rw [looked, if_neg hzero]⟩⟩
        · rw [← Option.some.inj h]
          exact ⟨_, _, moved_advance, fun _ => hcount, fun hreads => absurd ⟨hzero, hcount⟩ hreads⟩
        · obtain ⟨R₁, W₁, hmoved, -⟩ := ih h
          obtain ⟨hall, hfit, -⟩ := hmoved.behind
          refine ⟨_, _, hall, fun _ hsum => hcount ?_, fun hreads => absurd ⟨hzero, hcount⟩ hreads⟩
          rw [← UInt64.toNat_inj, UInt64.toNat_add] at hsum
          rw [← UInt64.toNat_inj]
          simp only [UInt64.toNat_zero] at hsum ⊢
          omega

/-- A turn that writes all that it reads: behind it a byte is right or laid again if the turn lays only such bytes,
and the byte was right in front of it or is laid again, by the turn itself or later. -/
theorem right_after_iff (i o : Open) (src : Content) (want : UInt64 → UInt8) {L : UInt64 → Prop} (hwhole : t.written p = t.count p) :
    (∀ q, t.after p i o q = wantAfter src t p want q ∨ L q) ↔
      (∀ q b, t.laid p i o q = some b → b = wantAfter src t p want q ∨ L q) ∧
        ∀ q, (p.state.content o.ino).byte q = want q ∨ (t.laid p i o q).isSome ∨ L q := by
  have hlaid : ∀ q b, t.laid p i o q = some b → t.after p i o q = b := by
    intro q b hb
    unfold Turn.laid at hb
    unfold Turn.after
    split at hb
    · rename_i hdata
      rw [overlay_of_lt hdata]
      exact Option.some.inj hb
    · rename_i hdata
      rw [overlay_of_not_lt hdata]
      split at hb
      · rename_i hzero
        rw [overlay_of_lt hzero]
        exact Option.some.inj hb
      · nomatch hb
  have hother : ∀ q, t.laid p i o q = none →
      t.after p i o q = (p.state.content o.ino).byte q ∧ wantAfter src t p want q = want q := by
    intro q hq
    unfold Turn.laid at hq
    unfold Turn.after wantAfter
    split at hq
    · nomatch hq
    · rename_i hdata
      split at hq
      · nomatch hq
      · rename_i hzero
        rw [overlay_of_not_lt hdata, overlay_of_not_lt hzero]
        rw [hwhole] at hdata
        exact ⟨rfl, overlay_of_not_lt hdata⟩
  constructor
  · intro hright
    constructor
    · intro q b hb
      rw [← hlaid q b hb]
      exact hright q
    · intro q
      cases hq : t.laid p i o q with
      | none =>
        obtain ⟨hafter, hwant⟩ := hother q hq
        have := hright q
        rw [hafter, hwant] at this
        exact this.imp_right .inr
      | some b => exact .inr (.inl rfl)
  · rintro ⟨hlays, hbefore⟩ q
    cases hq : t.laid p i o q with
    | none =>
      obtain ⟨hafter, hwant⟩ := hother q hq
      rw [hafter, hwant]
      have := hbefore q
      rw [hq] at this
      exact this.imp_right fun h => h.resolve_left nofun
    | some b =>
      rw [hlaid q b hq]
      exact hlays q b hq

/-- What a loop should come to, if the destination should hold `want` in front of it. -/
def LoopExact (o : Open) (src : Content) (want : UInt64 → UInt8) (p p' : Progress) (R W : UInt64) : Prop :=
  W = R ∧ (∀ k, k < R → (p.readOffset + k).toNat < src.size) ∧
    (p'.state.content o.ino).byte = overlay want p.writeOffset R fun k => src.byte (p.readOffset + k)

theorem loopExact_zero : LoopExact o src want p p' 0 0 ↔ ∀ q, (p'.state.content o.ino).byte q = want q := by
  unfold LoopExact
  rw [overlay_zero]
  constructor
  · exact fun h => congrFun h.2.2
  · exact fun h => ⟨rfl, fun k hk => absurd hk UInt64.not_lt_zero, funext h⟩

/-- A turn and the loop behind it. -/
theorem loopExact_behind (h : Moved (p.advance s (t.count p) (t.written p)) p' R₁ W₁) :
    LoopExact o src want p p' (t.count p + R₁) (t.written p + W₁) ↔
      t.written p = t.count p ∧ (∀ k, k < t.count p → (p.readOffset + k).toNat < src.size) ∧
        LoopExact o src (wantAfter src t p want) (p.advance s (t.count p) (t.written p)) p' R₁ W₁ := by
  obtain ⟨-, hread, hwritten⟩ := h.behind
  have hle := UInt64.le_iff_toNat_le.mp (written_le (t := t) (p := p))
  have hle₁ := h.written_le
  have hwhole : t.written p + W₁ = t.count p + R₁ ↔ t.written p = t.count p ∧ W₁ = R₁ := by
    rw [← UInt64.toNat_inj, ← UInt64.toNat_inj, ← UInt64.toNat_inj, UInt64.toNat_add, UInt64.toNat_add]
    omega
  have hexist : (∀ k, k < t.count p + R₁ → (p.readOffset + k).toNat < src.size) ↔
      (∀ k, k < t.count p → (p.readOffset + k).toNat < src.size) ∧
        ∀ k, k < R₁ → (p.readOffset + t.count p + k).toNat < src.size := by
    rw [forall_lt_add_iff hread]
    simp only [UInt64.add_assoc]
  have hbytes : t.written p = t.count p →
      overlay (wantAfter src t p want) (p.writeOffset + t.written p) R₁ (fun k => src.byte (p.readOffset + t.count p + k)) =
        overlay want p.writeOffset (t.count p + R₁) fun k => src.byte (p.readOffset + k) := by
    intro heq
    rw [heq, wantAfter, ← overlay_overlay hread]
    simp only [UInt64.add_assoc]
  unfold LoopExact
  rw [hwhole, hexist]
  constructor
  · rintro ⟨⟨heq, heq₁⟩, ⟨hin, hin₁⟩, hfinal⟩
    exact ⟨heq, hin, heq₁, hin₁, hfinal.trans (hbytes heq).symm⟩
  · rintro ⟨heq, hin, heq₁, hin₁, hfinal⟩
    exact ⟨⟨heq, heq₁⟩, ⟨hin, hin₁⟩, hfinal.trans (hbytes heq)⟩

/-- A loop that does not fail comes to what it should exactly if it fits, and the bytes in front of it are right or
are laid again. The induction is on the turns; what the destination should hold goes along. -/
theorem copyLoop_exact_iff (src : Content) (want : UInt64 → UInt8) (h : copyLoop i o implicit ts p = some r) (hok : ¬r.1 < 0) (hmoved : Moved p r.2 R W) :
    LoopExact o src want p r.2 R W ↔ LoopFits i o implicit src ts p want ∧
      ∀ q, (p.state.content o.ino).byte q = want q ∨ Later i o implicit ts p q := by
  induction ts generalizing p want R W with
  | nil =>
    obtain ⟨R', W', hmoved', -, hidle⟩ := copyLoop_moved h hok
    obtain ⟨rfl, rfl⟩ := hmoved.unique hmoved'
    obtain ⟨rfl, hstate⟩ := hidle nofun
    have hwritten : W = 0 := by
      rw [← UInt64.toNat_inj]
      have := hmoved.written_le
      simpa using this
    rw [hwritten, loopExact_zero, hstate, looked_content, LoopFits, true_and]
    simp only [Later, or_false]
  | cons t ts ih =>
    unfold copyLoop at h
    by_cases hzero : p.remaining = 0
    · rw [if_pos hzero] at h
      rw [← Option.some.inj h] at hmoved ⊢
      obtain ⟨rfl, rfl⟩ := hmoved.unique .refl
      rw [loopExact_zero, LoopFits]
      simp only [Later, hzero, true_or, true_and, ne_eq, not_true_eq_false, false_and, or_false]
    · rw [if_neg hzero] at h
      cases hx : copyChunk i o implicit t p with
      | none =>
        rw [hx] at h
        nomatch h
      | some x =>
        rw [hx] at h
        rw [LoopFits]
        simp only [Later, hzero, false_or, ne_eq, not_false_eq_true, true_and]
        obtain ⟨e, s, rfl, he⟩ | ⟨hcount, rfl⟩ | ⟨hcount, s, hafter, rfl | rfl⟩ := copyChunk_cases hx
        · -- the loop has failed
          rw [← Option.some.inj h] at hok
          exact absurd he hok
        · rw [← Option.some.inj h] at hmoved ⊢
          obtain ⟨rfl, rfl⟩ := hmoved.unique .refl
          rw [loopExact_zero]
          simp only [hcount, true_or, true_and, not_true_eq_false, false_and, or_false]
          rfl
        · -- the last turn
          rw [← Option.some.inj h] at hmoved ⊢
          obtain ⟨rfl, rfl⟩ := hmoved.unique moved_advance
          have hright := right_after_iff i o src want (L := fun _ => False) (t := t) (p := p)
          simp only [or_false] at hright
          simp only [hx, hcount, false_or, not_false_eq_true, true_and, Option.some.injEq, reduceCtorEq, false_and,
            exists_false, or_false, false_implies, implies_true, and_true]
          rw [LoopExact, and_assoc, and_assoc]
          apply and_congr_right
          intro hwhole
          apply and_congr_right
          intro _
          have hfinal : ((p.advance s (t.count p) (t.written p)).state.content o.ino).byte = t.after p i o := hafter
          rw [← hright hwhole, hfinal]
          exact funext_iff
        · -- a turn with others behind it
          obtain ⟨R₁, W₁, hmoved₁, -⟩ := copyLoop_moved h hok
          obtain ⟨rfl, rfl⟩ := hmoved.unique hmoved₁.behind.1
          have hrest := ih (wantAfter src t p want) h hmoved₁
          have hright := right_after_iff i o src want (t := t) (p := p)
            (L := fun q => Later i o implicit ts (p.advance s (t.count p) (t.written p)) q)
          simp only [hx, hcount, false_or, not_false_eq_true, true_and, Option.some.injEq, Turned.next.injEq,
            exists_eq_left', forall_eq']
          have hstate : ((p.advance s (t.count p) (t.written p)).state.content o.ino).byte = t.after p i o := hafter
          rw [hstate] at hrest
          rw [loopExact_behind hmoved₁, hrest, and_assoc, and_assoc]
          apply and_congr_right
          intro hwhole
          apply and_congr_right
          intro _
          constructor
          · rintro ⟨hfits, hafter⟩
            obtain ⟨hlays, hbefore⟩ := (hright hwhole).mp hafter
            exact ⟨⟨hlays, hfits⟩, hbefore⟩
          · rintro ⟨⟨hlays, hfits⟩, hbefore⟩
            exact ⟨hfits, (hright hwhole).mpr ⟨hlays, hbefore⟩⟩

end Loop

/-! ## The call -/

section Calls

variable {ptr : Option Pointer} {res : Result} {ofile : Nat → Option Open} {f f' : File} {x st : UInt64}
  {v vIn vOut : Int} {s' : State} {h : Nat}

theorem ofInt_ssize (x : UInt64) : UInt64.ofInt (ssize x) = x := by
  have hmod : ssize x % 2 ^ 64 = x.toNat := by
    have := x.toNat_lt
    unfold ssize
    rw [Int.bmod_def]
    split
    · omega
    · omega
  rw [← UInt64.toNat_inj, UInt64.ofInt, UInt64.toNat_ofNat']
  have := x.toNat_lt
  omega

theorem ssize_eq_zero_iff : ssize x = 0 ↔ x = 0 := by
  constructor
  · intro h
    rw [← ofInt_ssize x, h]
    rfl
  · rintro rfl
    unfold ssize
    decide

theorem moveTo_moveTo (x y : UInt64) : moveTo (moveTo f x) y = moveTo f y := rfl

theorem startOffset_none : startOffset none o s = (s.file o.id).fPos := rfl

theorem startOffset_some (q : Pointer) : startOffset (some q) o s = q.value := rfl

theorem saved_none : saved none o s = (0, s) := rfl

theorem advanced_moveTo : Advanced n f (moveTo f' x) ↔ x = f.fPos + n ∧ x = f.ext4.fpos + n := Iff.rfl

theorem lseek_cur (f : File) : f.vfsExt4Lseek 0 SEEK_CUR = (toInt f.ext4.fpos, moveTo f f.ext4.fpos) := by
  have hseek : f.ext4.fseek 0 SEEK_CUR = (0, { f.ext4 with fpos := f.ext4.fpos + 0 }) := rfl
  unfold File.vfsExt4Lseek
  rw [hseek]
  simp [moveTo]

/-- A file that is moved from its position by `W`, where `n` is asked for. -/
theorem advanced_from : Advanced n f (moveTo f' (f.fPos + W)) ↔ W = n ∧ Coherent f := by
  rw [advanced_moveTo, Coherent]
  constructor
  · rintro ⟨hpos, hlib⟩
    exact ⟨by grind, by grind⟩
  · rintro ⟨rfl, hpos⟩
    exact ⟨rfl, by rw [hpos]⟩

/-- The value of a position that is saved. -/
theorem saved_value (h : ptr.isSome) : (saved ptr o s).1 = toInt (s.file o.id).ext4.fpos := by
  unfold saved State.seek
  rw [if_pos h, lseek_cur]

theorem saved_content : (saved ptr o s).2.content = s.content := by
  unfold saved
  split
  · unfold State.seek
    rfl
  · rfl

/-- Saving a position does not move the library, and leaves other files. -/
theorem saved_file (ptr : Option Pointer) (o : Open) (s : State) (h : Nat) : ((saved ptr o s).2.file h).ext4.fpos = (s.file h).ext4.fpos ∧
    (¬(ptr.isSome ∧ h = o.id) → (saved ptr o s).2.file h = s.file h) := by
  unfold saved State.seek
  split
  · rename_i hptr
    rw [lseek_cur]
    dsimp only
    by_cases hid : h = o.id
    · subst hid
      rw [update_self]
      exact ⟨rfl, fun hnot => absurd ⟨hptr, rfl⟩ hnot⟩
    · rw [update_of_ne hid]
      exact ⟨rfl, fun _ => rfl⟩
  · exact ⟨rfl, fun _ => rfl⟩

theorem restore_content : (c.restore i o vIn vOut s).content = s.content := by
  unfold Call.restore restore
  split
  · split
    · rfl
    · rfl
  · split
    · rfl
    · rfl

theorem restore_file (hv : ptr.isSome → 0 ≤ v) (h : Nat) :
    (restore ptr o v s).file h =
      if ptr.isSome ∧ h = o.id then moveTo (s.file h) (UInt64.ofInt v) else s.file h := by
  unfold restore
  by_cases hptr : ptr.isSome
  · rw [if_pos ⟨hptr, hv hptr⟩, seek_set_file]
    by_cases hid : h = o.id
    · subst hid
      rw [if_pos ⟨hptr, rfl⟩, update_self]
    · rw [if_neg (by simp [hid]), update_of_ne hid]
  · rw [if_neg (by simp [hptr]), if_neg (by simp [hptr])]

/-- A call that does not return an error has been through its loop. -/
theorem call_inv (hin : getFile ofile c.fdIn = some i) (hout : getFile ofile c.fdOut = some o)
    (hcall : sysCopyFileRange c env ofile s = some res) (hn : 0 ≤ res.value) :
    ∃ st loop, env.stat.fstat (s.content i.ino).size = some st ∧ (c.offIn.isSome → 0 ≤ toInt (s.file i.id).ext4.fpos) ∧
      (c.offOut.isSome → 0 ≤ toInt (s.file o.id).ext4.fpos) ∧
      copyLoop i o c.offOut.isNone env.turns (c.begin i o st.2 s) = some loop ∧ ¬loop.1 < 0 ∧
      res = { c.finish i o loop.2 with
        state := c.restore i o (saved c.offIn i s).1 (saved c.offOut o (saved c.offIn i s).2).1
          (c.finish i o loop.2).state } := by
  unfold sysCopyFileRange at hcall
  rw [hin, hout] at hcall
  have hneg : ∀ {e : Int} {st : State}, e < 0 → some (c.leave e st) = some res → False := by
    intro e st he h
    rw [← Option.some.inj h] at hn
    exact absurd he (Int.not_lt.mpr hn)
  split at hcall
  · exact (hneg (by decide) hcall).elim
  · dsimp only at hcall
    split at hcall
    · exact (hneg (by decide) hcall).elim
    · unfold copyFileRange at hcall
      dsimp only at hcall
      split at hcall
      · rename_i hsaved
        exact (hneg hsaved hcall).elim
      · rename_i hsavedIn
        split at hcall
        · rename_i hsaved
          exact (hneg hsaved hcall).elim
        · rename_i hsavedOut
          split at hcall
          · exact (hneg (by decide) hcall).elim
          · split at hcall
            · exact (hneg (by decide) hcall).elim
            · obtain ⟨st, hst, hcall⟩ := Option.bind_eq_some_iff.mp hcall
              rw [saved_content, saved_content] at hst
              split at hcall
              · exact (hneg (by decide) hcall).elim
              · obtain ⟨loop, hloop, hcall⟩ := Option.bind_eq_some_iff.mp hcall
                by_cases hfail : loop.1 < 0
                · rw [if_pos hfail] at hcall
                  exact (hneg hfail hcall).elim
                · rw [if_neg hfail] at hcall
                  refine ⟨st, loop, hst, ?_, ?_, hloop, hfail, (Option.some.inj hcall).symm⟩
                  · intro hptr
                    rw [saved_value hptr] at hsavedIn
                    exact Int.not_lt.mp hsavedIn
                  · intro hptr
                    rw [saved_value hptr, (saved_file c.offIn i s _).1] at hsavedOut
                    exact Int.not_lt.mp hsavedOut

/-- The values that are saved in front of a call that restores them. -/
def Call.savedValues (c : Call) (i o : Open) (s : State) : Int × Int :=
  ((saved c.offIn i s).1, (saved c.offOut o (saved c.offIn i s).2).1)

/-- The files behind the restore. -/
theorem restored_file (s' : State) (hvIn : c.offIn.isSome → 0 ≤ toInt (s.file i.id).ext4.fpos)
    (hvOut : c.offOut.isSome → 0 ≤ toInt (s.file o.id).ext4.fpos) (h : Nat) :
    (c.restore i o (c.savedValues i o s).1 (c.savedValues i o s).2 s').file h =
      if c.offOut.isSome ∧ h = o.id then moveTo (s'.file h) (UInt64.ofInt (toInt (s.file o.id).ext4.fpos))
      else if c.offIn.isSome ∧ h = i.id then moveTo (s'.file h) (UInt64.ofInt (toInt (s.file i.id).ext4.fpos))
      else s'.file h := by
  have hin : ∀ hptr : c.offIn.isSome, (c.savedValues i o s).1 = toInt (s.file i.id).ext4.fpos := fun hptr => saved_value hptr
  have hout : ∀ hptr : c.offOut.isSome, (c.savedValues i o s).2 = toInt (s.file o.id).ext4.fpos := by
    intro hptr
    unfold Call.savedValues
    rw [saved_value hptr, (saved_file c.offIn i s _).1]
  unfold Call.restore
  rw [restore_file (fun hptr => by rw [hout hptr]; exact hvOut hptr), restore_file (fun hptr => by rw [hin hptr]; exact hvIn hptr)]
  by_cases hIn : c.offIn.isSome ∧ h = i.id
  · rw [if_pos hIn, if_pos hIn, hin hIn.1]
    split
    · rename_i hOut
      rw [hout hOut.1, moveTo_moveTo]
    · rfl
  · rw [if_neg hIn, if_neg hIn]
    split
    · rename_i hOut
      rw [hout hOut.1]
    · rfl

/-- A file whose position has been saved is at that position behind the restore. -/
theorem restored_given (hvIn : c.offIn.isSome → 0 ≤ toInt (s.file i.id).ext4.fpos)
    (hvOut : c.offOut.isSome → 0 ≤ toInt (s.file o.id).ext4.fpos)
    (hgiven : (c.offIn.isSome ∧ h = i.id) ∨ (c.offOut.isSome ∧ h = o.id)) :
    Advanced n (s.file h) ((c.restore i o (c.savedValues i o s).1 (c.savedValues i o s).2 s').file h) ↔
      Advanced n (s.file h) (savedPos (s.file h)) := by
  rw [restored_file s' hvIn hvOut, savedPos]
  split
  · rename_i hout
    rw [advanced_moveTo, advanced_moveTo, hout.2]
  · rename_i hout
    have hin := hgiven.resolve_right hout
    rw [if_pos hin, advanced_moveTo, advanced_moveTo, hin.2]

/-- Other files stay where the loop has left them. -/
theorem restored_other (hvIn : c.offIn.isSome → 0 ≤ toInt (s.file i.id).ext4.fpos)
    (hvOut : c.offOut.isSome → 0 ≤ toInt (s.file o.id).ext4.fpos) (hin : ¬(c.offIn.isSome ∧ h = i.id))
    (hout : ¬(c.offOut.isSome ∧ h = o.id)) :
    (c.restore i o (c.savedValues i o s).1 (c.savedValues i o s).2 s').file h = s'.file h := by
  rw [restored_file s' hvIn hvOut, if_neg hout, if_neg hin]

/-- The offsets of the loop are those at the start of the call, but for a file that is both and has one of its
positions saved. -/
theorem begin_offsets (hmix : i.id = o.id → (c.offIn.isSome ↔ c.offOut.isSome)) :
    (c.begin i o n s).readOffset = startOffset c.offIn i s ∧ (c.begin i o n s).writeOffset = startOffset c.offOut o s := by
  unfold Call.begin Call.start startOffset
  constructor
  · cases hin : c.offIn with
    | some q => rfl
    | none =>
      have hsame := (saved_file c.offOut o s i.id).2
      rw [hin] at hmix
      rw [saved_none]
      exact congrArg File.fPos (hsame fun h => nomatch (hmix h.2).mpr h.1)
  · cases hout : c.offOut with
    | some q => rfl
    | none =>
      have hsame := (saved_file c.offIn i s o.id).2
      rw [hout] at hmix
      rw [saved_none]
      exact congrArg File.fPos (hsame fun h => nomatch (hmix h.2.symm).mp h.1)

section Reading

variable {st : UInt64} {last : State} (hvIn : c.offIn.isSome → 0 ≤ toInt (s.file i.id).ext4.fpos)
  (hvOut : c.offOut.isSome → 0 ≤ toInt (s.file o.id).ext4.fpos) (hreads : Reads ts (c.begin i o st s))

/-- One file that has one of its two positions given, and something is read: the call is not exact. -/
theorem not_exact_mixed (hid : i.id = o.id) (hne : ¬(c.offIn.isSome ↔ c.offOut.isSome)) (hR : R ≠ 0) :
    ¬Exact c i o s R res := by
  intro h
  have hIn := h.posIn.1
  have hOut := h.posOut.1
  rw [← hid, hIn] at hOut
  unfold advance at hOut
  split at hOut
  · split at hOut
    · rename_i hgiven hgiven'
      exact hne ⟨fun _ => hgiven', fun _ => hgiven⟩
    · exact absurd (by grind) hR
  · split at hOut
    · exact absurd (by grind) hR
    · rename_i hgiven hgiven'
      exact hne ⟨fun h => absurd h hgiven, fun h => absurd h hgiven'⟩

include hreads

theorem not_fits_mixed (hid : i.id = o.id) (hne : ¬(c.offIn.isSome ↔ c.offOut.isSome))
    (hIn : InFits c i o s ts (c.begin i o st s)) : ¬OutFits c i o s ts (c.begin i o st s) := by
  intro hOut
  unfold InFits at hIn
  unfold OutFits at hOut
  split at hIn
  · rename_i hgiven
    split at hOut
    · rename_i hgiven'
      exact hne ⟨fun _ => hgiven', fun _ => hgiven⟩
    · exact (hOut hreads).2 ⟨hid, hgiven⟩
  · rename_i hgiven
    refine hne ⟨fun h => absurd h hgiven, fun hgiven' => ?_⟩
    exact absurd ⟨hid, hgiven'⟩ (hIn.1 hreads).2

include hvIn hvOut

/-- The position of the source, if the loop leaves it `R` behind the start. -/
theorem read_posIn (hmix : i.id = o.id → (c.offIn.isSome ↔ c.offOut.isSome))
    (hlast : c.offIn = none → ∃ f, last.file i.id = moveTo f ((s.file i.id).fPos + R)) :
    Advanced (advance c.offIn R) (s.file i.id)
      ((c.restore i o (c.savedValues i o s).1 (c.savedValues i o s).2 last).file i.id) ↔
        InFits c i o s ts (c.begin i o st s) := by
  unfold InFits advance
  by_cases hgiven : c.offIn.isSome
  · rw [if_pos hgiven, if_pos hgiven]
    exact restored_given hvIn hvOut (.inl ⟨hgiven, rfl⟩)
  · have hapart : ¬(c.offOut.isSome ∧ i.id = o.id) := fun h => hgiven ((hmix h.2).mpr h.1)
    rw [if_neg hgiven, if_neg hgiven, restored_other hvIn hvOut (fun h => hgiven h.1) hapart]
    obtain ⟨f, hf⟩ := hlast (Option.not_isSome_iff_eq_none.mp hgiven)
    rw [hf, advanced_from]
    constructor
    · exact fun h => ⟨fun _ => ⟨h.2, fun h' => hapart h'.symm⟩, fun h' => absurd hreads h'⟩
    · exact fun h => ⟨rfl, (h.1 hreads).1⟩

/-- The position of the destination, if the loop leaves it `W` behind the start. -/
theorem read_posOut (hmix : i.id = o.id → (c.offIn.isSome ↔ c.offOut.isSome))
    (hlast : last.file o.id = moveTo (last.file o.id) (startOffset c.offOut o s + W)) :
    Advanced (advance c.offOut R) (s.file o.id)
      ((c.restore i o (c.savedValues i o s).1 (c.savedValues i o s).2 last).file o.id) ↔
        OutFits c i o s ts (c.begin i o st s) ∧ (c.offOut = none → W = R) := by
  unfold OutFits advance
  by_cases hgiven : c.offOut.isSome
  · rw [if_pos hgiven, if_pos hgiven, restored_given hvIn hvOut (.inr ⟨hgiven, rfl⟩)]
    exact (and_iff_left fun h => by rw [h] at hgiven; nomatch hgiven).symm
  · have hnone : c.offOut = none := by simpa using hgiven
    have hapart : ¬(c.offIn.isSome ∧ o.id = i.id) := fun h => hgiven ((hmix h.2.symm).mp h.1)
    rw [if_neg hgiven, if_neg hgiven, restored_other hvIn hvOut hapart fun h => hgiven h.1]
    rw [hnone, startOffset_none] at hlast
    rw [hlast, advanced_from]
    constructor
    · exact fun h => ⟨fun _ => ⟨h.2, fun h' => hapart ⟨h'.2, h'.1.symm⟩⟩, fun _ => h.1⟩
    · exact fun h => ⟨h.2 hnone, (h.1 hreads).1⟩

end Reading

/-- The value that a pointer leads to behind the call. -/
theorem pointer_iff (ptr : Option Pointer) (o : Open) (s : State) :
    (ptr.map fun _ => startOffset ptr o s + W) = (ptr.map fun q => q.value + R) ↔ (ptr.isSome → W = R) := by
  cases ptr with
  | some q =>
    rw [startOffset_some]
    simp only [Option.map_some, Option.some.injEq, Option.isSome_some, true_imp_iff]
    constructor
    · intro h
      grind
    · intro h
      rw [h]
  | none => simp

/-- A call whose loop reads something. -/
theorem exact_read_iff (hvIn : c.offIn.isSome → 0 ≤ toInt (s.file i.id).ext4.fpos)
    (hvOut : c.offOut.isSome → 0 ≤ toInt (s.file o.id).ext4.fpos) (hmoved : Moved (c.begin i o st s) p' R W)
    (hreads : Reads ts (c.begin i o st s)) (hR : R ≠ 0) :
    Exact c i o s R ⟨v, c.restore i o (c.savedValues i o s).1 (c.savedValues i o s).2
            ((p'.state.seek i p'.readOffset SEEK_SET).2.seek o p'.writeOffset SEEK_SET).2,
          c.offIn.map fun _ => p'.readOffset, c.offOut.map fun _ => p'.writeOffset⟩ ↔
      InFits c i o s ts (c.begin i o st s) ∧ OutFits c i o s ts (c.begin i o st s) ∧
        LoopExact o (s.content i.ino) (s.content o.ino).byte (c.begin i o st s) p' R W := by
  by_cases hmix : i.id = o.id → (c.offIn.isSome ↔ c.offOut.isSome)
  · obtain ⟨hro, hwo⟩ := begin_offsets (n := st) (s := s) hmix
    have hsrc := hmoved.read
    have hdst := hmoved.written
    rw [hro] at hsrc
    rw [hwo] at hdst
    rw [hsrc, hdst]
    generalize hlast : ((p'.state.seek i (startOffset c.offIn i s + R) SEEK_SET).2.seek o
      (startOffset c.offOut o s + W) SEEK_SET).2 = last
    have hlastOut : last.file o.id = moveTo (last.file o.id) (startOffset c.offOut o s + W) := by
      rw [← hlast, seek_set_file, update_self, moveTo_moveTo]
    have hlastIn : W = R → c.offIn = none → ∃ f, last.file i.id = moveTo f ((s.file i.id).fPos + R) := by
      intro hwhole hnone
      by_cases hid : i.id = o.id
      · have hnone' : c.offOut = none := by
          rw [← Option.not_isSome_iff_eq_none, ← hmix hid, hnone]
          nofun
        rw [hnone', startOffset_none, hwhole, ← hid] at hlastOut
        exact ⟨_, hlastOut⟩
      · refine ⟨p'.state.file i.id, ?_⟩
        rw [← hlast, seek_set_file, update_of_ne hid, seek_set_file, update_self, hnone, startOffset_none]
    have hbytes : last.content = p'.state.content := by
      rw [← hlast, seek_content, seek_content]
    have hposIn := fun h : W = R => read_posIn hvIn hvOut hreads hmix (hlastIn h)
    have hposOut := read_posOut (R := R) hvIn hvOut hreads hmix hlastOut
    have hwritten : (c.offOut = none → W = R) → (c.offOut.isSome → W = R) → W = R := by
      intro hnone hsome
      cases hgiven : c.offOut with
      | some q => exact hsome (by rw [hgiven]; rfl)
      | none => exact hnone hgiven
    unfold LoopExact
    rw [hro, hwo]
    constructor
    · intro h
      have hposOut' := hposOut.mp h.posOut
      have hwhole := hwritten hposOut'.2 ((pointer_iff _ o s).mp h.offOut)
      refine ⟨(hposIn hwhole).mp h.posIn, hposOut'.1, hwhole, h.exist, ?_⟩
      rw [← h.bytes, restore_content, hbytes]
    · rintro ⟨hIn, hOut, hwhole, hexist, hbyte⟩
      refine ⟨hexist, ?_, (pointer_iff _ i s).mpr fun _ => rfl, (pointer_iff _ o s).mpr fun _ => hwhole,
        (hposIn hwhole).mpr hIn, hposOut.mpr ⟨hOut, fun _ => hwhole⟩⟩
      rw [← hbyte, restore_content, hbytes]
  · -- one file with a position that should move and stay
    obtain ⟨hid, hne⟩ := Classical.not_imp.mp hmix
    refine iff_of_false (not_exact_mixed hid hne hR) ?_
    exact fun h => not_fits_mixed hreads hid hne h.1 h.2.1

theorem begin_content : (c.begin i o n s).state.content = s.content := by
  unfold Call.begin Call.start
  rw [saved_content, saved_content]

/-- A loop that reads nothing leaves a file that it does not read, and whose position is not saved. -/
theorem looked_file (hid : h ≠ i.id) (hout : ¬(c.offOut.isSome ∧ h = o.id)) :
    (looked i ts (c.begin i o n s)).file h = (s.file h) := by
  have hbegin : (c.begin i o n s).state.file h = s.file h := by
    unfold Call.begin Call.start
    dsimp only
    rw [(saved_file _ _ _ h).2 hout, (saved_file _ _ _ h).2 fun hmine => hid hmine.2]
  have hread : ∀ a, ((c.begin i o n s).read i a).2.file h = (c.begin i o n s).state.file h := by
    intro a
    unfold Progress.read State.readat
    exact update_of_ne hid _ _
  unfold looked
  split
  · split
    · exact hbegin
    · rw [hread, hbegin]
  · split
    · exact hbegin
    · rw [hread, hbegin]

/-- A call whose loop reads nothing. -/
theorem exact_idle_iff (hvIn : c.offIn.isSome → 0 ≤ toInt (s.file i.id).ext4.fpos)
    (hvOut : c.offOut.isSome → 0 ≤ toInt (s.file o.id).ext4.fpos) (hidle : ¬Reads ts (c.begin i o st s)) :
    Exact c i o s 0
        ⟨v, c.restore i o (c.savedValues i o s).1 (c.savedValues i o s).2 (looked i ts (c.begin i o st s)),
          c.offIn.map (·.value), c.offOut.map (·.value)⟩ ↔
      InFits c i o s ts (c.begin i o st s) ∧ OutFits c i o s ts (c.begin i o st s) := by
  have hstay : ∀ ptr : Option Pointer, advance ptr 0 = 0 := by
    intro ptr
    unfold advance
    split
    · rfl
    · rfl
  have hvalue : ∀ ptr : Option Pointer, (ptr.map fun q => q.value) = ptr.map fun q => q.value + 0 := by
    intro ptr
    simp only [UInt64.add_zero]
  have hexact : Exact c i o s 0
      ⟨v, c.restore i o (c.savedValues i o s).1 (c.savedValues i o s).2 (looked i ts (c.begin i o st s)),
        c.offIn.map (·.value), c.offOut.map (·.value)⟩ ↔
      Advanced 0 (s.file i.id) ((c.restore i o (c.savedValues i o s).1 (c.savedValues i o s).2
        (looked i ts (c.begin i o st s))).file i.id) ∧
      Advanced 0 (s.file o.id) ((c.restore i o (c.savedValues i o s).1 (c.savedValues i o s).2
        (looked i ts (c.begin i o st s))).file o.id) := by
    constructor
    · intro h
      have hIn := h.posIn
      have hOut := h.posOut
      rw [hstay] at hIn hOut
      exact ⟨hIn, hOut⟩
    · rintro ⟨hIn, hOut⟩
      refine ⟨fun k hk => absurd hk UInt64.not_lt_zero, ?_, hvalue _, hvalue _, ?_, ?_⟩
      · rw [overlay_zero, restore_content, looked_content, begin_content]
      · rw [hstay]
        exact hIn
      · rw [hstay]
        exact hOut
  rw [hexact]
  unfold InFits OutFits
  by_cases hout : c.offOut.isSome
  · rw [if_pos hout, restored_given hvIn hvOut (.inr ⟨hout, rfl⟩)]
    apply and_congr_left
    intro hOut
    by_cases hin : c.offIn.isSome
    · rw [if_pos hin, restored_given hvIn hvOut (.inl ⟨hin, rfl⟩)]
    · rw [if_neg hin]
      by_cases hid : i.id = o.id
      · -- the position of the destination is restored for both
        rw [restored_given hvIn hvOut (.inr ⟨hout, hid⟩), hid]
        exact iff_of_true hOut ⟨fun h => absurd h hidle, fun _ => .inl ⟨rfl, hout⟩⟩
      · rw [restored_other hvIn hvOut (fun h => hin h.1) fun h => hid h.2]
        constructor
        · exact fun h => ⟨fun h' => absurd h' hidle, fun _ => .inr h⟩
        · exact fun h => (h.2 hidle).resolve_left fun h' => hid h'.1
  · -- a destination without a pointer is not touched, if it is not the source
    have hsame : Advanced 0 (s.file i.id) ((c.restore i o (c.savedValues i o s).1 (c.savedValues i o s).2
        (looked i ts (c.begin i o st s))).file i.id) →
        Advanced 0 (s.file o.id) ((c.restore i o (c.savedValues i o s).1 (c.savedValues i o s).2
          (looked i ts (c.begin i o st s))).file o.id) := by
      intro h
      by_cases hid : o.id = i.id
      · rw [hid]
        exact h
      · rw [restored_other hvIn hvOut (fun h => hid h.2) fun h => hout h.1, looked_file hid fun h => hout h.1]
        exact ⟨by simp, by simp⟩
    rw [and_iff_left_of_imp hsame, if_neg hout, and_iff_left fun h => absurd h hidle]
    by_cases hin : c.offIn.isSome
    · rw [if_pos hin, restored_given hvIn hvOut (.inl ⟨hin, rfl⟩)]
    · rw [if_neg hin, restored_other hvIn hvOut (fun h => hin h.1) fun h => hout h.1]
      constructor
      · exact fun h => ⟨fun h' => absurd h' hidle, fun _ => .inr h⟩
      · exact fun h => (h.2 hidle).resolve_left fun h' => hout h'.2

/-- What a call returns that has read something. -/
theorem finish_read {loop : Progress} (hcopied : loop.copied = R) (hpos : 0 < ssize R)
    (hr : res = { c.finish i o loop with state := c.restore i o vIn vOut (c.finish i o loop).state })
    (hn : 0 ≤ res.value) :
    res.value = ssize R ∧
      res = ⟨ssize R,
        c.restore i o vIn vOut ((loop.state.seek i loop.readOffset SEEK_SET).2.seek o loop.writeOffset SEEK_SET).2,
        c.offIn.map fun _ => loop.readOffset, c.offOut.map fun _ => loop.writeOffset⟩ := by
  have hfault : ¬(0 : Int) ≤ -Positional.EFAULT := by decide
  subst hr
  unfold Call.finish at hn ⊢
  rw [hcopied, if_pos hpos] at hn ⊢
  generalize ssize R = v at hn ⊢
  dsimp only at hn ⊢
  split at hn
  · exact absurd hn hfault
  · rename_i hIn
    rw [if_neg hIn]
    split at hn
    · exact absurd hn hfault
    · rename_i hOut
      rw [if_neg hOut]
      exact ⟨rfl, rfl⟩

/-- A loop that reads nothing fits. -/
theorem loopFits_idle (hidle : ¬Reads ts p) : LoopFits i o implicit src ts p want := by
  cases ts with
  | nil => trivial
  | cons t ts =>
    unfold LoopFits
    by_cases hzero : p.remaining = 0
    · exact .inl hzero
    · exact .inr (.inl (Classical.byContradiction fun hcount => hidle ⟨hzero, hcount⟩))

end Calls

/-- A call on two open files that returns no error is exact if and only if it fits. -/
theorem copy_exact_iff {ofile : Nat → Option Open} {r : Result} (hin : getFile ofile c.fdIn = some i)
    (hout : getFile ofile c.fdOut = some o) (hcall : sysCopyFileRange c env ofile s = some r) (hn : 0 ≤ r.value) :
    Exact c i o s (UInt64.ofInt r.value) r ↔ Fits c env i o s := by
  obtain ⟨st, loop, hst, hvIn, hvOut, hloop, hok, hr⟩ := call_inv hin hout hcall hn
  have hfits : Fits c env i o s ↔ InFits c i o s env.turns (c.begin i o st.2 s) ∧
      OutFits c i o s env.turns (c.begin i o st.2 s) ∧
      LoopFits i o c.offOut.isNone (s.content i.ino) env.turns (c.begin i o st.2 s) (s.content o.ino).byte := by
    constructor
    · exact fun h => h st hst
    · intro h st' hst'
      rw [Option.some.inj (hst'.symm.trans hst)]
      exact h
  rw [hfits]
  obtain ⟨R, W, hmoved, hreads, hidle⟩ := copyLoop_moved hloop hok
  have hcopied : loop.2.copied = R := by
    have : (c.begin i o st.2 s).copied = 0 := rfl
    rw [hmoved.copied, this, UInt64.zero_add]
  have hright := copyLoop_exact_iff (s.content i.ino) (s.content o.ino).byte hloop hok hmoved
  rw [and_iff_left fun q => .inl (by rw [begin_content])] at hright
  rw [← hright]
  by_cases hpos : 0 < ssize R
  · have hR : R ≠ 0 := by
      intro hzero
      rw [ssize_eq_zero_iff.mpr hzero] at hpos
      exact absurd hpos (Int.lt_irrefl 0)
    have hread : Reads env.turns (c.begin i o st.2 s) := Classical.byContradiction fun h => hR (hidle h).1
    obtain ⟨hvalue, hr⟩ := finish_read hcopied hpos hr hn
    rw [hvalue, ofInt_ssize, hr]
    exact exact_read_iff hvIn hvOut hmoved hread hR
  · have hr' : r = ⟨ssize R, c.restore i o (c.savedValues i o s).1 (c.savedValues i o s).2 loop.2.state,
        c.offIn.map (·.value), c.offOut.map (·.value)⟩ := by
      rw [hr]
      unfold Call.finish
      rw [hcopied, if_neg hpos]
      generalize ssize R = v
      rfl
    have hvalue : r.value = ssize R := by rw [hr']
    have hzero : ssize R = 0 := by omega
    have hR := ssize_eq_zero_iff.mp hzero
    have hread : ¬Reads env.turns (c.begin i o st.2 s) := fun h => hreads h hR
    have hzero' : UInt64.ofInt r.value = 0 := by
      rw [hvalue, hzero]
      rfl
    rw [hright, hzero', hr', (hidle hread).2]
    rw [and_iff_left (a := OutFits _ _ _ _ _ _) (loopFits_idle hread)]
    exact exact_idle_iff hvIn hvOut hread

/-! ## Two bytes -/

/-- A file with these bytes. -/
def Content.ofList (l : List UInt8) : Content where
  size := l.length
  byte p := l.getD p.toNat 0
  zero_behind p hp := by simp [hp]

/-- The library moves up to `most` bytes. -/
def Answer.upTo (most : UInt64) : Answer :=
  ⟨fun size => ⟨0, min size most, 0⟩, fun _ => Std.min_le_left, Answer.nothing.positive⟩

/-- A file of 8 blocks. -/
def blocks8 : StatAnswer where
  lookup size :=
    ⟨some ⟨0, 2⟩, .ok (12, ⟨0, 0, UInt32.ofNat size, 0, 0, 0, 0, 1, 8, fun _ => 0, 0, 0, 0, 0, 0⟩)⟩
  sized size number inode h := by
    rw [← (Prod.mk.inj (Except.ok.inj h)).2]
  st := ⟨0, 0, 0, 0, 0, 0, 0, 0, 0, 0, 0, 0, 0, 0, 0, 0⟩

/-- A turn that reads all it asks for, and writes up to `most` bytes of it. -/
def writes (most : UInt64) : Turn := ⟨.upTo 4096, fun _ => 0, blocks8, true, [], .upTo most⟩

/-- Two bytes from offset 0 to offset 0. -/
def twoBytes : Call := ⟨3, some ⟨0, true, true, true⟩, 4, some ⟨0, true, true, true⟩, 2, 0⟩

def below (most : UInt64) : Env := ⟨0, true, blocks8, [writes most]⟩

def source : Open := ⟨0, .reg, 0⟩
def destination : Open := ⟨1, .reg, 1⟩

def descriptors (fd : Nat) : Option Open := if fd = 3 then some source else if fd = 4 then some destination else none

/-- Two files that have just been opened. -/
def fresh : State := ⟨fun _ => ⟨0, 0, 2⟩, fun ino => if ino = 0 then .ofList [7, 9] else .ofList [1, 2]⟩

/-- The call on files that fit: it copies both bytes. -/
theorem copy_exact_twoBytes :
    ∃ r, sysCopyFileRange twoBytes (below 2) descriptors fresh = some r ∧ r.value = 2 ∧
      Exact twoBytes source destination fresh (UInt64.ofInt r.value) r := by
  have hrun : (sysCopyFileRange twoBytes (below 2) descriptors fresh).map (·.value) = some 2 := by decide +kernel
  obtain ⟨r, hcall, hvalue⟩ := Option.map_eq_some_iff.mp hrun
  refine ⟨r, hcall, hvalue, (copy_exact_iff (i := source) (o := destination) rfl rfl hcall (by rw [hvalue]; decide)).mpr ?_⟩
  intro st hst
  have hfstat : blocks8.fstat 2 = some (0, 2) := by decide +kernel
  obtain rfl : st = (0, 2) := Option.some.inj (hst.symm.trans hfstat)
  refine ⟨?_, ?_, ?_⟩
  · exact ⟨by decide +kernel, by decide +kernel⟩
  · exact ⟨by decide +kernel, by decide +kernel⟩
  · have hcount : (writes 2).count (twoBytes.begin source destination 2 fresh) = 2 := by decide +kernel
    have hwritten : (writes 2).written (twoBytes.begin source destination 2 fresh) = 2 := by decide +kernel
    have hfilled : ((writes 2).filled (twoBytes.begin source destination 2 fresh) destination).2 = 0 := by decide +kernel
    have hoffset : (twoBytes.begin source destination 2 fresh).intOffset = 0 := by decide +kernel
    have hinside : ∀ k : UInt64, k < 2 → (0 + k).toNat < 2 := by
      intro k hk
      rw [UInt64.zero_add]
      exact UInt64.lt_iff_toNat_lt.mp hk
    refine .inr (.inr ⟨hwritten.trans hcount.symm, ?_, ?_, fun _ _ => trivial⟩)
    · rw [hcount]
      exact hinside
    · intro q b hb
      unfold Turn.laid at hb
      rw [hwritten, hfilled] at hb
      left
      split at hb
      · rename_i hq
        rw [← Option.some.inj hb, wantAfter, hcount, overlay_of_lt hq]
        unfold Turn.buf State.deliver
        rw [hoffset, begin_content]
        exact if_pos (hinside _ hq)
      · rw [if_neg UInt64.not_lt_zero] at hb
        nomatch hb

/-- The library writes one of two bytes: the call returns 2, and the offset of the destination is 1. -/
theorem not_exact_shortWrite :
    ¬∀ (c : Call) (env : Env) (ofile : Nat → Option Open) (s : State) (i o : Open) (r : Result),
      getFile ofile c.fdIn = some i → getFile ofile c.fdOut = some o → sysCopyFileRange c env ofile s = some r →
        0 ≤ r.value → Exact c i o s (UInt64.ofInt r.value) r := by
  intro hall
  have hrun : (sysCopyFileRange twoBytes (below 1) descriptors fresh).map (fun r => (r.value, r.offOut)) =
      some (2, some 1) := by decide +kernel
  obtain ⟨r, hcall, hr⟩ := Option.map_eq_some_iff.mp hrun
  obtain ⟨hvalue, hoff⟩ := Prod.mk.inj hr
  have hexact := (hall _ _ _ _ source destination r rfl rfl hcall (by rw [hvalue]; decide)).offOut
  rw [hvalue, hoff] at hexact
  exact absurd hexact (by decide +kernel)

end SC7.CopyRange
