-- SUMMARY: When `sys_splice` moves its bytes exactly once: turn by turn, the condition on the pipe, on the file and on what fails.
import SC7.Fs.Splice
import SC7.Fs.CopyRangeExact
import Mathlib.Data.List.GetD

/-!
# Exact moves

A call that returns `n` has moved `n` bytes in their order, the pipe keeps what else is unread, the offset is `n`
further and the file position is where it was. A call that returns an error has not moved anything. No call goes
outside of a page.
-/

namespace SC7.Splice

open Position (File Coherent toInt SEEK_SET)
open Positional (FType moveTo)
open CopyRange (Content Answer StatAnswer Pointer Advanced ssize)

/-- All the bytes that a call has moved. -/
def moved (sections : List Section) : List UInt8 := (sections.map (·.bytes)).flatten

/-- The `n` bytes of a file from `p` on. -/
def bytesAt (c : Content) (p : UInt64) (n : Nat) : List UInt8 := (List.range n).map fun k => c.byte (p + .ofNat k)

/-- The bytes of the file at `[off_in, off_in + n)` exist and have gone into the pipe, behind what was unread. -/
structure FromFile (content : Content) (q : Pointer) (n : Nat) (sections : List Section) : Prop where
  exist : ∀ k, k < n → (q.value + .ofNat k).toNat < content.size
  bytes : moved sections = bytesAt content q.value n
  keeps : ∀ sec ∈ sections, sec.after.unread = sec.before.unread ++ sec.bytes

/-- The first unread bytes, `n` in all, have come to the file at `[off_out, off_out + n)`, and nowhere else. -/
structure FromPipe (content content' : Content) (q : Pointer) (n : Nat) (sections : List Section) : Prop where
  length : (moved sections).length = n
  bytes : content'.byte = overlay content.byte q.value (.ofNat n) (staged (moved sections))
  keeps : ∀ sec ∈ sections, sec.before.unread = sec.bytes ++ sec.after.unread

/-- A call that returns `n` bytes. -/
structure Exact (c : Call) (s : State) (n : Nat) (r : Result) : Prop where
  fromFile : ∀ q, c.offIn = some q → FromFile s.content q n r.sections ∧ r.state.content = s.content
  fromPipe : ∀ q, c.offOut = some q → FromPipe s.content r.state.content q n r.sections
  offIn : r.offIn = c.offIn.map fun q => q.value + .ofNat n
  offOut : r.offOut = c.offOut.map fun q => q.value + .ofNat n
  position : Advanced 0 s.file r.state.file

/-- What is asked of a call. -/
def Correct (c : Call) (s : State) : Except Stop Result → Prop
  | .error .outside => False
  | .error .never => True
  | .ok r => if r.value < 0 then moved r.sections = [] else Exact c s r.value.toNat r

/-! ## When a call fits -/

/-- The cells of `n` counts from `start` on, in a ring of some size, are in its page. -/
def InPage (size start n : Nat) : Prop := ∀ k, k < n → (start + k) % 2 ^ 32 % size < PGSIZE

instance (size start n : Nat) : Decidable (InPage size start n) :=
  inferInstanceAs (Decidable (∀ k, k < n → (start + k) % 2 ^ 32 % size < PGSIZE))

/-- The update of the offset at the end, on the file as it was at the start: it works, the count is no error, and
the position is where it was. If the update fails nothing may have been moved. -/
def EndFits (f : File) (q : Pointer) (f' : File) (copied : UInt64) : Prop :=
  if q.copiedOut then copied.toNat < 2 ^ 63 ∧ Advanced 0 f f' else copied = 0

/-- The number of bytes that a turn reads. -/
def FillTurn.count (t : FillTurn) (s : Fill) : UInt64 :=
  if (t.read.transfer s.chunk).status = 0 then (t.read.transfer s.chunk).moved else 0

/-- The bytes that it reads. -/
def FillTurn.buf (c : Content) (t : FillTurn) (s : Fill) (k : Nat) : UInt8 := deliver c t.beyond (s.intOffset + .ofNat k)

/-- The file behind the read. -/
def FillTurn.behind (t : FillTurn) (s : Fill) : Fill := { s with file := (s.read t.read).2 }

/-- The number of bytes for which a pipe has room. -/
def Found.room (f : Found) : Nat := f.pipe.size - f.pipe.ring.count (2 ^ 32)

/-- A turn stays in the page of the ring, the unread bytes that share a cell are the same with the new ones, and
these are those of the file. -/
structure PushFits (c : Content) (t : FillTurn) (s : Fill) (f : Found) (i : Nat) : Prop where
  inPage : InPage f.pipe.size f.pipe.nwrite i
  agree : RingBuf.Agree (2 ^ 32) f.pipe.size f.pipe.nread (f.pipe.unread ++ (List.range i).map (t.buf c s))
  right : ∀ k, k < i → (s.readOffset + .ofNat k).toNat < c.size ∧ t.buf c s k = c.byte (s.readOffset + .ofNat k)

/-- Each turn fits, and one that fails comes first. -/
def FillFits (c : Content) (q : Pointer) (f₀ : File) : List FillTurn → Fill → Prop
  | [], s => EndFits f₀ q (if s.remaining = 0 then s.file else (s.read .nothing).2) s.copied
  | t :: ts, s =>
    if s.remaining = 0 then EndFits f₀ q s.file s.copied
    else if t.count s = 0 then EndFits f₀ q (t.behind s).file s.copied
    else
      match waitRoom t.found with
      | .error _ => True
      | .ok (.error _) => s.copied = 0
      | .ok (.ok f) =>
        PushFits c t s f (min (t.count s).toNat f.room) ∧
          if f.room < (t.count s).toNat then
            EndFits f₀ q (t.behind s).file (s.copied + .ofNat f.room)
          else FillFits c q f₀ ts ((t.behind s).advance (t.count s).toNat)

namespace DrainTurn

variable (t : DrainTurn) (chunkSize : UInt64) (s : Drain)

/-- The number of bytes that a turn takes out of the pipe. -/
def taken : Nat := min (s.chunk chunkSize).toNat t.found.pipe.unread.length

/-- These bytes. -/
def bytes : List UInt8 := t.found.pipe.unread.take (t.taken chunkSize s)

/-- What the library answers to its write. -/
def transfer : Position.Transfer := t.write.transfer (.ofNat (t.taken chunkSize s))

/-- The file behind it. -/
def file : File :=
  (((moveTo s.file s.writeOffset).vfsExt4Write (.ofNat (t.taken chunkSize s)) (.kernel ⟨t.write.transfer, true⟩)).2.vfsExt4Lseek
    s.file.fPos SEEK_SET).2

/-- The variables behind it. -/
def behind : Drain := s.advance (t.file chunkSize s)
    (s.content.write s.writeOffset (t.transfer chunkSize s).moved (staged (t.bytes chunkSize s))) (.ofNat (t.taken chunkSize s))

end DrainTurn

/-- A turn that takes bytes stays in both pages, its seek and its write work, and the bytes that are not written are
in the file already. -/
structure WriteFits (chunkSize : UInt64) (t : DrainTurn) (s : Drain) : Prop where
  stage : t.taken chunkSize s ≤ PGSIZE
  inPage : InPage t.found.pipe.size t.found.pipe.nread (t.taken chunkSize s)
  seek : 0 ≤ toInt s.writeOffset
  status : (t.transfer chunkSize s).status = 0
  right : ∀ k, (t.transfer chunkSize s).moved ≤ k → k < .ofNat (t.taken chunkSize s) →
    s.content.byte (s.writeOffset + k) = staged (t.bytes chunkSize s) k

/-- Each turn fits, and an empty pipe comes first. -/
def DrainFits (chunkSize : UInt64) (q : Pointer) (f₀ : File) : List DrainTurn → Drain → Prop
  | [], s => if s.remaining = 0 then EndFits f₀ q s.file s.copied else s.copied = 0
  | t :: ts, s =>
    if s.remaining = 0 then EndFits f₀ q s.file s.copied
    else if t.found.pipe.nread = t.found.pipe.nwrite then s.copied = 0
    else if t.taken chunkSize s = 0 then EndFits f₀ q s.file s.copied
    else WriteFits chunkSize t s ∧ DrainFits chunkSize q f₀ ts (t.behind chunkSize s)

variable {c : Call} {s : State} {content : Content} {q : Pointer} {p p' : Pipe} {buf : Nat → UInt8} {i j m n : Nat}

/-! ## The ring -/

section Ring

@[simp] theorem size_withRing (r : RingBuf UInt8) : (p.withRing r).size = p.size := rfl

theorem inPage_zero {size start : Nat} : InPage size start 0 := fun k hk => absurd hk (Nat.not_lt_zero k)

theorem inPage_succ {size start : Nat} (h : start < 2 ^ 32) :
    InPage size start (n + 1) ↔ start % size < PGSIZE ∧ InPage size ((start + 1) % 2 ^ 32) n := by
  have hcell : ∀ k, ((start + 1) % 2 ^ 32 + k) % 2 ^ 32 = (start + (k + 1)) % 2 ^ 32 := fun k => by
    rw [Nat.mod_add_mod, show start + 1 + k = start + (k + 1) by omega]
  constructor
  · intro hall
    refine ⟨?_, fun k hk => ?_⟩
    · have := hall 0 (Nat.succ_pos n)
      rwa [Nat.add_zero, Nat.mod_eq_of_lt h] at this
    · rw [hcell]
      exact hall (k + 1) (Nat.succ_lt_succ hk)
  · rintro ⟨hfirst, hrest⟩ k hk
    cases k with
    | zero => rwa [Nat.add_zero, Nat.mod_eq_of_lt h]
    | succ k =>
      rw [← hcell]
      exact hrest k (Nat.lt_of_succ_lt_succ hk)

/-- The bytes from `i` on. -/
theorem range_map_succ (buf : Nat → UInt8) (i n : Nat) :
    ((List.range (n + 1)).map fun k => buf (i + k)) = buf i :: (List.range n).map fun k => buf (i + 1 + k) := by
  rw [List.range_succ_eq_map, List.map_cons, List.map_map]
  congr 1
  apply List.map_congr_left
  intro k _
  show buf (i + (k + 1)) = buf (i + 1 + k)
  rw [Nat.add_assoc, Nat.add_comm 1 k]

/-- As many bytes as there is room for are put into the pipe, unless one of their cells is outside of the page. -/
theorem pushLoop_spec (buf : Nat → UInt8) (i m : Nat) (hcounters : p.Counters) (hsize : p.size < 2 ^ 32) :
    pushLoop buf i p m =
      if InPage p.size p.nwrite (min m (p.size - p.ring.count (2 ^ 32))) then
        .ok (p.withRing (p.ring.pushAll (2 ^ 32) p.size
          ((List.range (min m (p.size - p.ring.count (2 ^ 32)))).map fun k => buf (i + k))),
          i + min m (p.size - p.ring.count (2 ^ 32)))
      else .error .outside := by
  induction m generalizing p i with
  | zero =>
    rw [Nat.zero_min, if_pos inPage_zero]
    rfl
  | succ m ih =>
    unfold pushLoop
    by_cases hfull : p.ring.count (2 ^ 32) ≥ p.size
    · rw [if_pos hfull, Nat.sub_eq_zero_of_le hfull, Nat.min_zero, if_pos inPage_zero]
      rfl
    · have hcount : (p.withRing (p.ring.push (2 ^ 32) p.size (buf i))).ring.count (2 ^ 32) = p.ring.count (2 ^ 32) + 1 :=
        RingBuf.count_push (by omega)
      have hpush : (p.withRing (p.ring.push (2 ^ 32) p.size (buf i))).Counters :=
        ⟨hcounters.1, Nat.mod_lt _ (by decide)⟩
      have hmin : min (m + 1) (p.size - p.ring.count (2 ^ 32)) =
          min m (p.size - (p.ring.count (2 ^ 32) + 1)) + 1 := by omega
      have hrest := ih (i + 1) hpush hsize
      rw [hcount, size_withRing] at hrest
      rw [if_neg hfull, hmin]
      rw [if_congr (inPage_succ hcounters.2) rfl rfl]
      by_cases hcell : p.nwrite % p.size < PGSIZE
      · rw [if_neg (Nat.not_le.mpr hcell), hrest]
        split
        · rename_i hin
          rw [if_pos ⟨hcell, hin⟩, range_map_succ, RingBuf.pushAll_cons, Nat.add_assoc, Nat.add_comm 1]
          rfl
        · rename_i hout
          rw [if_neg fun h => hout h.2]
      · rw [if_pos (Nat.not_lt.mp hcell), if_neg fun h => hcell h.1]

/-- As many bytes as are asked for and unread are taken out of the pipe, unless the buffer or one of the cells is
outside of its page. -/
theorem popLoop_spec (hcounters : p.Counters) :
    ((∀ k, k < min m p.unread.length → i + k < PGSIZE) ∧ InPage p.size p.nread (min m p.unread.length) →
      ∃ p', popLoop i p m = .ok (p', p.unread.take (min m p.unread.length)) ∧
        p'.unread = p.unread.drop (min m p.unread.length)) ∧
    (¬((∀ k, k < min m p.unread.length → i + k < PGSIZE) ∧ InPage p.size p.nread (min m p.unread.length)) →
      popLoop i p m = .error .outside) := by
  induction m generalizing p i with
  | zero =>
    rw [Nat.zero_min]
    refine ⟨fun _ => ⟨p, rfl, rfl⟩, fun hout => absurd ⟨fun k hk => ?_, inPage_zero⟩ hout⟩
    exact absurd hk (Nat.not_lt_zero k)
  | succ m ih =>
    unfold popLoop
    by_cases hempty : p.nread = p.nwrite
    · rw [if_pos hempty, hcounters.unread_nil_iff.mp hempty, Nat.min_zero]
      refine ⟨fun _ => ⟨p, rfl, rfl⟩, fun hout => absurd ⟨fun k hk => ?_, inPage_zero⟩ hout⟩
      exact absurd hk (Nat.not_lt_zero k)
    · have hpop : (p.withRing (p.ring.pop (2 ^ 32))).Counters := ⟨Nat.mod_lt _ (by decide), hcounters.2⟩
      have hunread : p.unread = p.data (p.nread % p.size) :: (p.withRing (p.ring.pop (2 ^ 32))).unread :=
        hcounters.bounded.contents_pop hempty
      generalize hrest : (p.withRing (p.ring.pop (2 ^ 32))).unread = rest at hunread
      have hmin : min (m + 1) p.unread.length = min m rest.length + 1 := by
        rw [hunread, List.length_cons]
        omega
      obtain ⟨hin, hout⟩ := ih (i := i + 1) hpop
      rw [hrest] at hin hout
      have hfits : ((∀ k, k < min m rest.length + 1 → i + k < PGSIZE) ∧
          InPage p.size p.nread (min m rest.length + 1)) ↔
            ¬(i ≥ PGSIZE ∨ p.nread % p.size ≥ PGSIZE) ∧ (∀ k, k < min m rest.length → i + 1 + k < PGSIZE) ∧
              InPage p.size ((p.nread + 1) % 2 ^ 32) (min m rest.length) := by
        rw [inPage_succ hcounters.1]
        constructor
        · rintro ⟨hstage, hcell, hcells⟩
          have hfirst := hstage 0 (Nat.succ_pos _)
          refine ⟨by omega, fun k hk => ?_, hcells⟩
          have := hstage (k + 1) (Nat.succ_lt_succ hk)
          omega
        · rintro ⟨hfirst, hstage, hcells⟩
          refine ⟨fun k hk => ?_, by omega, hcells⟩
          cases k with
          | zero => omega
          | succ k =>
            have := hstage k (Nat.lt_of_succ_lt_succ hk)
            omega
      rw [if_neg hempty, hmin, hfits]
      by_cases hfirst : i ≥ PGSIZE ∨ p.nread % p.size ≥ PGSIZE
      · rw [if_pos hfirst]
        exact ⟨fun h => absurd hfirst h.1, fun _ => rfl⟩
      · rw [if_neg hfirst]
        constructor
        · rintro ⟨-, hall⟩
          obtain ⟨p', hrun, hleft⟩ := hin hall
          refine ⟨p', ?_, ?_⟩
          · rw [hrun, hunread]
            rfl
          · rw [hleft, hunread, List.drop_succ_cons]
        · intro hnot
          rw [hout fun hall => hnot ⟨hfirst, hall⟩]
          rfl

end Ring

/-! ## From the file to the pipe -/

section Fill

variable {t : FillTurn} {ts : List FillTurn} {σ : Fill} {f : Found} {fs : List Found} {f₀ : File} {e : FillEnd}
  {sec : Section} {secs : List Section} {x : UInt64}

/-- What a pipe becomes that takes `n` bytes of a turn. -/
def fillSection (c : Content) (t : FillTurn) (σ : Fill) (f : Found) (n : Nat) : Section where
  before := f.pipe
  after := f.pipe.withRing (f.pipe.ring.pushAll (2 ^ 32) f.pipe.size ((List.range n).map (t.buf c σ)))
  bytes := (List.range n).map (t.buf c σ)

theorem chunk_toNat_le : σ.chunk.toNat ≤ 512 ∧ σ.chunk.toNat ≤ σ.remaining.toNat := by
  unfold Fill.chunk
  exact ⟨UInt64.le_iff_toNat_le.mp Std.min_le_right, UInt64.le_iff_toNat_le.mp Std.min_le_left⟩

theorem count_toNat_le : (t.count σ).toNat ≤ σ.chunk.toNat := by
  unfold FillTurn.count
  split
  · exact UInt64.le_iff_toNat_le.mp (t.read.bounded _)
  · exact Nat.zero_le _

/-- A read returns what it has read, and 0 if it fails. -/
theorem read_value : (σ.read t.read).1 = (t.count σ).toNat := by
  have hle := UInt64.le_iff_toNat_le.mp (t.read.bounded σ.chunk)
  have hchunk := (chunk_toNat_le (σ := σ)).1
  unfold Fill.read FillTurn.count
  rw [CopyRange.readat_kernel]
  by_cases hstatus : (t.read.transfer σ.chunk).status = 0
  · rw [if_pos hstatus, if_pos hstatus]
    dsimp only
    rw [CopyRange.toInt_of_le (by omega)]
  · rw [if_neg hstatus, if_neg hstatus]
    rfl

/-- A wait that ends has found room. -/
theorem waitRoom_room (h : waitRoom fs = .ok (.ok f)) : 0 < f.room := by
  induction fs with
  | nil => nomatch h
  | cons g fs ih =>
    unfold waitRoom at h
    split at h
    · split at h
      · nomatch h
      · exact ih h
    · rename_i hroom
      rw [← Except.ok.inj (Except.ok.inj h)]
      unfold Found.room
      omega

/-- How a turn can end. -/
theorem fillTurn_eq :
    fillTurn content t σ =
      if t.count σ = 0 then .ok (.idle (t.behind σ))
      else
        match waitRoom t.found with
        | .error stop => .error stop
        | .ok (.error e) => .ok (.failed e (t.behind σ))
        | .ok (.ok f) =>
          if InPage f.pipe.size f.pipe.nwrite (min (t.count σ).toNat f.room) then
            .ok (if f.room < (t.count σ).toNat then
              .stopped ((t.behind σ).advance f.room) (fillSection content t σ f f.room)
            else .next ((t.behind σ).advance (t.count σ).toNat) (fillSection content t σ f (t.count σ).toNat))
          else .error .outside := by
  unfold fillTurn
  dsimp only
  rw [read_value, if_neg (Int.not_lt.mpr (Int.natCast_nonneg _))]
  by_cases hzero : t.count σ = 0
  · rw [if_pos hzero, if_pos (by rw [hzero]; rfl)]
    rfl
  · have hne : ((t.count σ).toNat : Int) ≠ 0 := by
      intro h
      apply hzero
      rw [← UInt64.toNat_inj]
      exact Int.ofNat.inj h
    rw [if_neg hzero, if_neg hne]
    cases hwait : waitRoom t.found with
    | error stop => rfl
    | ok found =>
      cases found with
      | error e => rfl
      | ok f =>
        have hpush := pushLoop_spec (t.buf content σ) 0 (t.count σ).toNat f.counters f.size_lt
        simp only [Nat.zero_add] at hpush
        show pushLoop (t.buf content σ) 0 f.pipe (Int.toNat ((t.count σ).toNat : Int)) >>= _ = _
        rw [Int.toNat_natCast, hpush]
        show _ = if InPage f.pipe.size f.pipe.nwrite (min (t.count σ).toNat (f.pipe.size - f.pipe.ring.count (2 ^ 32))) then _ else _
        by_cases hin : InPage f.pipe.size f.pipe.nwrite (min (t.count σ).toNat (f.pipe.size - f.pipe.ring.count (2 ^ 32)))
        · rw [if_pos hin, if_pos hin]
          show Except.ok _ = Except.ok _
          congr 1
          by_cases hroom : f.room < (t.count σ).toNat
          · have hmin : min (t.count σ).toNat (f.pipe.size - f.pipe.ring.count (2 ^ 32)) = f.room :=
              Nat.min_eq_right (Nat.le_of_lt hroom)
            rw [hmin, if_pos hroom, if_pos (Int.ofNat_lt.mpr hroom)]
            rfl
          · have hmin : min (t.count σ).toNat (f.pipe.size - f.pipe.ring.count (2 ^ 32)) = (t.count σ).toNat :=
              Nat.min_eq_left (Nat.not_lt.mp hroom)
            rw [hmin, if_neg hroom, if_neg (Int.lt_irrefl _)]
            rfl
        · rw [if_neg hin, if_neg hin]
          rfl

/-- What the loop should come to from here. -/
def FillFine (c : Content) (q : Pointer) (f₀ : File) (σ : Fill) (e : FillEnd) : Prop :=
  if e.error = none ∧ q.copiedOut then
    FromFile c { q with value := σ.readOffset } (moved e.sections).length e.sections ∧
      e.last.copied.toNat < 2 ^ 63 ∧ Advanced 0 f₀ e.last.file
  else e.last.copied = 0

@[simp] theorem moved_nil : moved [] = [] := rfl

@[simp] theorem moved_cons : moved (sec :: secs) = sec.bytes ++ moved secs := rfl

theorem fromFile_nil : FromFile content q 0 [] := by
  refine ⟨fun k hk => absurd hk (Nat.not_lt_zero k), rfl, fun sec hsec => ?_⟩
  nomatch hsec

/-- A loop that ends without a turn. -/
theorem fillFine_idle (hremaining : e.sections = []) (herror : e.error = none) :
    FillFine content q f₀ σ e ↔ EndFits f₀ q e.last.file e.last.copied := by
  unfold FillFine EndFits
  rw [hremaining, herror]
  by_cases hcopy : q.copiedOut
  · rw [if_pos ⟨rfl, hcopy⟩, if_pos hcopy]
    exact and_iff_right fromFile_nil
  · rw [if_neg fun h => hcopy h.2, if_neg hcopy]

/-- The bytes at a position. -/
theorem bytesAt_add (p : UInt64) (m n : Nat) :
    bytesAt content p (m + n) = bytesAt content p m ++ bytesAt content (p + .ofNat m) n := by
  unfold bytesAt
  rw [List.range_add, List.map_append, List.map_map]
  congr 1
  apply List.map_congr_left
  intro k _
  show content.byte (p + .ofNat (m + k)) = content.byte (p + .ofNat m + .ofNat k)
  rw [UInt64.ofNat_add, UInt64.add_assoc]

theorem length_bytesAt (p : UInt64) : (bytesAt content p n).length = n := by
  unfold bytesAt
  rw [List.length_map, List.length_range]

/-- A section with those behind it. -/
theorem fromFile_cons {v : UInt64} (hlength : sec.bytes.length = m) (hrest : (moved secs).length = n) :
    FromFile content { q with value := v } (m + n) (sec :: secs) ↔
      ((∀ k, k < m → (v + .ofNat k).toNat < content.size) ∧ sec.bytes = bytesAt content v m ∧
        sec.after.unread = sec.before.unread ++ sec.bytes) ∧
      FromFile content { q with value := v + .ofNat m } n secs := by
  have hexist : (∀ k, k < m + n → (v + .ofNat k).toNat < content.size) ↔
      (∀ k, k < m → (v + .ofNat k).toNat < content.size) ∧
        ∀ k, k < n → (v + .ofNat m + .ofNat k).toNat < content.size := by
    have hshift : ∀ k, v + .ofNat m + .ofNat k = v + .ofNat (m + k) := fun k => by
      rw [UInt64.ofNat_add, UInt64.add_assoc]
    constructor
    · intro hall
      refine ⟨fun k hk => hall k (by omega), fun k hk => ?_⟩
      rw [hshift]
      exact hall (m + k) (by omega)
    · rintro ⟨hfirst, hbehind⟩ k hk
      by_cases hlt : k < m
      · exact hfirst k hlt
      · have := hbehind (k - m) (by omega)
        rwa [hshift, Nat.add_sub_cancel' (Nat.not_lt.mp hlt)] at this
  have hbytes : moved (sec :: secs) = bytesAt content v (m + n) ↔
      sec.bytes = bytesAt content v m ∧ moved secs = bytesAt content (v + .ofNat m) n := by
    rw [moved_cons, bytesAt_add]
    constructor
    · exact fun h => List.append_inj h (hlength.trans (length_bytesAt v).symm)
    · rintro ⟨hfirst, hbehind⟩
      rw [hfirst, hbehind]
  constructor
  · intro h
    obtain ⟨hin, hin'⟩ := hexist.mp h.exist
    obtain ⟨hfirst, hbehind⟩ := hbytes.mp h.bytes
    exact ⟨⟨hin, hfirst, h.keeps sec List.mem_cons_self⟩, hin', hbehind, fun sec' h' => h.keeps sec' (List.mem_cons_of_mem _ h')⟩
  · rintro ⟨⟨hin, hfirst, hkeep⟩, h⟩
    refine ⟨hexist.mpr ⟨hin, h.exist⟩, hbytes.mpr ⟨hfirst, h.bytes⟩, fun sec' h' => ?_⟩
    obtain rfl | h' := List.mem_cons.mp h'
    · exact hkeep
    · exact h.keeps sec' h'

/-- A section is right if its bytes agree in the ring, and are those of the file. -/
theorem pushFits_iff (hin : InPage f.pipe.size f.pipe.nwrite n) (hroom : n ≤ f.room) :
    PushFits content t σ f n ↔
      (∀ k, k < n → (σ.readOffset + .ofNat k).toNat < content.size) ∧
        (fillSection content t σ f n).bytes = bytesAt content σ.readOffset n ∧
        (fillSection content t σ f n).after.unread =
          (fillSection content t σ f n).before.unread ++ (fillSection content t σ f n).bytes := by
  have hsize := f.size_lt
  have hfit : f.pipe.ring.count (2 ^ 32) + ((List.range n).map (t.buf content σ)).length < 2 ^ 32 := by
    have hcount : f.pipe.ring.count (2 ^ 32) < 2 ^ 32 := Nat.mod_lt _ (by decide)
    unfold Found.room at hroom
    rw [List.length_map, List.length_range]
    omega
  have hkeep : (fillSection content t σ f n).after.unread =
      (fillSection content t σ f n).before.unread ++ (fillSection content t σ f n).bytes ↔
        RingBuf.Agree (2 ^ 32) f.pipe.size f.pipe.nread (f.pipe.unread ++ (List.range n).map (t.buf content σ)) :=
    f.counters.bounded.contents_pushAll_iff hfit
  have hbytes : (fillSection content t σ f n).bytes = bytesAt content σ.readOffset n ↔
      ∀ k, k < n → t.buf content σ k = content.byte (σ.readOffset + .ofNat k) := by
    unfold fillSection bytesAt
    rw [List.map_inj_left]
    simp only [List.mem_range]
  rw [hkeep, hbytes]
  constructor
  · exact fun h => ⟨fun k hk => (h.right k hk).1, fun k hk => (h.right k hk).2, h.agree⟩
  · exact fun h => ⟨hin, h.2.2, fun k hk => ⟨h.1 k hk, h.2.1 k hk⟩⟩

/-- The counts of a loop. -/
structure FillTotal (σ : Fill) (e : FillEnd) : Prop where
  copied : e.last.copied = σ.copied + .ofNat (moved e.sections).length
  offset : e.last.readOffset = σ.readOffset + .ofNat (moved e.sections).length
  le : (moved e.sections).length ≤ σ.remaining.toNat
  negative : ∀ v, e.error = some v → v < 0

theorem length_fillSection : (fillSection content t σ f n).bytes.length = n := by
  unfold fillSection
  rw [List.length_map, List.length_range]

/-- A turn with the loop behind it. -/
theorem FillTotal.cons (h : FillTotal ((t.behind σ).advance n) e) (hn : n ≤ σ.remaining.toNat) :
    FillTotal σ { e with sections := fillSection content t σ f n :: e.sections } := by
  have hle := h.le
  have hremaining : ((t.behind σ).advance n).remaining.toNat = σ.remaining.toNat - n := by
    unfold Fill.advance FillTurn.behind
    have := σ.remaining.toNat_lt
    rw [UInt64.toNat_sub_of_le, UInt64.toNat_ofNat', Nat.mod_eq_of_lt (by omega)]
    rw [UInt64.le_iff_toNat_le, UInt64.toNat_ofNat', Nat.mod_eq_of_lt (by omega)]
    exact hn
  rw [hremaining] at hle
  refine ⟨?_, ?_, ?_, h.negative⟩
  · rw [h.copied, moved_cons, List.length_append, length_fillSection, UInt64.ofNat_add, ← UInt64.add_assoc]
    rfl
  · rw [h.offset, moved_cons, List.length_append, length_fillSection, UInt64.ofNat_add, ← UInt64.add_assoc]
    rfl
  · rw [moved_cons, List.length_append, length_fillSection]
    omega

theorem FillTotal.single (hn : n ≤ σ.remaining.toNat) :
    FillTotal σ ⟨none, (t.behind σ).advance n, [fillSection content t σ f n]⟩ := by
  have hnil : FillTotal ((t.behind σ).advance n) ⟨none, (t.behind σ).advance n, []⟩ :=
    ⟨(UInt64.add_zero _).symm, (UInt64.add_zero _).symm, Nat.zero_le _, nofun⟩
  exact hnil.cons hn

/-- A turn that moves something, and the loop behind it. -/
theorem fillFine_cons (htotal : FillTotal ((t.behind σ).advance n) e) (hin : InPage f.pipe.size f.pipe.nwrite n)
    (hroom : n ≤ f.room) (hn : n ≤ σ.remaining.toNat) (hpos : 0 < n)
    (hsum : σ.copied.toNat + σ.remaining.toNat < 2 ^ 64) :
    FillFine content q f₀ σ { e with sections := fillSection content t σ f n :: e.sections } ↔
      PushFits content t σ f n ∧ FillFine content q f₀ ((t.behind σ).advance n) e := by
  have hall : FillTotal σ { e with sections := fillSection content t σ f n :: e.sections } := htotal.cons hn
  unfold FillFine
  dsimp only
  by_cases hend : e.error = none ∧ q.copiedOut
  · rw [if_pos hend, if_pos hend, moved_cons, List.length_append, length_fillSection,
      fromFile_cons length_fillSection rfl, pushFits_iff hin hroom, and_assoc]
    rfl
  · rw [if_neg hend, if_neg hend]
    have hmoved : e.last.copied ≠ 0 := by
      have hcopied := hall.copied
      have hle := hall.le
      rw [moved_cons, List.length_append, length_fillSection] at hcopied hle
      intro hzero
      rw [show ({ e with sections := fillSection content t σ f n :: e.sections } : FillEnd).last = e.last from rfl, hzero,
        ← UInt64.toNat_inj, UInt64.toNat_add, UInt64.toNat_ofNat'] at hcopied
      simp only [UInt64.toNat_zero] at hcopied
      omega
    exact ⟨fun h => absurd h hmoved, fun h => h.2⟩

theorem count_le_remaining : (t.count σ).toNat ≤ σ.remaining.toNat :=
  Nat.le_trans count_toNat_le chunk_toNat_le.2

theorem waitRoom_negative {v : Int} (h : waitRoom fs = .ok (.error v)) : v < 0 := by
  induction fs with
  | nil => nomatch h
  | cons g fs ih =>
    unfold waitRoom at h
    split at h
    · split at h
      · rw [← Except.error.inj (Except.ok.inj h)]
        decide
      · exact ih h
    · nomatch Except.ok.inj h

/-- The loop, turn by turn. -/
theorem fillLoop_cons (content : Content) (t : FillTurn) (ts : List FillTurn) (σ : Fill) :
    fillLoop content (t :: ts) σ =
      if σ.remaining = 0 then .ok ⟨none, σ, []⟩
      else if t.count σ = 0 then .ok ⟨none, t.behind σ, []⟩
      else
        match waitRoom t.found with
        | .error stop => .error stop
        | .ok (.error v) => .ok ⟨some v, t.behind σ, []⟩
        | .ok (.ok f) =>
          if InPage f.pipe.size f.pipe.nwrite (min (t.count σ).toNat f.room) then
            if f.room < (t.count σ).toNat then
              .ok ⟨none, (t.behind σ).advance f.room, [fillSection content t σ f f.room]⟩
            else
              (fillLoop content ts ((t.behind σ).advance (t.count σ).toNat)).map fun e =>
                { e with sections := fillSection content t σ f (t.count σ).toNat :: e.sections }
          else .error .outside := by
  rw [fillLoop, fillTurn_eq]
  by_cases hremaining : σ.remaining = 0
  · rw [if_pos hremaining, if_pos hremaining]
  · rw [if_neg hremaining, if_neg hremaining]
    by_cases hcount : t.count σ = 0
    · rw [if_pos hcount, if_pos hcount]
    · rw [if_neg hcount, if_neg hcount]
      cases waitRoom t.found with
      | error stop => rfl
      | ok found =>
        cases found with
        | error v => rfl
        | ok f =>
          dsimp only
          by_cases hin : InPage f.pipe.size f.pipe.nwrite (min (t.count σ).toNat f.room)
          · rw [if_pos hin, if_pos hin]
            by_cases hroom : f.room < (t.count σ).toNat
            · rw [if_pos hroom, if_pos hroom]
            · rw [if_neg hroom, if_neg hroom]
          · rw [if_neg hin, if_neg hin]

theorem map_eq_ok {ε α β : Type} {f : α → β} {x : Except ε α} {b : β} : x.map f = .ok b ↔ ∃ a, x = .ok a ∧ f a = b := by
  cases x with
  | error stop => exact ⟨nofun, nofun⟩
  | ok a =>
    constructor
    · exact fun h => ⟨a, rfl, Except.ok.inj h⟩
    · rintro ⟨a', ha, rfl⟩
      rw [Except.ok.inj ha]
      rfl

theorem exists_ok_iff {ε α : Type} {x : Except ε α} {a : α} {P : α → Prop} (h : x = .ok a) :
    (∃ b, x = .ok b ∧ P b) ↔ P a := by
  constructor
  · rintro ⟨b, hb, hP⟩
    rw [Except.ok.inj (h.symm.trans hb)]
    exact hP
  · exact fun hP => ⟨a, h, hP⟩

theorem FillTotal.idle {file : File} {v : Option Int} (hv : ∀ x, v = some x → x < 0) :
    FillTotal σ ⟨v, { σ with file }, []⟩ :=
  ⟨(UInt64.add_zero _).symm, (UInt64.add_zero _).symm, Nat.zero_le _, hv⟩

/-- The loop counts what it moves. -/
theorem fillLoop_total (h : fillLoop content ts σ = .ok e) : FillTotal σ e := by
  induction ts generalizing σ e with
  | nil =>
    unfold fillLoop at h
    rw [← Except.ok.inj h]
    split
    · exact .idle nofun
    · exact .idle nofun
  | cons t ts ih =>
    rw [fillLoop_cons] at h
    split at h
    · rw [← Except.ok.inj h]
      exact .idle nofun
    · split at h
      · rw [← Except.ok.inj h]
        exact .idle nofun
      · split at h
        · nomatch h
        · rename_i v hwait
          rw [← Except.ok.inj h]
          apply FillTotal.idle
          intro x hx
          rw [← Option.some.inj hx]
          exact waitRoom_negative hwait
        · split at h
          · split at h
            · rename_i hroom
              rw [← Except.ok.inj h]
              exact .single (Nat.le_trans (Nat.le_of_lt hroom) count_le_remaining)
            · obtain ⟨e', he', rfl⟩ := map_eq_ok.mp h
              exact (ih he').cons count_le_remaining
          · nomatch h

theorem waitRoom_never {stop : Stop} (h : waitRoom fs = .error stop) : stop = .never := by
  induction fs with
  | nil => exact (Except.error.inj h).symm
  | cons g fs ih =>
    unfold waitRoom at h
    split at h
    · split at h
      · nomatch h
      · exact ih h
    · nomatch h

theorem advance_sum (hn : n ≤ σ.remaining.toNat) (hsum : σ.copied.toNat + σ.remaining.toNat < 2 ^ 64) :
    ((t.behind σ).advance n).copied.toNat + ((t.behind σ).advance n).remaining.toNat < 2 ^ 64 := by
  have hword : (UInt64.ofNat n).toNat = n := by
    rw [UInt64.toNat_ofNat', Nat.mod_eq_of_lt (by omega)]
  have hle : UInt64.ofNat n ≤ σ.remaining := by
    rw [UInt64.le_iff_toNat_le, hword]
    exact hn
  show (σ.copied + .ofNat n).toNat + (σ.remaining - .ofNat n).toNat < 2 ^ 64
  rw [UInt64.toNat_sub_of_le _ _ hle, UInt64.toNat_add, hword]
  omega

/-- The loop comes to what it should exactly if its turns fit. -/
theorem fillLoop_fits_iff (hback : fillLoop content ts σ ≠ .error .never)
    (hsum : σ.copied.toNat + σ.remaining.toNat < 2 ^ 64) :
    (∃ e, fillLoop content ts σ = .ok e ∧ FillFine content q f₀ σ e) ↔ FillFits content q f₀ ts σ := by
  induction ts generalizing σ with
  | nil =>
    rw [fillLoop, exists_ok_iff rfl, fillFine_idle rfl rfl]
    unfold FillFits
    split
    · rfl
    · rfl
  | cons t ts ih =>
    unfold FillFits
    have hloop := fillLoop_cons content t ts σ
    rw [hloop] at hback
    by_cases hremaining : σ.remaining = 0
    · rw [if_pos hremaining] at hloop
      rw [if_pos hremaining, exists_ok_iff hloop]
      exact fillFine_idle rfl rfl
    · rw [if_neg hremaining] at hloop hback
      rw [if_neg hremaining]
      by_cases hcount : t.count σ = 0
      · rw [if_pos hcount] at hloop
        rw [if_pos hcount, exists_ok_iff hloop]
        exact fillFine_idle rfl rfl
      · rw [if_neg hcount] at hloop hback
        rw [if_neg hcount]
        cases hwait : waitRoom t.found with
        | error stop =>
          rw [hwait, waitRoom_never hwait] at hback
          exact absurd rfl hback
        | ok found =>
          rw [hwait] at hloop hback
          cases found with
          | error v =>
            rw [exists_ok_iff hloop]
            unfold FillFine
            rw [if_neg fun h => nomatch h.1]
            rfl
          | ok f =>
            have hpos := waitRoom_room hwait
            have hle : (t.count σ).toNat ≤ σ.remaining.toNat := count_le_remaining
            have hcount' : 0 < (t.count σ).toNat := by
              apply Nat.pos_of_ne_zero
              rwa [ne_eq, ← UInt64.toNat_zero, UInt64.toNat_inj]
            dsimp only at hloop hback ⊢
            by_cases hin : InPage f.pipe.size f.pipe.nwrite (min (t.count σ).toNat f.room)
            · rw [if_pos hin] at hloop hback
              by_cases hroom : f.room < (t.count σ).toNat
              · -- the pipe is full behind the turn
                rw [if_pos hroom] at hloop
                have hmin : min (t.count σ).toNat f.room = f.room := Nat.min_eq_right (Nat.le_of_lt hroom)
                rw [hmin] at hin
                rw [if_pos hroom, hmin, exists_ok_iff hloop]
                rw [fillFine_cons (e := ⟨none, (t.behind σ).advance f.room, []⟩) (.idle nofun) hin (Nat.le_refl _)
                  (by omega) hpos hsum]
                exact and_congr_right fun _ => fillFine_idle rfl rfl
              · rw [if_neg hroom] at hloop hback
                have hmin : min (t.count σ).toNat f.room = (t.count σ).toNat := Nat.min_eq_left (Nat.not_lt.mp hroom)
                rw [hmin] at hin
                have hback' : fillLoop content ts ((t.behind σ).advance (t.count σ).toNat) ≠ .error .never := by
                  intro h
                  rw [h] at hback
                  exact hback rfl
                have hrest := ih hback' (advance_sum hle hsum)
                rw [if_neg hroom, hmin, ← hrest, hloop]
                constructor
                · rintro ⟨e, he, hfine⟩
                  obtain ⟨e', he', rfl⟩ := map_eq_ok.mp he
                  have hsplit := (fillFine_cons (fillLoop_total he') hin (Nat.not_lt.mp hroom) hle hcount' hsum).mp hfine
                  exact ⟨hsplit.1, e', he', hsplit.2⟩
                · rintro ⟨hpush, e', he', hfine⟩
                  refine ⟨_, map_eq_ok.mpr ⟨e', he', rfl⟩, ?_⟩
                  exact (fillFine_cons (fillLoop_total he') hin (Nat.not_lt.mp hroom) hle hcount' hsum).mpr ⟨hpush, hfine⟩
            · rw [if_neg hin] at hloop
              rw [hloop]
              exact iff_of_false (fun h => nomatch h.choose_spec.1) fun h => hin h.1.inPage

end Fill

/-! ## From the pipe to the file -/

section Drain

variable {t : DrainTurn} {ts : List DrainTurn} {σ : Drain} {f₀ : File} {e : DrainEnd} {sec : Section} {secs : List Section}
  {chunkSize v w : UInt64} {f : UInt64 → UInt8} {data : UInt64 → UInt8}

theorem taken_lt (chunkSize : UInt64) (t : DrainTurn) (σ : Drain) : t.taken chunkSize σ < 2 ^ 32 := by
  have hcount : t.found.pipe.unread.length < 2 ^ 32 := by
    rw [Pipe.unread_eq_contents, RingBuf.length_contents]
    exact Nat.mod_lt _ (by decide)
  unfold DrainTurn.taken
  omega

theorem length_bytes : (t.bytes chunkSize σ).length = t.taken chunkSize σ := by
  unfold DrainTurn.bytes DrainTurn.taken
  rw [List.length_take]
  omega

theorem taken_toNat : (UInt64.ofNat (t.taken chunkSize σ)).toNat = t.taken chunkSize σ := by
  have := taken_lt chunkSize t σ
  rw [UInt64.toNat_ofNat', Nat.mod_eq_of_lt (by omega)]

/-- How a turn starts that finds bytes in the pipe. -/
theorem drainTurn_eq (chunkSize : UInt64) (σ : Drain) (hsome : t.found.pipe.nread ≠ t.found.pipe.nwrite) :
    (t.taken chunkSize σ ≤ PGSIZE ∧ InPage t.found.pipe.size t.found.pipe.nread (t.taken chunkSize σ) →
      ∃ sec : Section, sec.bytes = t.bytes chunkSize σ ∧ sec.before.unread = sec.bytes ++ sec.after.unread ∧
        drainTurn chunkSize t σ = .ok (if t.taken chunkSize σ = 0 then .idle else drainWrite t σ sec)) ∧
    (¬(t.taken chunkSize σ ≤ PGSIZE ∧ InPage t.found.pipe.size t.found.pipe.nread (t.taken chunkSize σ)) →
      drainTurn chunkSize t σ = .error .outside) := by
  have hpop := popLoop_spec (p := t.found.pipe) (i := 0) (m := (σ.chunk chunkSize).toNat) t.found.counters
  have hstage : (∀ k, k < t.taken chunkSize σ → 0 + k < PGSIZE) ↔ t.taken chunkSize σ ≤ PGSIZE := by
    constructor
    · intro h
      by_contra hout
      have := h PGSIZE (by omega)
      omega
    · intro h k hk
      omega
  have hempty : t.bytes chunkSize σ = [] ↔ t.taken chunkSize σ = 0 := by
    rw [← List.length_eq_zero_iff, length_bytes]
  unfold drainTurn
  dsimp only
  rw [if_neg hsome]
  change ((∀ k, k < t.taken chunkSize σ → 0 + k < PGSIZE) ∧ InPage _ _ (t.taken chunkSize σ) → _) ∧
    (¬((∀ k, k < t.taken chunkSize σ → 0 + k < PGSIZE) ∧ InPage _ _ (t.taken chunkSize σ)) → _) at hpop
  rw [hstage] at hpop
  constructor
  · intro hfits
    obtain ⟨p', hrun, hleft⟩ := hpop.1 hfits
    generalize hgot : t.bytes chunkSize σ = got at hempty
    refine ⟨⟨t.found.pipe, p', got⟩, rfl, ?_, ?_⟩
    · show t.found.pipe.unread = got ++ p'.unread
      rw [hleft, ← hgot]
      exact (List.take_append_drop _ _).symm
    · change popLoop _ _ _ = .ok (p', t.bytes chunkSize σ) at hrun
      rw [hrun, hgot]
      show Except.ok (if got = [] then _ else _) = _
      rw [if_congr hempty rfl rfl]
  · intro hnot
    rw [hpop.2 hnot]
    rfl

/-- How the write of a turn ends. -/
theorem drainWrite_eq (hbytes : sec.bytes = t.bytes chunkSize σ) (hstage : t.taken chunkSize σ ≤ PGSIZE) :
    (0 ≤ toInt σ.writeOffset ∧ (t.transfer chunkSize σ).status = 0 →
      drainWrite t σ sec = .next (t.behind chunkSize σ) sec) ∧
    (¬(0 ≤ toInt σ.writeOffset ∧ (t.transfer chunkSize σ).status = 0) →
      ∃ v σ', drainWrite t σ sec = .failed v σ' sec ∧ v < 0) := by
  have hle := UInt64.le_iff_toNat_le.mp (t.write.bounded (.ofNat (t.taken chunkSize σ)))
  have hpositive := t.write.positive (.ofNat (t.taken chunkSize σ))
  rw [taken_toNat] at hle
  have hvalue : toInt (t.transfer chunkSize σ).moved = (t.transfer chunkSize σ).moved.toNat :=
    CopyRange.toInt_of_le (Nat.le_trans hle hstage)
  have hwrite := CopyRange.write_kernel (moveTo σ.file σ.writeOffset) (.ofNat (t.taken chunkSize σ)) ⟨t.write.transfer, true⟩
  unfold drainWrite
  rw [hbytes, length_bytes, Positional.vfsExt4Lseek_set]
  dsimp only
  by_cases hseek : toInt σ.writeOffset < 0
  · rw [if_pos hseek]
    exact ⟨fun h => absurd hseek (Int.not_lt.mpr h.1), fun _ => ⟨_, _, rfl, by decide⟩⟩
  · rw [if_neg hseek]
    by_cases hstatus : (t.transfer chunkSize σ).status = 0
    · have hfst : ¬((moveTo σ.file σ.writeOffset).vfsExt4Write (.ofNat (t.taken chunkSize σ))
          (.kernel ⟨t.write.transfer, true⟩)).1 < 0 := by
        rw [hwrite]
        change ¬(if (t.transfer chunkSize σ).status = 0 then _ else _ : Int × File).1 < 0
        rw [if_pos hstatus]
        dsimp only
        change ¬toInt (t.transfer chunkSize σ).moved < 0
        rw [hvalue]
        omega
      rw [if_neg hfst]
      exact ⟨fun _ => rfl, fun h => absurd ⟨Int.not_lt.mp hseek, hstatus⟩ h⟩
    · have hfst : ((moveTo σ.file σ.writeOffset).vfsExt4Write (.ofNat (t.taken chunkSize σ))
          (.kernel ⟨t.write.transfer, true⟩)).1 < 0 := by
        rw [hwrite]
        change (if (t.transfer chunkSize σ).status = 0 then _ else _ : Int × File).1 < 0
        rw [if_neg hstatus]
        change 0 ≤ (t.transfer chunkSize σ).status at hpositive
        change -(t.transfer chunkSize σ).status < 0
        omega
      rw [if_pos hfst]
      exact ⟨fun h => absurd h.2 hstatus, fun _ => ⟨_, _, rfl, hfst⟩⟩

/-- The loop, turn by turn. -/
theorem drainLoop_cons (chunkSize : UInt64) (ts : List DrainTurn) (hsome : t.found.pipe.nread ≠ t.found.pipe.nwrite) (hremaining : σ.remaining ≠ 0) :
    (t.taken chunkSize σ = 0 → drainLoop chunkSize (t :: ts) σ = .ok ⟨.update, σ, []⟩) ∧
    (t.taken chunkSize σ ≠ 0 →
      (¬(t.taken chunkSize σ ≤ PGSIZE ∧ InPage t.found.pipe.size t.found.pipe.nread (t.taken chunkSize σ)) →
        drainLoop chunkSize (t :: ts) σ = .error .outside) ∧
      (t.taken chunkSize σ ≤ PGSIZE ∧ InPage t.found.pipe.size t.found.pipe.nread (t.taken chunkSize σ) →
        ∃ sec : Section, sec.bytes = t.bytes chunkSize σ ∧ sec.before.unread = sec.bytes ++ sec.after.unread ∧
          (0 ≤ toInt σ.writeOffset ∧ (t.transfer chunkSize σ).status = 0 →
            drainLoop chunkSize (t :: ts) σ = (drainLoop chunkSize ts (t.behind chunkSize σ)).map fun e =>
              { e with sections := sec :: e.sections }) ∧
          (¬(0 ≤ toInt σ.writeOffset ∧ (t.transfer chunkSize σ).status = 0) →
            ∃ v σ', drainLoop chunkSize (t :: ts) σ = .ok ⟨.failed v, σ', [sec]⟩ ∧ v < 0))) := by
  obtain ⟨hin, hout⟩ := drainTurn_eq chunkSize σ hsome
  rw [drainLoop, if_neg hremaining]
  constructor
  · intro htaken
    obtain ⟨sec, -, -, hturn⟩ := hin (by rw [htaken]; exact ⟨Nat.zero_le _, inPage_zero⟩)
    rw [hturn, if_pos htaken]
  · intro htaken
    constructor
    · intro hnot
      rw [hout hnot]
    · intro hfits
      obtain ⟨sec, hbytes, hkeep, hturn⟩ := hin hfits
      obtain ⟨hnext, hfail⟩ := drainWrite_eq hbytes hfits.1
      refine ⟨sec, hbytes, hkeep, fun hok => ?_, fun hno => ?_⟩
      · rw [hturn, if_neg htaken, hnext hok]
      · obtain ⟨v, σ', hwrite, hv⟩ := hfail hno
        refine ⟨v, σ', ?_, hv⟩
        rw [hturn, if_neg htaken, hwrite]

/-- The counts of a loop that has not failed, and what it leaves; a loop that fails has moved something. -/
structure DrainTotal (σ : Drain) (e : DrainEnd) : Prop where
  copied : (∀ v, e.exit ≠ .failed v) → e.last.copied = σ.copied + .ofNat (moved e.sections).length
  offset : (∀ v, e.exit ≠ .failed v) → e.last.writeOffset = σ.writeOffset + .ofNat (moved e.sections).length
  le : (moved e.sections).length ≤ σ.remaining.toNat
  frame : (∀ v, e.exit ≠ .failed v) → ∀ q, ¬q - σ.writeOffset < .ofNat (moved e.sections).length →
    e.last.content.byte q = σ.content.byte q
  still : moved e.sections = [] → e.sections = [] ∧ e.last = σ
  failed : ∀ v, e.exit = .failed v → v < 0 ∧ moved e.sections ≠ []

theorem DrainTotal.stop {exit : DrainExit} (hexit : ∀ v, exit ≠ .failed v) : DrainTotal σ ⟨exit, σ, []⟩ where
  copied _ := (UInt64.add_zero _).symm
  offset _ := (UInt64.add_zero _).symm
  le := Nat.zero_le _
  frame _ _ _ := rfl
  still _ := ⟨rfl, rfl⟩
  failed v h := absurd h (hexit v)

theorem taken_le (chunkSize : UInt64) (t : DrainTurn) (σ : Drain) : t.taken chunkSize σ ≤ σ.remaining.toNat := by
  unfold DrainTurn.taken Drain.chunk
  have hint := Positional.toInt_le (min σ.remaining chunkSize)
  have hmin : (min σ.remaining chunkSize).toNat ≤ σ.remaining.toNat := UInt64.le_iff_toNat_le.mp Std.min_le_left
  omega

theorem behind_remaining : (t.behind chunkSize σ).remaining.toNat = σ.remaining.toNat - t.taken chunkSize σ := by
  have hle := taken_le chunkSize t σ
  show (σ.remaining - .ofNat (t.taken chunkSize σ)).toNat = _
  rw [UInt64.toNat_sub_of_le, taken_toNat]
  rw [UInt64.le_iff_toNat_le, taken_toNat]
  exact hle

/-- The bytes outside of what a turn has taken are unchanged. -/
theorem behind_byte {q : UInt64} (h : ¬q - σ.writeOffset < .ofNat (t.taken chunkSize σ)) :
    (t.behind chunkSize σ).content.byte q = σ.content.byte q := by
  apply overlay_of_not_lt
  intro hlt
  exact h (UInt64.lt_of_lt_of_le hlt (t.write.bounded _))

theorem DrainTotal.cons (h : DrainTotal (t.behind chunkSize σ) e) (hbytes : sec.bytes = t.bytes chunkSize σ)
    (htaken : t.taken chunkSize σ ≠ 0) : DrainTotal σ { e with sections := sec :: e.sections } := by
  have hle := h.le
  have hturn := taken_le chunkSize t σ
  rw [behind_remaining] at hle
  have hlength : (moved (sec :: e.sections)).length = t.taken chunkSize σ + (moved e.sections).length := by
    rw [moved_cons, List.length_append, hbytes, length_bytes]
  have hsome : moved (sec :: e.sections) ≠ [] := by
    intro hnil
    rw [hnil] at hlength
    simp only [List.length_nil] at hlength
    omega
  have := σ.remaining.toNat_lt
  refine ⟨?_, ?_, ?_, ?_, fun hnil => absurd hnil hsome, fun v hv => ⟨(h.failed v hv).1, hsome⟩⟩
  · intro hexit
    rw [h.copied hexit, hlength, UInt64.ofNat_add, ← UInt64.add_assoc]
    rfl
  · intro hexit
    rw [h.offset hexit, hlength, UInt64.ofNat_add, ← UInt64.add_assoc]
    rfl
  · rw [hlength]
    omega
  · intro hexit q hq
    rw [hlength, UInt64.ofNat_add, sub_lt_add_iff] at hq
    · rw [h.frame hexit q fun hlt => hq (.inr hlt), behind_byte fun hlt => hq (.inl hlt)]
    · rw [taken_toNat, UInt64.toNat_ofNat', Nat.mod_eq_of_lt (by omega)]
      omega

/-- The loop counts what it moves. -/
theorem drainLoop_total (h : drainLoop chunkSize ts σ = .ok e) : DrainTotal σ e := by
  induction ts generalizing σ e with
  | nil =>
    unfold drainLoop at h
    rw [← Except.ok.inj h]
    apply DrainTotal.stop
    split
    · nofun
    · nofun
  | cons t ts ih =>
    by_cases hremaining : σ.remaining = 0
    · rw [drainLoop, if_pos hremaining] at h
      rw [← Except.ok.inj h]
      exact .stop nofun
    · by_cases hempty : t.found.pipe.nread = t.found.pipe.nwrite
      · rw [drainLoop, if_neg hremaining, drainTurn, if_pos hempty] at h
        rw [← Except.ok.inj h]
        exact .stop nofun
      · obtain ⟨hidle, hmore⟩ := drainLoop_cons chunkSize ts hempty hremaining
        by_cases htaken : t.taken chunkSize σ = 0
        · rw [hidle htaken] at h
          rw [← Except.ok.inj h]
          exact .stop nofun
        · obtain ⟨hout, hin⟩ := hmore htaken
          by_cases hpages : t.taken chunkSize σ ≤ PGSIZE ∧ InPage t.found.pipe.size t.found.pipe.nread (t.taken chunkSize σ)
          · obtain ⟨sec, hbytes, -, hnext, hfail⟩ := hin hpages
            by_cases hok : 0 ≤ toInt σ.writeOffset ∧ (t.transfer chunkSize σ).status = 0
            · rw [hnext hok] at h
              obtain ⟨e', he', rfl⟩ := map_eq_ok.mp h
              exact (ih he').cons hbytes htaken
            · obtain ⟨v, σ', hrun, hv⟩ := hfail hok
              rw [hrun] at h
              rw [← Except.ok.inj h]
              have hlength : (moved [sec]).length = t.taken chunkSize σ := by
                rw [moved_cons, moved_nil, List.append_nil, hbytes, length_bytes]
              have hsome : moved [sec] ≠ [] := by
                intro hnil
                rw [hnil] at hlength
                exact htaken hlength.symm
              refine ⟨fun hexit => absurd rfl (hexit v), fun hexit => absurd rfl (hexit v), ?_,
                fun hexit => absurd rfl (hexit v), fun hnil => absurd hnil hsome, fun w hw => ?_⟩
              · rw [hlength]
                exact taken_le _ _ _
              · rw [← DrainExit.failed.inj hw]
                exact ⟨hv, hsome⟩
          · rw [hout hpages] at h
            nomatch h

/-- What the loop should come to from here. -/
def DrainFine (q : Pointer) (f₀ : File) (σ : Drain) (e : DrainEnd) : Prop :=
  match e.exit with
  | .failed _ => False
  | .empty => e.last.copied = 0
  | .update =>
    if q.copiedOut then
      FromPipe σ.content e.last.content { q with value := σ.writeOffset } (moved e.sections).length e.sections ∧
        e.last.copied.toNat < 2 ^ 63 ∧ Advanced 0 f₀ e.last.file
    else e.last.copied = 0

theorem fromPipe_nil : FromPipe σ.content σ.content q 0 [] := by
  refine ⟨rfl, ?_, fun sec hsec => ?_⟩
  · exact overlay_zero.symm
  · nomatch hsec

/-- A loop that ends in front of the update without a turn. -/
theorem drainFine_update : DrainFine q f₀ σ ⟨.update, σ, []⟩ ↔ EndFits f₀ q σ.file σ.copied := by
  unfold DrainFine EndFits
  dsimp only
  by_cases hcopy : q.copiedOut
  · rw [if_pos hcopy, if_pos hcopy]
    exact and_iff_right fromPipe_nil
  · rw [if_neg hcopy, if_neg hcopy]

/-- The buffer with two lists of bytes in it. -/
theorem staged_append_left {xs ys : List UInt8} {k : UInt64} (h : k.toNat < xs.length) :
    staged (xs ++ ys) k = staged xs k := by
  unfold staged
  rw [List.getD_append _ _ _ _ h]

theorem staged_append_right (xs ys : List UInt8) {k : UInt64} (hfit : xs.length + k.toNat < 2 ^ 64) :
    staged (xs ++ ys) (.ofNat xs.length + k) = staged ys k := by
  have hsum : (UInt64.ofNat xs.length + k).toNat = xs.length + k.toNat := by
    rw [UInt64.toNat_add, UInt64.toNat_ofNat']
    omega
  unfold staged
  rw [hsum, List.getD_append_right _ _ _ _ (Nat.le_add_right _ _), Nat.add_sub_cancel_left]

/-- The bytes of the file behind a turn and the loop behind that. -/
theorem bytes_cons_iff (htotal : DrainTotal (t.behind chunkSize σ) e) (hexit : ∀ v, e.exit ≠ .failed v)
    (hbytes : sec.bytes = t.bytes chunkSize σ) :
    e.last.content.byte = overlay σ.content.byte σ.writeOffset (.ofNat (moved (sec :: e.sections)).length)
        (staged (moved (sec :: e.sections))) ↔
      (∀ k, (t.transfer chunkSize σ).moved ≤ k → k < .ofNat (t.taken chunkSize σ) →
        σ.content.byte (σ.writeOffset + k) = staged (t.bytes chunkSize σ) k) ∧
      e.last.content.byte = overlay (t.behind chunkSize σ).content.byte (t.behind chunkSize σ).writeOffset
        (.ofNat (moved e.sections).length) (staged (moved e.sections)) := by
  have hle := htotal.le
  have hturn := taken_le chunkSize t σ
  rw [behind_remaining] at hle
  have hremaining := σ.remaining.toNat_lt
  have hlength : (moved (sec :: e.sections)).length = t.taken chunkSize σ + (moved e.sections).length := by
    rw [moved_cons, List.length_append, hbytes, length_bytes]
  have hword : (UInt64.ofNat (moved e.sections).length).toNat = (moved e.sections).length := by
    rw [UInt64.toNat_ofNat', Nat.mod_eq_of_lt (by omega)]
  have hfit : (UInt64.ofNat (t.taken chunkSize σ)).toNat + (UInt64.ofNat (moved e.sections).length).toNat < 2 ^ 64 := by
    rw [taken_toNat, hword]
    omega
  have hfirst : overlay σ.content.byte σ.writeOffset (.ofNat (t.taken chunkSize σ)) (staged (moved (sec :: e.sections))) =
      overlay σ.content.byte σ.writeOffset (.ofNat (t.taken chunkSize σ)) (staged (t.bytes chunkSize σ)) := by
    refine overlay_congr (fun _ _ => rfl) fun k hk => ?_
    rw [moved_cons, hbytes, staged_append_left]
    rw [length_bytes, ← taken_toNat]
    exact UInt64.lt_iff_toNat_lt.mp hk
  have hsecond : overlay (t.behind chunkSize σ).content.byte (σ.writeOffset + .ofNat (t.taken chunkSize σ))
        (.ofNat (moved e.sections).length) (fun k => staged (moved (sec :: e.sections)) (.ofNat (t.taken chunkSize σ) + k)) =
      overlay (t.behind chunkSize σ).content.byte (t.behind chunkSize σ).writeOffset
        (.ofNat (moved e.sections).length) (staged (moved e.sections)) := by
    refine overlay_congr (fun _ _ => rfl) fun k hk => ?_
    rw [UInt64.lt_iff_toNat_lt, hword] at hk
    have hright := staged_append_right (t.bytes chunkSize σ) (moved e.sections) (k := k)
      (by rw [length_bytes]; omega)
    rw [length_bytes] at hright
    rw [moved_cons, hbytes, hright]
  have hsplit := overlay_behind_iff (f := σ.content.byte) (p := σ.writeOffset) (g := (t.behind chunkSize σ).content.byte)
    hfit (fun q => behind_byte) (htotal.frame hexit) (staged (moved (sec :: e.sections)))
  rw [hlength, UInt64.ofNat_add, hsplit, hfirst, hsecond]
  have hshort := overlay_short_iff (f := σ.content.byte) (p := σ.writeOffset)
    (t.write.bounded (.ofNat (t.taken chunkSize σ))) (staged (t.bytes chunkSize σ))
  exact and_congr_left fun _ => hshort

/-- A turn that moves something, and the loop behind it. -/
theorem drainFine_cons (htotal : DrainTotal (t.behind chunkSize σ) e) (hbytes : sec.bytes = t.bytes chunkSize σ)
    (hkeep : sec.before.unread = sec.bytes ++ sec.after.unread) (htaken : t.taken chunkSize σ ≠ 0)
    (hsum : σ.copied.toNat + σ.remaining.toNat < 2 ^ 64) :
    DrainFine q f₀ σ { e with sections := sec :: e.sections } ↔
      (∀ k, (t.transfer chunkSize σ).moved ≤ k → k < .ofNat (t.taken chunkSize σ) →
        σ.content.byte (σ.writeOffset + k) = staged (t.bytes chunkSize σ) k) ∧
      DrainFine q f₀ (t.behind chunkSize σ) e := by
  have hmoved : (∀ v, e.exit ≠ .failed v) → e.last.copied ≠ 0 := by
    intro hexit hzero
    have hcopied := (htotal.cons hbytes htaken).copied hexit
    have hle := (htotal.cons hbytes htaken).le
    have hlength : (moved (sec :: e.sections)).length = t.taken chunkSize σ + (moved e.sections).length := by
      rw [moved_cons, List.length_append, hbytes, length_bytes]
    dsimp only at hcopied hle
    rw [hlength] at hcopied hle
    rw [hzero, ← UInt64.toNat_inj, UInt64.toNat_add, UInt64.toNat_ofNat'] at hcopied
    simp only [UInt64.toNat_zero] at hcopied
    omega
  unfold DrainFine
  dsimp only
  cases hexit : e.exit with
  | failed v => exact ⟨False.elim, fun h => h.2⟩
  | empty =>
    have hne := hmoved fun v h => nomatch hexit.symm.trans h
    exact ⟨fun h => absurd h hne, fun h => absurd h.2 hne⟩
  | update =>
    have hnofail : ∀ v, e.exit ≠ .failed v := fun v h => nomatch hexit.symm.trans h
    dsimp only
    by_cases hcopy : q.copiedOut
    · rw [if_pos hcopy, if_pos hcopy]
      have hiff := bytes_cons_iff htotal hnofail hbytes
      constructor
      · rintro ⟨h, hrest⟩
        obtain ⟨hright, hbehind⟩ := hiff.mp h.bytes
        exact ⟨hright, ⟨rfl, hbehind, fun sec' h' => h.keeps sec' (List.mem_cons_of_mem _ h')⟩, hrest⟩
      · rintro ⟨hright, h, hrest⟩
        refine ⟨⟨rfl, hiff.mpr ⟨hright, h.bytes⟩, fun sec' h' => ?_⟩, hrest⟩
        obtain rfl | h' := List.mem_cons.mp h'
        · exact hkeep
        · exact h.keeps sec' h'
    · rw [if_neg hcopy, if_neg hcopy]
      have hne := hmoved hnofail
      exact ⟨fun h => absurd h hne, fun h => absurd h.2 hne⟩

theorem behind_sum (hsum : σ.copied.toNat + σ.remaining.toNat < 2 ^ 64) :
    (t.behind chunkSize σ).copied.toNat + (t.behind chunkSize σ).remaining.toNat < 2 ^ 64 := by
  have hle := taken_le chunkSize t σ
  rw [behind_remaining]
  show (σ.copied + .ofNat (t.taken chunkSize σ)).toNat + _ < 2 ^ 64
  rw [UInt64.toNat_add, taken_toNat]
  omega

/-- The loop comes to what it should exactly if its turns fit. -/
theorem drainLoop_fits_iff (hsum : σ.copied.toNat + σ.remaining.toNat < 2 ^ 64) :
    (∃ e, drainLoop chunkSize ts σ = .ok e ∧ DrainFine q f₀ σ e) ↔ DrainFits chunkSize q f₀ ts σ := by
  induction ts generalizing σ with
  | nil =>
    unfold DrainFits
    rw [drainLoop, exists_ok_iff rfl]
    by_cases hremaining : σ.remaining = 0
    · rw [if_pos hremaining, if_pos hremaining]
      exact drainFine_update
    · rw [if_neg hremaining, if_neg hremaining]
      rfl
  | cons t ts ih =>
    unfold DrainFits
    by_cases hremaining : σ.remaining = 0
    · rw [if_pos hremaining, drainLoop, if_pos hremaining, exists_ok_iff rfl]
      exact drainFine_update
    · rw [if_neg hremaining]
      by_cases hempty : t.found.pipe.nread = t.found.pipe.nwrite
      · rw [if_pos hempty, drainLoop, if_neg hremaining, drainTurn, if_pos hempty, exists_ok_iff rfl]
        rfl
      · rw [if_neg hempty]
        obtain ⟨hidle, hmore⟩ := drainLoop_cons chunkSize ts hempty hremaining
        by_cases htaken : t.taken chunkSize σ = 0
        · rw [if_pos htaken, exists_ok_iff (hidle htaken)]
          exact drainFine_update
        · rw [if_neg htaken]
          obtain ⟨hout, hin⟩ := hmore htaken
          by_cases hpages : t.taken chunkSize σ ≤ PGSIZE ∧
              InPage t.found.pipe.size t.found.pipe.nread (t.taken chunkSize σ)
          · obtain ⟨sec, hbytes, hkeep, hnext, hfail⟩ := hin hpages
            by_cases hok : 0 ≤ toInt σ.writeOffset ∧ (t.transfer chunkSize σ).status = 0
            · rw [hnext hok, ← ih (behind_sum hsum)]
              constructor
              · rintro ⟨e, he, hfine⟩
                obtain ⟨e', he', rfl⟩ := map_eq_ok.mp he
                obtain ⟨hright, hrest⟩ := (drainFine_cons (drainLoop_total he') hbytes hkeep htaken hsum).mp hfine
                exact ⟨⟨hpages.1, hpages.2, hok.1, hok.2, hright⟩, e', he', hrest⟩
              · rintro ⟨hwrite, e', he', hrest⟩
                refine ⟨_, map_eq_ok.mpr ⟨e', he', rfl⟩, ?_⟩
                exact (drainFine_cons (drainLoop_total he') hbytes hkeep htaken hsum).mpr ⟨hwrite.right, hrest⟩
            · obtain ⟨v, σ', hrun, -⟩ := hfail hok
              rw [exists_ok_iff hrun]
              exact iff_of_false False.elim fun h => hok ⟨h.1.seek, h.1.status⟩
          · rw [hout hpages]
            exact iff_of_false (fun h => nomatch h.choose_spec.1) fun h => hpages ⟨h.1.stage, h.1.inPage⟩

end Drain

/-! ## The call -/

section Calls

variable {env : Env} {ofile : Nat → Option FType} {x : UInt64} {v : Int}

/-- A call fits if it is refused, if there is nothing to do, or if its turns fit. -/
def Fits (c : Call) (env : Env) (ofile : Nat → Option FType) (s : State) : Prop :=
  refused c ofile = none → env.page = true →
    (typeOf ofile c.fdIn = some .reg → ∀ q, c.offIn = some q → ∀ st, env.stat.fstat s.content.size = some st →
      0 ≤ st.1 → actualLen st.2 q.value c.len ≠ 0 →
        FillFits s.content q s.file env.fill ⟨s.file, q.value, 0, actualLen st.2 q.value c.len⟩) ∧
    (typeOf ofile c.fdIn = some .pipe → ∀ q, c.offOut = some q →
      DrainFits env.size.toUInt64 q s.file env.drain ⟨s.file, s.content, q.value, 0, c.len⟩)

theorem typeError_negative {i o : FType} (h : typeError c i o = some v) : v < 0 := by
  unfold typeError at h
  generalize (if i = FType.pipe then 1 else 0) + (if o = FType.pipe then 1 else 0) = pipes at h
  iterate 6
    split at h
    · rw [← Option.some.inj h]
      decide
  nomatch h

theorem offsetError_negative {p : Option Pointer} (h : offsetError p = some v) : v < 0 := by
  unfold offsetError at h
  split at h
  · nomatch h
  · split at h
    · rw [← Option.some.inj h]
      decide
    · split at h
      · rw [← Option.some.inj h]
        decide
      · nomatch h

theorem refused_negative (h : refused c ofile = some v) : v < 0 := by
  unfold refused at h
  split at h
  · rw [← Option.some.inj h]
    decide
  · split at h
    · split at h
      · exact typeError_negative h
      · split at h
        · rw [← Option.some.inj h]
          decide
        · split at h
          · rw [← Option.some.inj h]
            decide
          · split at h
            · exact offsetError_negative h
            · exact offsetError_negative h
    · rw [← Option.some.inj h]
      decide

/-- The types and the pointers of a call that is not refused. -/
theorem refused_none (h : refused c ofile = none) :
    (typeOf ofile c.fdIn = some .reg ∧ (∃ q, c.offIn = some q) ∧ c.offOut = none) ∨
      (typeOf ofile c.fdIn = some .pipe ∧ c.offIn = none ∧ ∃ q, c.offOut = some q) := by
  unfold refused at h
  split at h
  · nomatch h
  · split at h
    · rename_i i o hi ho
      split at h
      · rename_i herror
        rw [h] at herror
        nomatch herror
      · rename_i hnone
        rw [hi]
        unfold typeError at hnone
        cases hIn : c.offIn <;> cases hOut : c.offOut <;> cases i <;> cases o <;> simp [hIn, hOut] at hnone ⊢
    · nomatch h

theorem advanced_refl (f : File) : Advanced 0 f f := ⟨(UInt64.add_zero _).symm, (UInt64.add_zero _).symm⟩

/-- A call that does nothing. -/
theorem exact_zero {sections : List Section} (hnil : sections = []) : Exact c s 0 (c.leave v s sections) := by
  have hsame : ∀ p : Option Pointer, p.map (·.value) = p.map fun q => q.value + .ofNat 0 := by
    intro p
    cases p with
    | none => rfl
    | some q =>
      show some q.value = some (q.value + 0)
      rw [UInt64.add_zero]
  subst hnil
  refine ⟨fun q _ => ⟨fromFile_nil, rfl⟩, fun q _ => ?_, hsame _, hsame _, advanced_refl _⟩
  exact fromPipe_nil (σ := ⟨s.file, s.content, q.value, 0, 0⟩)

theorem ssize_toNat (h : x.toNat < 2 ^ 63) : ssize x = x.toNat := by
  unfold ssize
  rw [Int.bmod_def]
  omega

theorem ssize_negative (h : ¬x.toNat < 2 ^ 63) : ssize x < 0 := by
  have := x.toNat_lt
  unfold ssize
  rw [Int.bmod_def]
  omega

theorem correct_failed {r : Result} (hv : r.value < 0) : Correct c s (.ok r) ↔ moved r.sections = [] := by
  show (if r.value < 0 then _ else _) ↔ _
  rw [if_pos hv]

/-- A call that returns the count of what it has moved. -/
theorem correct_count {r : Result} (hn : (moved r.sections).length = n) (hlt : n < 2 ^ 64) (hvalue : r.value = ssize (.ofNat n)) :
    Correct c s (.ok r) ↔ Exact c s n r ∧ n < 2 ^ 63 := by
  have hword : (UInt64.ofNat n).toNat = n := by
    rw [UInt64.toNat_ofNat', Nat.mod_eq_of_lt hlt]
  by_cases hsmall : n < 2 ^ 63
  · have hcount : r.value = n := by
      rw [hvalue, ssize_toNat (by rw [hword]; exact hsmall), hword]
    have hpos : ¬r.value < 0 := by
      rw [hcount]
      exact Int.not_lt.mpr (Int.natCast_nonneg _)
    show (if r.value < 0 then _ else Exact c s r.value.toNat r) ↔ _
    rw [if_neg hpos, hcount, Int.toNat_natCast]
    exact (and_iff_left hsmall).symm
  · have hnegative : r.value < 0 := by
      rw [hvalue]
      apply ssize_negative
      rw [hword]
      exact hsmall
    rw [correct_failed hnegative]
    refine iff_of_false (fun hnil => ?_) fun h => hsmall h.2
    rw [hnil] at hn
    rw [← hn] at hsmall
    exact hsmall (by decide)

/-- What a call from a file returns behind its loop. -/
def fillResult (c : Call) (s : State) (q : Pointer) (e : FillEnd) : Result :=
  match e.error with
  | some value => c.leave value { s with file := e.last.file } e.sections
  | none =>
    if q.copiedOut then
      ⟨ssize e.last.copied, { s with file := e.last.file }, some e.last.readOffset, c.offOut.map (·.value), e.sections⟩
    else c.leave (-Positional.EFAULT) { s with file := e.last.file } e.sections

/-- The end of a loop from a file. -/
theorem fillResult_correct_iff {e : FillEnd} {σ : Fill} (hin : c.offIn = some q) (hout : c.offOut = none)
    (htotal : FillTotal σ e) (hcopied : σ.copied = 0) (hoffset : σ.readOffset = q.value) :
    Correct c s (.ok (fillResult c s q e)) ↔ FillFine s.content q s.file σ e := by
  have hlength := htotal.le
  have hbound := σ.remaining.toNat_lt
  have hlast : e.last.copied = .ofNat (moved e.sections).length := by
    rw [htotal.copied, hcopied, UInt64.zero_add]
  have hword : (UInt64.ofNat (moved e.sections).length).toNat = (moved e.sections).length := by
    rw [UInt64.toNat_ofNat', Nat.mod_eq_of_lt (by omega)]
  have hnothing : moved e.sections = [] ↔ e.last.copied = 0 := by
    rw [hlast, ← UInt64.toNat_inj, hword, ← List.length_eq_zero_iff]
    rfl
  unfold FillFine fillResult
  cases hend : e.error with
  | some v =>
    rw [if_neg (c := some v = none ∧ q.copiedOut) fun h => nomatch h.1]
    exact (correct_failed (htotal.negative v hend)).trans hnothing
  | none =>
    dsimp only
    by_cases hcopy : q.copiedOut
    · have hcount : (moved e.sections).length < 2 ^ 64 := by omega
      rw [if_pos hcopy, if_pos ⟨rfl, hcopy⟩, correct_count rfl hcount (by rw [hlast]), hoffset, hlast, hword]
      constructor
      · exact fun h => ⟨(h.1.fromFile q hin).1, h.2, h.1.position⟩
      · rintro ⟨hbytes, hsmall, hposition⟩
        refine ⟨⟨fun q' hq' => ?_, fun q' hq' => ?_, ?_, ?_, hposition⟩, hsmall⟩
        · rw [hin] at hq'
          rw [← Option.some.inj hq']
          exact ⟨hbytes, rfl⟩
        · rw [hout] at hq'
          nomatch hq'
        · rw [hin]
          show some e.last.readOffset = some (q.value + .ofNat (moved e.sections).length)
          rw [htotal.offset, hoffset]
        · rw [hout]
          rfl
    · rw [if_neg hcopy, if_neg fun h => hcopy h.2]
      exact (correct_failed (by show -Positional.EFAULT < 0; decide)).trans hnothing

/-- A call from a file comes to what it should exactly if its loop does. -/
theorem fromFile_correct_iff (hin : c.offIn = some q) (hout : c.offOut = none)
    (hback : fromFile c env s q ≠ .error .never) :
    Correct c s (fromFile c env s q) ↔ ∀ st, env.stat.fstat s.content.size = some st → 0 ≤ st.1 →
      actualLen st.2 q.value c.len ≠ 0 →
        FillFits s.content q s.file env.fill ⟨s.file, q.value, 0, actualLen st.2 q.value c.len⟩ := by
  cases hstat : env.stat.fstat s.content.size with
  | none =>
    unfold fromFile at hback
    rw [hstat] at hback
    exact absurd rfl hback
  | some st =>
    by_cases hfail : st.1 < 0
    · have hcall : fromFile c env s q = .ok (c.leave (- EIO) s []) := by
        unfold fromFile
        rw [hstat]
        exact if_pos hfail
      rw [hcall]
      refine iff_of_true rfl fun st' hst' hok => ?_
      rw [← Option.some.inj hst'] at hok
      exact absurd hfail (Int.not_lt.mpr hok)
    · by_cases hzero : actualLen st.2 q.value c.len = 0
      · have hcall : fromFile c env s q = .ok (c.leave 0 s []) := by
          unfold fromFile
          rw [hstat]
          exact (if_neg hfail).trans (if_pos hzero)
        rw [hcall]
        refine iff_of_true (exact_zero rfl) fun st' hst' _ hlen => ?_
        rw [← Option.some.inj hst'] at hlen
        exact absurd hzero hlen
      · generalize hlen : actualLen st.2 q.value c.len = len at hzero
        have hcall : fromFile c env s q =
            (fillLoop s.content env.fill ⟨s.file, q.value, 0, len⟩).map (fillResult c s q) := by
          unfold fromFile
          rw [hstat]
          dsimp only
          rw [if_neg hfail, hlen, if_neg hzero]
          cases fillLoop s.content env.fill ⟨s.file, q.value, 0, len⟩ with
          | error stop => rfl
          | ok e =>
            show (match e.error with
              | some value => _
              | none => if q.copiedOut then _ else _ : Except Stop Result) = .ok (fillResult c s q e)
            unfold fillResult
            split
            · rfl
            · split
              · rfl
              · rfl
        rw [hcall] at hback ⊢
        have hloop : fillLoop s.content env.fill ⟨s.file, q.value, 0, len⟩ ≠ .error .never := by
          intro h
          rw [h] at hback
          exact hback rfl
        have hsum : (0 : UInt64).toNat + len.toNat < 2 ^ 64 := by
          rw [UInt64.toNat_zero, Nat.zero_add]
          exact len.toNat_lt
        have hall : (∀ st', some st = some st' → 0 ≤ st'.1 → actualLen st'.2 q.value c.len ≠ 0 →
            FillFits s.content q s.file env.fill ⟨s.file, q.value, 0, actualLen st'.2 q.value c.len⟩) ↔
              FillFits s.content q s.file env.fill ⟨s.file, q.value, 0, len⟩ := by
          constructor
          · intro h
            rw [← hlen]
            exact h st rfl (Int.not_lt.mp hfail) (by rw [hlen]; exact hzero)
          · intro h st' hst' _ _
            rw [← Option.some.inj hst', hlen]
            exact h
        rw [hall, ← fillLoop_fits_iff hloop hsum]
        cases hrun : fillLoop s.content env.fill ⟨s.file, q.value, 0, len⟩ with
        | error stop =>
          cases stop with
          | never => exact absurd hrun hloop
          | outside => exact iff_of_false id fun h => nomatch h.choose_spec.1
        | ok e =>
          rw [exists_ok_iff rfl]
          exact fillResult_correct_iff hin hout (fillLoop_total hrun) rfl rfl

/-- What a call from a pipe returns behind its loop. -/
def drainResult (c : Call) (q : Pointer) (e : DrainEnd) : Result :=
  match e.exit with
  | .failed value => c.leave value ⟨e.last.file, e.last.content⟩ e.sections
  | .empty => c.leave (ssize e.last.copied) ⟨e.last.file, e.last.content⟩ e.sections
  | .update =>
    if q.copiedOut then
      ⟨ssize e.last.copied, ⟨e.last.file, e.last.content⟩, c.offIn.map (·.value), some e.last.writeOffset, e.sections⟩
    else c.leave (-Positional.EFAULT) ⟨e.last.file, e.last.content⟩ e.sections

/-- The end of a loop from a pipe. -/
theorem drainResult_correct_iff {e : DrainEnd} (hin : c.offIn = none) (hout : c.offOut = some q)
    (htotal : DrainTotal ⟨s.file, s.content, q.value, 0, c.len⟩ e) :
    Correct c s (.ok (drainResult c q e)) ↔ DrainFine q s.file ⟨s.file, s.content, q.value, 0, c.len⟩ e := by
  have hlength := htotal.le
  have hbound := c.len.toNat_lt
  have hcount : (moved e.sections).length < 2 ^ 64 := Nat.lt_of_le_of_lt hlength hbound
  have hword : (UInt64.ofNat (moved e.sections).length).toNat = (moved e.sections).length := by
    rw [UInt64.toNat_ofNat', Nat.mod_eq_of_lt hcount]
  have hlast : (∀ v, e.exit ≠ .failed v) → e.last.copied = .ofNat (moved e.sections).length := fun hexit => by
    rw [htotal.copied hexit, UInt64.zero_add]
  have hnothing : (∀ v, e.exit ≠ .failed v) → (moved e.sections = [] ↔ e.last.copied = 0) := fun hexit => by
    rw [hlast hexit, ← UInt64.toNat_inj, hword, ← List.length_eq_zero_iff]
    rfl
  unfold DrainFine drainResult
  cases hend : e.exit with
  | failed v =>
    obtain ⟨hv, hmoved⟩ := htotal.failed v hend
    exact (correct_failed hv).trans (iff_of_false hmoved id)
  | empty =>
    have hexit : ∀ v, e.exit ≠ .failed v := fun v h => nomatch hend.symm.trans h
    dsimp only
    rw [← hnothing hexit]
    have hvalue := congrArg ssize (hlast hexit)
    generalize ssize e.last.copied = v at hvalue
    rw [correct_count (r := c.leave v _ e.sections) rfl hcount hvalue]
    constructor
    · intro h
      -- the offset is not updated here
      have hoff := h.1.offOut
      change c.offOut.map _ = c.offOut.map _ at hoff
      rw [hout] at hoff
      have hzero : UInt64.ofNat (moved e.sections).length = 0 :=
        (UInt64.add_right_inj q.value).mp ((Option.some.inj hoff).symm.trans (UInt64.add_zero _).symm)
      rw [← List.length_eq_zero_iff, ← hword, hzero]
      rfl
    · intro hnil
      obtain ⟨hsections, hstate⟩ := htotal.still hnil
      rw [hsections, hstate]
      exact ⟨exact_zero rfl, Nat.two_pow_pos 63⟩
  | update =>
    have hexit : ∀ v, e.exit ≠ .failed v := fun v h => nomatch hend.symm.trans h
    dsimp only
    by_cases hcopy : q.copiedOut
    · rw [if_pos hcopy, if_pos hcopy, correct_count rfl hcount (by rw [hlast hexit]), hlast hexit, hword]
      constructor
      · exact fun h => ⟨h.1.fromPipe q hout, h.2, h.1.position⟩
      · rintro ⟨hbytes, hsmall, hposition⟩
        refine ⟨⟨fun q' hq' => ?_, fun q' hq' => ?_, ?_, ?_, hposition⟩, hsmall⟩
        · rw [hin] at hq'
          nomatch hq'
        · rw [hout] at hq'
          rw [← Option.some.inj hq']
          exact hbytes
        · rw [hin]
          rfl
        · rw [hout]
          show some e.last.writeOffset = some (q.value + .ofNat (moved e.sections).length)
          rw [htotal.offset hexit]
    · rw [if_neg hcopy, if_neg hcopy]
      exact (correct_failed (by show -Positional.EFAULT < 0; decide)).trans (hnothing hexit)

/-- A call from a pipe comes to what it should exactly if its loop does. -/
theorem fromPipe_correct_iff (hin : c.offIn = none) (hout : c.offOut = some q)
    (hback : fromPipe c env s q ≠ .error .never) :
    Correct c s (fromPipe c env s q) ↔
      DrainFits env.size.toUInt64 q s.file env.drain ⟨s.file, s.content, q.value, 0, c.len⟩ := by
  have hcall : fromPipe c env s q =
      (drainLoop env.size.toUInt64 env.drain ⟨s.file, s.content, q.value, 0, c.len⟩).map (drainResult c q) := by
    unfold fromPipe
    cases drainLoop env.size.toUInt64 env.drain ⟨s.file, s.content, q.value, 0, c.len⟩ with
    | error stop => rfl
    | ok e =>
      show (match e.exit with
        | .failed value => _
        | .empty => _
        | .update => if q.copiedOut then _ else _ : Except Stop Result) = .ok (drainResult c q e)
      unfold drainResult
      split
      · rfl
      · rfl
      · split
        · rfl
        · rfl
  have hsum : (0 : UInt64).toNat + c.len.toNat < 2 ^ 64 := by
    rw [UInt64.toNat_zero, Nat.zero_add]
    exact c.len.toNat_lt
  rw [hcall] at hback ⊢
  rw [← drainLoop_fits_iff hsum]
  cases hrun : drainLoop env.size.toUInt64 env.drain ⟨s.file, s.content, q.value, 0, c.len⟩ with
  | error stop =>
    rw [hrun] at hback
    cases stop with
    | never => exact absurd rfl hback
    | outside => exact iff_of_false id fun h => nomatch h.choose_spec.1
  | ok e =>
    rw [exists_ok_iff rfl]
    exact drainResult_correct_iff hin hout (drainLoop_total hrun)

/-- A call that comes back moves its bytes exactly once if and only if it fits. -/
theorem splice_exact_iff (hback : sysSplice c env ofile s ≠ .error .never) :
    Correct c s (sysSplice c env ofile s) ↔ Fits c env ofile s := by
  unfold Fits
  cases hrefused : refused c ofile with
  | some v =>
    have hcall : sysSplice c env ofile s = .ok (c.leave v s []) := by
      unfold sysSplice
      rw [hrefused]
    rw [hcall]
    exact iff_of_true ((correct_failed (refused_negative hrefused)).mpr rfl) fun h => nomatch h
  | none =>
    by_cases hpage : env.page = false
    · have hcall : sysSplice c env ofile s = .ok (c.leave (-Positional.ENOMEM) s []) := by
        unfold sysSplice
        rw [hrefused]
        exact if_pos hpage
      rw [hcall]
      refine iff_of_true ((correct_failed (by show -Positional.ENOMEM < 0; decide)).mpr rfl) fun _ h => ?_
      rw [hpage] at h
      nomatch h
    · have hpage' : env.page = true := by
        rwa [Bool.not_eq_false] at hpage
      obtain ⟨htype, ⟨q, hin⟩, hout⟩ | ⟨htype, hin, q, hout⟩ := refused_none hrefused
      · have hcall : sysSplice c env ofile s = fromFile c env s q := by
          unfold sysSplice
          rw [hrefused]
          dsimp only
          rw [if_neg hpage, htype, hin]
        rw [hcall] at hback ⊢
        rw [fromFile_correct_iff hin hout hback]
        constructor
        · refine fun h _ _ => ⟨fun _ q' hq' => ?_, fun hpipe => ?_⟩
          · rw [hin] at hq'
            rw [← Option.some.inj hq']
            exact h
          · rw [htype] at hpipe
            nomatch hpipe
        · exact fun h => (h rfl hpage').1 htype q hin
      · have hcall : sysSplice c env ofile s = fromPipe c env s q := by
          unfold sysSplice
          rw [hrefused]
          dsimp only
          rw [if_neg hpage, htype, hin, hout]
        rw [hcall] at hback ⊢
        rw [fromPipe_correct_iff hin hout hback]
        constructor
        · refine fun h _ _ => ⟨fun hreg => ?_, fun _ q' hq' => ?_⟩
          · rw [htype] at hreg
            nomatch hreg
          · rw [hout] at hq'
            rw [← Option.some.inj hq']
            exact h
        · exact fun h => (h rfl hpage').2 htype q hout

end Calls

/-! ## Two bytes of a pipe -/

/-- A pipe with two unread bytes. -/
def twoUnread : Found where
  pipe := ⟨fun k => if k = 0 then 7 else 9, 512, 0, 2, true, true⟩
  counters := ⟨by decide, by decide⟩
  size_pos := by decide
  size_lt := by decide

/-- The pipe behind a turn that has taken them. -/
def noneUnread : Found where
  pipe := ⟨fun k => if k = 0 then 7 else 9, 512, 2, 2, true, true⟩
  counters := ⟨by decide, by decide⟩
  size_pos := by decide
  size_lt := by decide

/-- Up to `len` bytes from pipe 3 to offset 0 of file 4. -/
def toFile (len : UInt64) : Call := ⟨3, none, 4, some ⟨0, true, true, true⟩, len, 0⟩

/-- The library writes what it is asked to. -/
def writesAll : Env := ⟨true, CopyRange.blocks8, [], 512, [⟨twoUnread, .upTo 4096⟩, ⟨noneUnread, .upTo 4096⟩]⟩

def descriptors (fd : Nat) : Option FType := if fd = 3 then some .pipe else if fd = 4 then some .reg else none

/-- A file that has just been opened. -/
def fresh : State := ⟨⟨0, 0, 2⟩, .ofList [1, 2]⟩

theorem ran {α : Type} {x : Except Stop Result} {f : Result → α} {a : α} (h : x.toOption.map f = some a) :
    ∃ r, x = .ok r ∧ f r = a := by
  cases x with
  | error stop => nomatch h
  | ok r => exact ⟨r, rfl, Option.some.inj h⟩

/-- The call for both bytes fits. -/
theorem splice_exact_twoBytes : Correct (toFile 2) fresh (sysSplice (toFile 2) writesAll descriptors fresh) := by
  have hrun : (sysSplice (toFile 2) writesAll descriptors fresh).toOption.map (·.value) = some 2 := by decide +kernel
  have hback : sysSplice (toFile 2) writesAll descriptors fresh ≠ .error .never := by
    cases ran hrun with
    | intro r h =>
      rw [h.1]
      nofun
  rw [splice_exact_iff hback]
  unfold Fits
  intro _ _
  apply And.intro
  · intro h
    exact absurd h (by decide +kernel)
  intro _ q hq
  rw [← Option.some.inj hq]
  show DrainFits 512 _ _ (⟨twoUnread, .upTo 4096⟩ :: [⟨noneUnread, .upTo 4096⟩]) _
  unfold DrainFits
  rw [if_neg (by decide +kernel), if_neg (by decide +kernel), if_neg (by decide +kernel)]
  apply And.intro
  · refine ⟨by decide +kernel, by decide +kernel, by decide +kernel, by decide +kernel, fun k hle hlt => ?_⟩
    exact absurd (UInt64.lt_of_le_of_lt hle hlt) (by decide +kernel)
  · unfold DrainFits
    rw [if_pos (by decide +kernel)]
    exact ⟨by decide +kernel, by decide +kernel, by decide +kernel⟩

set_option maxRecDepth 2000 in
/-- The call for four bytes finds the pipe empty behind two: it returns 2, and the offset is still 0. -/
theorem not_exact_emptied :
    ¬∀ (c : Call) (env : Env) (ofile : Nat → Option FType) (s : State),
      sysSplice c env ofile s ≠ .error .never → Correct c s (sysSplice c env ofile s) := by
  intro hall
  have hrun : (sysSplice (toFile 4) writesAll descriptors fresh).toOption.map (fun r => (r.value, r.offOut)) =
      some (2, some 0) := by decide +kernel
  have hcorrect := hall (toFile 4) writesAll descriptors fresh
  cases ran hrun with
  | intro r h =>
    obtain ⟨hvalue, hoff⟩ := Prod.mk.inj h.2
    rw [h.1] at hcorrect
    have hback : (.ok r : Except Stop Result) ≠ .error .never := nofun
    have hexact := hcorrect hback
    change if r.value < 0 then _ else _ at hexact
    rw [hvalue] at hexact
    have hoffset := (show Exact (toFile 4) fresh 2 r from hexact).offOut
    rw [hoff] at hoffset
    exact absurd hoffset (by decide +kernel)

end SC7.Splice
