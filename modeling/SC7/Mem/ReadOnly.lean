-- SUMMARY: System calls that store results through `copyout` (`sys_read` with every descriptor type), against the write permission of the user's pages.
import SC7.Mem.CopyRound

/-!
# Read-only pages of the user

A system call checks some ranges with `access_ok`, or none, and then copies what it has to say out of
buffers of the kernel, one copy after the other until one fails. `copyout` asks a page for `PTE_V` and
`PTE_U` only, and `sys_read` asks whether its buffer can be read.
-/

namespace SC7.UserCopy

def EBADF : Int := 9

def EFAULT : Int := 14

namespace PageTable

variable (t : PageTable)

/-- The user has a page at the address that lacks the permission to write. -/
def ReadOnly (va : Nat) : Prop := Mapped t va ∧ ∃ pte, t.userEntry va = some pte ∧ pte &&& PTE_W t.arch = 0

/-! ## Copies of a system call -/

end PageTable

/-- One `copyout` of a system call: the bytes, the kernel's buffer that holds them and the address. -/
structure Store where
  dstva : Nat
  buf : Nat
  bytes : List UInt8

/-- The kernel puts bytes into a buffer of its own. -/
def fill (buf : Nat) (bytes : List UInt8) (mem : Memory) : Memory := fun a =>
  if buf ≤ a ∧ a < buf + bytes.length then bytes.getD (a - buf) 0 else mem a

namespace Store

variable (t : PageTable) (s : Store)

def run (mem : Memory) : Option (Int × Memory) :=
  t.copyout s.dstva s.buf s.bytes.length (fill s.buf s.bytes mem)

/-- The whole range is the user's. -/
def Whole : Prop := ∀ i < s.bytes.length, t.Mapped (s.dstva + i)

/-- The copy gets to the address: it is in the range, and nothing up to it is missing. -/
def Reaches (va : Nat) : Prop := ∃ i < s.bytes.length, (∀ j ≤ i, t.Mapped (s.dstva + j)) ∧ va = s.dstva + i

end Store

/-- The copies in order: how many were made, whether all of them were, and the memory. -/
def storeAll (t : PageTable) : List Store → Memory → Option (Nat × Bool × Memory)
  | [], mem => some (0, true, mem)
  | s :: rest, mem =>
    (s.run t mem).bind fun (r, mem) =>
      if r = 0 then (storeAll t rest mem).map fun (n, ok, mem) => (n + 1, ok, mem)
      else some (0, false, mem)

/-- The copies get to the address. -/
def Reached (t : PageTable) : List Store → Nat → Prop
  | [], _ => False
  | s :: rest, va => s.Reaches t va ∨ s.Whole t ∧ Reached t rest va

/-- One of the copies runs into `MAXVA`. -/
def Panics (t : PageTable) : List Store → Prop
  | [] => False
  | s :: rest =>
    ¬(s.dstva ≤ MAXVA t.arch ∧ t.Clear s.dstva s.bytes.length) ∨ s.Whole t ∧ Panics t rest

/-- A system call that stores through `copyout`: the ranges that it has checked, with their types, its
copies, and what it returns after so many of them, all or not. -/
structure StoreCall (t : PageTable) where
  checks : List (Int × Nat × Nat)
  stores : List Store
  kernel : ∀ s ∈ stores, t.KernelBuffer s.buf s.bytes.length
  ret : Nat → Bool → Int

namespace StoreCall

/-- The checks in order: whether all of them accept. -/
def check (t : PageTable) : List (Int × Nat × Nat) → Option Bool
  | [] => some true
  | (type, addr, size) :: rest => (t.accessOk type addr size).bind fun ok => if ok then check t rest else some false

def run {t : PageTable} (call : StoreCall t) (mem : Memory) : Option (Int × Memory) :=
  (check t call.checks).bind fun ok =>
    if ok then (storeAll t call.stores mem).map fun (n, ok, mem) => (call.ret n ok, mem)
    else some (-EFAULT, mem)

end StoreCall

/-! ## sys_read -/

/-- What `fileread` finds in the file when its turn has come. -/
inductive FileData
  /-- A result without a copy: `/dev/null`, an end of file, an error, no driver. -/
  | done (r : Int)
  /-- The bytes of a pipe or a FIFO. -/
  | pipe (data : List UInt8)
  | console (c : UInt8)
  /-- `/dev/zero`, with what lies at `zeros`. -/
  | zero (zeros : Nat → UInt8)
  | random (data : Nat → UInt8)
  | loop
  /-- What `ext4_fread` delivers, and whether it ended without an error. -/
  | regular (blocks : List (List UInt8)) (eok : Bool)
  | busybox
  | procfs (content : List UInt8) (pos : Nat)

structure File where
  oPath : Bool
  readable : Bool
  /-- `strstr(f->f_path, "/proc")` has found something. -/
  proc : Bool
  data : FileData

def ZERO_BYTES : Nat := 32

/-- The blocks of a regular file, one behind the other. -/
def blockStores (buf : Nat) : Nat → List (List UInt8) → List Store
  | _, [] => []
  | uaddr, block :: rest => ⟨uaddr, buf, block⟩ :: blockStores buf ((uaddr + block.length) % 2 ^ 64) rest

namespace FileData

/-- `tocopy` of a file in `/proc`. -/
def tocopy (content : List UInt8) (pos : Nat) (n : Int) : Int := min n ((content.length : Int) - pos)

/-- The copies of `fileread(f, addr, n)`; the length of a copy is unsigned. -/
def stores (buf addr : Nat) (n : Int) : FileData → List Store
  | done _ => []
  | pipe data => (data.take n.toNat).mapIdx fun i ch => ⟨(addr + i) % 2 ^ 64, buf, [ch]⟩
  | console c => [⟨addr, buf, [c]⟩]
  | zero zeros => [⟨addr, buf, (List.range (toU64 n)).map zeros⟩]
  | random data => [⟨addr, buf, (List.range (toU64 (min n 256))).map data⟩]
  | loop => [⟨addr, buf, List.replicate (toU64 (min n 512)) 0⟩]
  | regular blocks _ => blockStores buf addr blocks
  | busybox => [⟨addr, buf, List.replicate ZERO_BYTES 0⟩]
  | procfs content pos =>
    if tocopy content pos n > 0 then [⟨addr, buf, (content.drop pos).take (tocopy content pos n).toNat⟩] else []

/-- What `fileread` returns after `k` copies. -/
def ret (n : Int) (k : Nat) (ok : Bool) : FileData → Int
  | done r => r
  | pipe _ => k
  | console _ => n
  | zero _ => if ok then n else 0
  | random _ => if ok then min n 256 else -1
  | loop => if ok then min n 512 else -EFAULT
  | regular blocks eok => if ok && eok then toInt32 blocks.flatten.length else 0
  | busybox => 0
  | procfs content pos => if ok && tocopy content pos n > 0 then tocopy content pos n else 0

/-- `consoleread` reads single bytes only. -/
def panics (n : Int) : FileData → Bool
  | console _ => n != 1
  | _ => false

end FileData

/-- `fileread(f, addr, n)`, with the buffer that it copies from. -/
def fileread (t : PageTable) (data : FileData) (buf addr : Nat) (n : Int) (mem : Memory) : Option (Int × Memory) :=
  if data.panics n then none
  else (storeAll t (data.stores buf addr n) mem).map fun (k, ok, mem) => (data.ret n k ok, mem)

/-- `sys_read(fd, va, len)` with the file of the descriptor, if it has one. -/
def sysRead (t : PageTable) (fd : Option File) (buf va : Nat) (len : Int) (mem : Memory) : Option (Int × Memory) :=
  match fd with
  | none => some (-EBADF, mem)
  | some f =>
    if f.oPath then some (-EBADF, mem)
    else if f.readable = false then some (-EBADF, mem)
    else
      (t.accessOk VERIFY_READ va (toU64 len)).bind fun ok =>
        if ok = false ∧ f.proc = false then some (-EFAULT, mem) else fileread t f.data buf va len mem

/-! ## The property -/

/-- No byte of a read-only page is modified, and a call whose copies get to such a page fails. -/
def HonoursReadOnly (t : PageTable) (stores : List Store) (run : Memory → Option (Int × Memory)) : Prop :=
  ∀ mem r mem', run mem = some (r, mem') →
    (∀ va, t.ReadOnly va → mem' (t.physical va) = mem (t.physical va)) ∧
    ((∃ va, Reached t stores va ∧ t.ReadOnly va) → r < 0)

/-- What the copies get to is no byte of a read-only page, not under another address either. -/
def KeepsOff (t : PageTable) (stores : List Store) : Prop :=
  ∀ va, Reached t stores va → ∀ va', t.ReadOnly va' → t.physical va ≠ t.physical va'

variable {t : PageTable} {va len n i k src dstva a : Nat} {mem mem' mem1 mem2 mem1' mem2' : Memory}

/-! ## One copy -/

section Copy

open PageTable

/-- A byte of physical memory that a copy to the range gets to. -/
def Touched (t : PageTable) (dstva len a : Nat) : Prop :=
  ∃ i < len, (∀ j ≤ i, Mapped t (dstva + j)) ∧ a = t.physical (dstva + i)

/-- One turn of the loop: the bytes of this page, and what the rest gets to. -/
theorem touched_page (hva : Mapped t dstva) :
    Touched t dstva len a ↔
      (∃ i < min (PGSIZE - (dstva - pgRoundDown dstva)) len, a = t.physical (dstva + i)) ∨
        Touched t ((pgRoundDown dstva + PGSIZE) % 2 ^ 64) (len - min (PGSIZE - (dstva - pgRoundDown dstva)) len) a := by
  rw [next_page hva.1]
  constructor
  · rintro ⟨i, hi, hmapped, rfl⟩
    by_cases hin : i < PGSIZE - (dstva - pgRoundDown dstva)
    · exact Or.inl ⟨i, by omega, rfl⟩
    · right
      refine ⟨i - (PGSIZE - (dstva - pgRoundDown dstva)), by omega, fun j hj => ?_, ?_⟩
      · rw [Nat.add_assoc]
        exact hmapped _ (by omega)
      · rw [Nat.add_assoc, Nat.add_sub_cancel' (by omega)]
  · rintro (⟨i, hi, rfl⟩ | ⟨i, hi, hmapped, rfl⟩)
    · exact ⟨i, by omega, fun j hj => mapped_add hva (by omega), rfl⟩
    · refine ⟨PGSIZE - (dstva - pgRoundDown dstva) + i, by omega, fun j hj => ?_, by rw [Nat.add_assoc]⟩
      by_cases hin : j < PGSIZE - (dstva - pgRoundDown dstva)
      · exact mapped_add hva hin
      · have := hmapped (j - (PGSIZE - (dstva - pgRoundDown dstva))) (by omega)
        rwa [Nat.add_assoc, Nat.add_sub_cancel' (by omega)] at this

/-- The bytes of this page are the ones that the turn writes. -/
theorem chunk_iff (hva : Mapped t dstva) (hn : n ≤ PGSIZE - (dstva - pgRoundDown dstva)) :
    (t.place (t.page dstva) (dstva - pgRoundDown dstva) ≤ a ∧
        a < t.place (t.page dstva) (dstva - pgRoundDown dstva) + n) ↔
      ∃ i < n, a = t.physical (dstva + i) := by
  constructor
  · rintro ⟨hge, hlt⟩
    obtain ⟨i, rfl⟩ := Nat.exists_eq_add_of_le hge
    exact ⟨i, by omega, chunk_physical hva (by omega)⟩
  · rintro ⟨i, hi, rfl⟩
    rw [← chunk_physical hva (by omega)]
    omega

/-- `copyout` writes what it gets to and nothing else. -/
theorem copyoutLoop_untouched {r : Int} (h : t.copyoutLoop dstva src len mem = some (r, mem'))
    (ha : ¬Touched t dstva len a) : mem' a = mem a := by
  fun_induction copyoutLoop t dstva src len mem with
  | case1 =>
    obtain ⟨-, rfl⟩ : (0 : Int) = r ∧ _ = mem' := by simpa using h
    rfl
  | case2 => exact absurd h (by simp)
  | case3 =>
    obtain ⟨-, rfl⟩ : (-1 : Int) = r ∧ _ = mem' := by simpa using h
    rfl
  | case4 dstva src len mem hlen pa0 hwalk hpa n ih =>
    obtain ⟨hlt, rfl⟩ := walkaddr_some hwalk
    have hva : Mapped t dstva := ⟨hlt, hpa⟩
    rw [touched_page hva, not_or] at ha
    rw [ih h ha.2, memmove_frame (mt (chunk_iff hva (by omega)).mp ha.1)]

/-- What it writes does not depend on what was there: two memories with the same bytes in the buffer. -/
theorem copyoutLoop_pair {r : Int} (mem2 : Memory) (hbuf : KernelBuffer t src len) (hagree : ∀ i < len, mem1 (src + i) = mem2 (src + i))
    (h : t.copyoutLoop dstva src len mem1 = some (r, mem1')) :
    ∃ mem2', t.copyoutLoop dstva src len mem2 = some (r, mem2') ∧
      ∀ a, mem1 a = mem2 a ∨ Touched t dstva len a → mem1' a = mem2' a := by
  fun_induction copyoutLoop t dstva src len mem1 generalizing mem2 with
  | case1 dstva src mem1 =>
    obtain ⟨rfl, rfl⟩ : (0 : Int) = r ∧ mem1 = mem1' := by simpa using h
    refine ⟨mem2, by rw [copyoutLoop, if_pos rfl], ?_⟩
    rintro a (heq | ⟨i, hi, -⟩)
    · exact heq
    · exact absurd hi (Nat.not_lt_zero i)
  | case2 => exact absurd h (by simp)
  | case3 dstva src len mem1 hlen hwalk =>
    obtain ⟨rfl, rfl⟩ : (-1 : Int) = r ∧ mem1 = mem1' := by simpa using h
    refine ⟨mem2, by rw [copyoutLoop, if_neg hlen, hwalk]; rfl, ?_⟩
    rintro a (heq | ⟨i, hi, hmapped, -⟩)
    · exact heq
    · exact absurd (walkaddr_some hwalk).2 (hmapped 0 (Nat.zero_le i)).2
  | case4 dstva src len mem1 hlen pa0 hwalk hpa n =>
    rename_i ih
    obtain ⟨hlt, rfl⟩ := walkaddr_some hwalk
    have hva : Mapped t dstva := ⟨hlt, hpa⟩
    have hchunk : ∀ mem : Memory, ∀ i < len,
        memmove mem (t.place (t.page dstva) (dstva - pgRoundDown dstva)) src n (src + i) = mem (src + i) :=
      fun mem i hi => memmove_frame (chunk_apart hva hbuf (by omega) hi)
    have hrest : ∀ i < len - n,
        memmove mem1 (t.place (t.page dstva) (dstva - pgRoundDown dstva)) src n (src + n + i) =
          memmove mem2 (t.place (t.page dstva) (dstva - pgRoundDown dstva)) src n (src + n + i) := by
      intro i hi
      rw [Nat.add_assoc, hchunk mem1 (n + i) (by omega), hchunk mem2 (n + i) (by omega)]
      exact hagree (n + i) (by omega)
    obtain ⟨mem2', hloop, heq⟩ := ih _ (kernelBuffer_add hbuf (by omega)) hrest h
    refine ⟨mem2', ?_, fun a ha => heq a ?_⟩
    · rw [copyoutLoop, if_neg hlen, hwalk]
      simp only [if_neg hpa]
      exact hloop
    · by_cases hin : t.place (t.page dstva) (dstva - pgRoundDown dstva) ≤ a ∧
          a < t.place (t.page dstva) (dstva - pgRoundDown dstva) + n
      · left
        unfold memmove
        rw [if_pos hin, if_pos hin]
        exact hagree _ (by omega)
      · rw [memmove_frame hin, memmove_frame hin]
        rcases ha with heq | htouched
        · exact Or.inl heq
        · right
          rw [touched_page hva] at htouched
          exact htouched.resolve_left (mt (chunk_iff hva (by omega)).mpr hin)

end Copy

/-! ## The copies of a call -/

section Calls

open PageTable

variable {s : Store} {stores : List Store} {r : Int} {ok : Bool}

theorem touched_iff : Touched t s.dstva s.bytes.length a ↔ ∃ va, s.Reaches t va ∧ a = t.physical va := by
  constructor
  · rintro ⟨i, hi, hmapped, rfl⟩
    exact ⟨s.dstva + i, ⟨i, hi, hmapped, rfl⟩, rfl⟩
  · rintro ⟨va, ⟨i, hi, hmapped, rfl⟩, rfl⟩
    exact ⟨i, hi, hmapped, rfl⟩

theorem fill_at (buf : Nat) (bytes : List UInt8) (mem1 mem2 : Memory) (hi : i < bytes.length) :
    fill buf bytes mem1 (buf + i) = fill buf bytes mem2 (buf + i) := by
  unfold fill
  rw [if_pos ⟨Nat.le_add_right buf i, Nat.add_lt_add_left hi buf⟩, if_pos ⟨Nat.le_add_right buf i, Nat.add_lt_add_left hi buf⟩]

theorem fill_frame {buf : Nat} {bytes : List UInt8} (ha : ¬(buf ≤ a ∧ a < buf + bytes.length)) :
    fill buf bytes mem a = mem a := if_neg ha

theorem fill_congr (buf : Nat) (bytes : List UInt8) (heq : mem1 a = mem2 a) :
    fill buf bytes mem1 a = fill buf bytes mem2 a := by
  unfold fill
  rw [heq]

theorem run_eq (h : s.run t mem = some (r, mem')) :
    t.copyoutLoop s.dstva s.buf s.bytes.length (fill s.buf s.bytes mem) = some (r, mem') := by
  rw [Store.run, copyout] at h
  split at h
  · exact absurd h (by simp)
  · exact h

theorem run_isSome (s : Store) (mem : Memory) :
    (s.run t mem).isSome ↔ s.dstva ≤ MAXVA t.arch ∧ Clear t s.dstva s.bytes.length := by
  unfold Store.run copyout
  split
  · exact iff_of_false (by simp) (by omega)
  · rw [copyoutLoop_isSome]
    exact ⟨fun h => ⟨by omega, h⟩, fun h => h.2⟩

/-- A copy returns 0 exactly if its whole range is the user's. -/
theorem run_whole (h : s.run t mem = some (r, mem')) : r = 0 ↔ s.Whole t := by
  have hloop := run_eq h
  have hreturns := copyLoop_returns (t := t) moveOut s.dstva s.buf s.bytes.length (fill s.buf s.bytes mem)
  rw [copyoutLoop_eq] at hloop
  unfold Store.Whole
  rw [← hreturns]
  constructor
  · rintro rfl
    exact ⟨mem', hloop⟩
  · rintro ⟨mem'', hzero⟩
    rw [hloop] at hzero
    cases hzero
    rfl

theorem run_untouched (h : s.run t mem = some (r, mem')) (hbuf : ¬(s.buf ≤ a ∧ a < s.buf + s.bytes.length))
    (ha : ∀ va, s.Reaches t va → a ≠ t.physical va) : mem' a = mem a := by
  have htouched : ¬Touched t s.dstva s.bytes.length a := by
    rw [touched_iff]
    rintro ⟨va, hva, heq⟩
    exact ha va hva heq
  rw [copyoutLoop_untouched (run_eq h) htouched, fill_frame hbuf]

theorem run_pair (mem2 : Memory) (hkernel : KernelBuffer t s.buf s.bytes.length) (h : s.run t mem1 = some (r, mem1')) :
    ∃ mem2', s.run t mem2 = some (r, mem2') ∧
      ∀ a, mem1 a = mem2 a ∨ (∃ va, s.Reaches t va ∧ a = t.physical va) → mem1' a = mem2' a := by
  obtain ⟨mem2', hloop, heq⟩ := copyoutLoop_pair _ hkernel (fun i hi => fill_at s.buf s.bytes mem1 mem2 hi) (run_eq h)
  refine ⟨mem2', ?_, fun a ha => heq a ?_⟩
  · have hle := ((run_isSome (t := t) s mem1).mp (by rw [h]; rfl)).1
    rw [Store.run, copyout, if_neg (by omega)]
    exact hloop
  · rw [touched_iff]
    exact ha.imp_left fun hsame => fill_congr s.buf s.bytes hsame

/-- The copies come back exactly if none of them runs into `MAXVA`. -/
theorem storeAll_isSome (stores : List Store) (mem : Memory) : (storeAll t stores mem).isSome ↔ ¬Panics t stores := by
  induction stores generalizing mem with
  | nil => exact iff_of_true rfl id
  | cons s rest ih =>
    rw [storeAll, Panics, not_or, not_not, ← run_isSome s mem]
    cases hrun : s.run t mem with
    | none => simp
    | some result =>
      obtain ⟨r, mem'⟩ := result
      have hwhole := run_whole hrun
      by_cases hr : r = 0
      · simp [hr, ih mem', hwhole.mp hr]
      · simp [hr, mt hwhole.mpr hr]

/-- What they write does not depend on what was there. -/
theorem storeAll_pair (mem2 : Memory) (hkernel : ∀ s ∈ stores, KernelBuffer t s.buf s.bytes.length)
    (h : storeAll t stores mem1 = some (n, ok, mem1')) :
    ∃ mem2', storeAll t stores mem2 = some (n, ok, mem2') ∧
      ∀ a, mem1 a = mem2 a ∨ (∃ va, Reached t stores va ∧ a = t.physical va) → mem1' a = mem2' a := by
  induction stores generalizing mem1 mem2 n with
  | nil =>
    obtain ⟨rfl, rfl, rfl⟩ : 0 = n ∧ true = ok ∧ mem1 = mem1' := by simpa [storeAll] using h
    refine ⟨mem2, rfl, ?_⟩
    rintro a (heq | ⟨va, hva, -⟩)
    · exact heq
    · exact absurd hva id
  | cons s rest ih =>
    rw [storeAll] at h
    obtain ⟨⟨r, mem1''⟩, hrun, hrest⟩ := Option.bind_eq_some_iff.mp h
    obtain ⟨mem2'', hrun2, heq⟩ := run_pair mem2 (hkernel s List.mem_cons_self) hrun
    have hwhole := run_whole hrun
    rw [storeAll, hrun2, Option.bind_some]
    by_cases hr : r = 0
    · simp only [if_pos hr] at hrest ⊢
      obtain ⟨⟨n', ok', mem'⟩, hstores, heq'⟩ := Option.map_eq_some_iff.mp hrest
      cases heq'
      obtain ⟨mem2', hstores2, hafter⟩ := ih mem2'' (fun s hs => hkernel s (List.mem_cons_of_mem _ hs)) hstores
      refine ⟨mem2', by rw [hstores2]; rfl, fun a ha => hafter a ?_⟩
      rcases ha with hsame | ⟨va, hva | ⟨-, hva⟩, hphysical⟩
      · exact Or.inl (heq a (Or.inl hsame))
      · exact Or.inl (heq a (Or.inr ⟨va, hva, hphysical⟩))
      · exact Or.inr ⟨va, hva, hphysical⟩
    · simp only [if_neg hr] at hrest ⊢
      cases hrest
      refine ⟨mem2'', rfl, fun a ha => heq a ?_⟩
      rcases ha with hsame | ⟨va, hva | ⟨hall, -⟩, hphysical⟩
      · exact Or.inl hsame
      · exact Or.inr ⟨va, hva, hphysical⟩
      · exact absurd (hwhole.mpr hall) hr

/-- They write what they get to and their own buffers. -/
theorem storeAll_untouched (h : storeAll t stores mem = some (n, ok, mem'))
    (hbuf : ∀ s ∈ stores, ¬(s.buf ≤ a ∧ a < s.buf + s.bytes.length))
    (ha : ∀ va, Reached t stores va → a ≠ t.physical va) : mem' a = mem a := by
  induction stores generalizing mem n with
  | nil =>
    obtain ⟨-, -, rfl⟩ : 0 = n ∧ true = ok ∧ mem = mem' := by simpa [storeAll] using h
    rfl
  | cons s rest ih =>
    rw [storeAll] at h
    obtain ⟨⟨r, mem''⟩, hrun, hrest⟩ := Option.bind_eq_some_iff.mp h
    have hfirst := run_untouched hrun (hbuf s List.mem_cons_self) fun va hva => ha va (Or.inl hva)
    by_cases hr : r = 0
    · simp only [if_pos hr] at hrest
      obtain ⟨⟨n', ok', mem3⟩, hstores, heq⟩ := Option.map_eq_some_iff.mp hrest
      cases heq
      rw [← hfirst]
      refine ih hstores (fun s hs => hbuf s (List.mem_cons_of_mem _ hs)) fun va hva => ha va (Or.inr ⟨?_, hva⟩)
      exact (run_whole hrun).mp hr
    · simp only [if_neg hr] at hrest
      cases hrest
      exact hfirst

theorem reached_mapped {stores : List Store} (h : Reached t stores va) : Mapped t va := by
  induction stores with
  | nil => exact absurd h id
  | cons s rest ih =>
    rcases h with ⟨i, hi, hmapped, rfl⟩ | ⟨-, hrest⟩
    · exact hmapped i (le_refl i)
    · exact ih hrest

/-- Calls that are over after their copies honour read-only pages exactly if the copies keep off them. -/
theorem honours_stores (hkernel : ∀ s ∈ stores, KernelBuffer t s.buf s.bytes.length) (ret : Nat → Bool → Int) :
    HonoursReadOnly t stores (fun mem => (storeAll t stores mem).map fun (n, ok, mem) => (ret n ok, mem)) ↔
      Panics t stores ∨ KeepsOff t stores := by
  constructor
  · intro hhonours
    by_contra hno
    rw [not_or] at hno
    obtain ⟨hpanics, hkeeps⟩ := hno
    unfold KeepsOff at hkeeps
    push Not at hkeeps
    obtain ⟨va, hva, va', hreadOnly, hsame⟩ := hkeeps
    -- the copies leave the same byte whatever was there, so they change some byte
    obtain ⟨⟨n, ok, mem'⟩, hrun⟩ := Option.isSome_iff_exists.mp ((storeAll_isSome stores fun _ => 0).mpr hpanics)
    obtain ⟨mem2', hrun2, heq⟩ := storeAll_pair (fun _ => mem' (t.physical va) + 1) hkernel hrun
    have hcall := congrArg (Option.map fun (n, ok, mem) => (ret n ok, mem)) hrun2
    have hkept := (hhonours _ (ret n ok) mem2' hcall).1 va' hreadOnly
    rw [← hsame, ← heq _ (Or.inr ⟨va, hva, rfl⟩)] at hkept
    exact absurd hkept (by simp)
  · rintro (hpanics | hkeeps) mem r mem' h
    · obtain ⟨result, hrun, -⟩ := Option.map_eq_some_iff.mp h
      exact absurd hpanics ((storeAll_isSome stores mem).mp (by rw [hrun]; rfl))
    · obtain ⟨⟨n, ok, mem''⟩, hrun, heq⟩ := Option.map_eq_some_iff.mp h
      cases heq
      refine ⟨fun va hva => ?_, fun ⟨va, hreached, hva⟩ => absurd rfl (hkeeps va hreached va hva)⟩
      refine storeAll_untouched hrun (fun s hs hin => ?_) fun va' hreached heq => hkeeps va' hreached va hva heq.symm
      obtain ⟨i, hi⟩ := Nat.exists_eq_add_of_le hin.1
      exact hkernel s hs i (by omega) va hva.1 hi

end Calls

/-! ## Every system call -/

section Honours

open PageTable

/-- A call that is refused has written nothing and fails. -/
theorem honours_refused (stores : List Store) (e : Int) (he : e < 0) :
    HonoursReadOnly t stores fun mem => some (e, mem) := by
  intro mem r mem' h
  cases h
  exact ⟨fun _ _ => rfl, fun _ => he⟩

theorem accessOk_isSome (type : Int) (addr size : Nat) : (t.accessOk type addr size).isSome := by
  unfold accessOk
  split
  · rfl
  · rename_i hin
    split
    · split
      · rfl
      · rename_i hroot
        have hend : (addr + size) % 2 ^ 64 ≤ MAXVA t.arch := by omega
        obtain ⟨ok, hloop, -⟩ := accessLoop_eq type hroot hend (pgRoundDown_idem addr)
        rw [hloop]
        rfl
    · rfl

theorem check_isSome (checks : List (Int × Nat × Nat)) : (StoreCall.check t checks).isSome := by
  induction checks with
  | nil => rfl
  | cons check rest ih =>
    obtain ⟨type, addr, size⟩ := check
    rw [StoreCall.check]
    obtain ⟨ok, hok⟩ := Option.isSome_iff_exists.mp (accessOk_isSome (t := t) type addr size)
    rw [hok, Option.bind_some]
    cases ok with
    | true => exact ih
    | false => rfl

/-- A call is refused by its checks, runs into `MAXVA`, or keeps off the read-only pages: else it writes
to one. -/
theorem call_honours (call : StoreCall t) :
    HonoursReadOnly t call.stores call.run ↔
      StoreCall.check t call.checks = some false ∨ Panics t call.stores ∨ KeepsOff t call.stores := by
  obtain ⟨ok, hok⟩ := Option.isSome_iff_exists.mp (check_isSome (t := t) call.checks)
  have hrun : call.run = fun mem =>
      if ok then (storeAll t call.stores mem).map fun (n, ok, mem) => (call.ret n ok, mem) else some (-EFAULT, mem) := by
    funext mem
    rw [StoreCall.run, hok, Option.bind_some]
  rw [hrun, hok]
  cases ok with
  | true =>
    simp only [if_true]
    rw [honours_stores call.kernel call.ret]
    simp
  | false =>
    simp only [Bool.false_eq_true, if_false]
    exact iff_of_true (honours_refused call.stores (-EFAULT) (by decide)) (Or.inl trivial)

/-- The copies of `sys_read`. -/
def readStores (fd : Option File) (buf va : Nat) (len : Int) : List Store :=
  fd.elim [] fun f => f.data.stores buf va len

/-- `sys_read` refuses before it looks at the data: no such descriptor, or one that cannot be read, or a
buffer that cannot, other than for a file of `/proc`. -/
def ReadRefused (t : PageTable) (f : File) (va : Nat) (len : Int) : Prop :=
  f.oPath = true ∨ f.readable = false ∨ t.accessOk VERIFY_READ va (toU64 len) = some false ∧ f.proc = false

theorem fileread_honours {data : FileData} {buf addr : Nat} {n : Int}
    (hkernel : ∀ s ∈ data.stores buf addr n, KernelBuffer t s.buf s.bytes.length) :
    HonoursReadOnly t (data.stores buf addr n) (fileread t data buf addr n) ↔
      data.panics n = true ∨ Panics t (data.stores buf addr n) ∨ KeepsOff t (data.stores buf addr n) := by
  cases hpanics : data.panics n with
  | true =>
    refine iff_of_true (fun mem r mem' h => ?_) (Or.inl rfl)
    rw [fileread, if_pos hpanics] at h
    exact absurd h (by simp)
  | false =>
    have hread : fileread t data buf addr n = fun mem =>
        (storeAll t (data.stores buf addr n) mem).map fun (k, ok, mem) => (data.ret n k ok, mem) := by
      funext mem
      rw [fileread, if_neg (by simp [hpanics])]
    rw [hread, honours_stores hkernel fun k ok => data.ret n k ok]
    simp

theorem read_honours (fd : Option File) (buf va : Nat) (len : Int)
    (hkernel : ∀ s ∈ readStores fd buf va len, KernelBuffer t s.buf s.bytes.length) :
    HonoursReadOnly t (readStores fd buf va len) (sysRead t fd buf va len) ↔
      ∀ f, fd = some f → ReadRefused t f va len ∨ f.data.panics len = true ∨
        Panics t (readStores fd buf va len) ∨ KeepsOff t (readStores fd buf va len) := by
  cases fd with
  | none => exact iff_of_true (honours_refused [] (-EBADF) (by decide)) fun f hf => absurd hf (by simp)
  | some f =>
    obtain ⟨ok, hok⟩ := Option.isSome_iff_exists.mp (accessOk_isSome (t := t) VERIFY_READ va (toU64 len))
    by_cases hrefused : ReadRefused t f va len
    · have hcall : ∃ e : Int, e < 0 ∧ sysRead t (some f) buf va len = fun mem => some (e, mem) := by
        rcases hrefused with hpath | hreadable | ⟨haccess, hproc⟩
        · exact ⟨-EBADF, by decide, by funext mem; rw [sysRead, if_pos hpath]⟩
        · refine ⟨-EBADF, by decide, ?_⟩
          funext mem
          rw [sysRead, if_pos hreadable, ite_self]
        · cases hpath : f.oPath with
          | true => exact ⟨-EBADF, by decide, by funext mem; rw [sysRead, if_pos hpath]⟩
          | false =>
            cases hreadable : f.readable with
            | false =>
              refine ⟨-EBADF, by decide, ?_⟩
              funext mem
              rw [sysRead, if_pos hreadable, ite_self]
            | true =>
              refine ⟨-EFAULT, by decide, ?_⟩
              funext mem
              rw [sysRead, hpath, hreadable, haccess, hproc]
              rfl
      obtain ⟨e, he, hcall⟩ := hcall
      rw [hcall]
      refine iff_of_true (honours_refused _ e he) fun f' hf' => ?_
      cases hf'
      exact Or.inl hrefused
    · have hpassed := hrefused
      simp only [ReadRefused, not_or, not_and, Bool.not_eq_true, Bool.not_eq_false] at hpassed
      obtain ⟨hpath, hreadable, haccess⟩ := hpassed
      have hcall : sysRead t (some f) buf va len = fileread t f.data buf va len := by
        funext mem
        rw [sysRead, if_neg (by simp [hpath]), if_neg (by simp [hreadable]), hok, Option.bind_some, if_neg]
        rintro ⟨rfl, hproc⟩
        exact absurd (haccess hok) (by simp [hproc])
      rw [hcall]
      refine (fileread_honours hkernel).trans ?_
      constructor
      · intro h f' hf'
        cases hf'
        exact Or.inr h
      · exact fun h => (h f rfl).resolve_left hrefused

/-- Bytes that the user may write are none of a read-only page, where every physical page has one
address. -/
theorem keepsOff_writable (hdistinct : DistinctPages t) {stores : List Store}
    (h : ∀ va, Reached t stores va → Granted t VERIFY_WRITE va) : KeepsOff t stores := by
  intro va hva va' ⟨hmapped, pte, hentry, hbit⟩ hsame
  obtain rfl := physical_inj hdistinct (reached_mapped hva) hmapped hsame
  obtain ⟨pte', hentry', hrights⟩ := h va hva
  rw [hentry] at hentry'
  cases hentry'
  simp only [rights, if_true, hbit] at hrights
  exact absurd hrights (by decide)

/-- A pipe with one byte in it. -/
def pipeFile : File := ⟨false, true, false, .pipe [7]⟩

theorem onePageWith_readable (flags : Nat) (h : Granted (onePageWith flags) VERIFY_READ 0) :
    (onePageWith flags).accessOk VERIFY_READ 0 1 = some true := by
  rw [accessOk_iff (by decide) (by decide) (Or.inr rfl)]
  refine ⟨show 0 + 1 ≤ MAXVA .riscv by decide, show 0x80201000 ≠ 0 by decide, fun va _ hlt => ?_⟩
  obtain rfl : va = 0 := by omega
  exact h

theorem onePageWith_distinct (flags : Nat) : DistinctPages (onePageWith flags) := by
  intro va va' hva hva' _
  rw [onePageWith_mapped flags hva, onePageWith_mapped flags hva']

end Honours

end SC7.UserCopy
