-- SUMMARY: Page tables as trees in physical memory: `walk` and `mappages` entry by entry, and the tree they keep.
import SC7.Base.Blocks
import SC7.Base.Radix
import SC7.Mem.Vmem

/-!
# Page tables in memory

`vmem.c` keeps a page table as a radix tree of pages: `walk` goes down from the root, one entry a
level, and takes a page from the allocator where a table is missing; `mappages` writes one leaf entry a
page. Here the tables are bytes of the allocator's memory, so that a table that is also something else
would be seen. The entry of a table leads to the kernel's address of the next one, in the window of
directly mapped memory.
-/

namespace SC7

namespace PageTable

/-! ## Entries -/

/-- `PTE2PA`. -/
def PTE2PA : Arch → Nat → Nat
  | .riscv, pte => (pte >>> 10) <<< 12 % 2 ^ 64
  | .loongarch, pte => pte &&& 0xFFFFFFFFF <<< 12

/-- `PA2PTE`. -/
def PA2PTE : Arch → Nat → Nat
  | .riscv, pa => (pa >>> 12) <<< 10
  | .loongarch, pa => pa &&& 0xFFFFFFFFF <<< 12

def PTE_MAT : Nat := 1 <<< 4

def PTE_WALK : Arch → Nat
  | .riscv => PTE_V
  | .loongarch => PTE_V ||| PTE_MAT ||| PTE_D .loongarch

/-- The window in which the kernel sees physical memory. -/
def dmwin_win0 : Arch → Nat
  | .riscv => 0
  | .loongarch => 0x9 <<< 60

/-- `PX(level, va)`. -/
def PX (level va : Nat) : Nat := va >>> (12 + 9 * level) &&& 0x1FF

/-- `*pte`. -/
def ld (s : Pmem) (pte : Nat) : Nat := Blocks.readWord s.mem pte

/-- `*pte = value`. -/
def st (s : Pmem) (pte value : Nat) : Pmem :=
  { s with mem := Blocks.write s.mem (pte, Blocks.leBytes 8 value) }

/-! ## Walking and mapping -/

section

variable (arch : Arch)

/-- The loop of `walk_internal` from `level` down. The result is the address of the entry, or `NULL`. -/
def walkLevels (alloc : Bool) (va : Nat) : Nat → Nat → Pmem → Option (Nat × Pmem)
  | 0, pt, s => some (pt + 8 * PX 0 va, s)
  | level + 1, pt, s =>
    let pte := pt + 8 * PX (level + 1) va
    if ld s pte &&& PTE_V ≠ 0 then
      let next := PTE2PA arch (ld s pte)
      if next = 0 then some (NULL, s) else walkLevels alloc va level (next ||| dmwin_win0 arch) s
    else if alloc then
      (s.pmemAllocPages 1).bind fun (pt, s) =>
        if pt = NULL then some (NULL, s)
        else walkLevels alloc va level pt (st s pte (PA2PTE arch pt ||| PTE_WALK arch ||| dmwin_win0 arch))
    else some (NULL, s)

/-- `walk_internal`; `none` is a failed `assert` or a panic of the allocator. -/
def walk (pt va : Nat) (alloc : Bool) (s : Pmem) : Option (Nat × Pmem) :=
  if va ≥ MAXVA arch then none
  else if pt = NULL then some (NULL, s)
  else walkLevels arch alloc va (PT_LEVEL arch - 1) pt s

/-- How `mappages_internal` ends: it returns, or an `assert` fails. -/
inductive Mapped where
  | returned (result : Int) (s : Pmem)
  | failed

/-- The loop of `mappages_internal`; `none` is a loop that has not ended yet. -/
def mappagesLoop (pt perm end_ : Nat) : Nat → Nat → Nat → Pmem → Option Mapped
  | 0, _, _, _ => none
  | n + 1, current, pa, s =>
    match walk arch pt current true s with
    | none => some .failed
    | some (pte, s) =>
      if pte = NULL then some .failed
      else if ld s pte &&& PTE_V ≠ 0 then some (.returned (-EINVAL) s)
      else
        let s := st s pte (PA2PTE arch pa ||| perm ||| PTE_V)
        if current = end_ then some (.returned 1 s)
        else mappagesLoop pt perm end_ n (add64 current PGSIZE) (add64 pa PGSIZE) s

/-- `mappages_internal`, with at most one round a page. -/
def mappages (pt va pa len perm : Nat) (s : Pmem) : Option Mapped :=
  if va ≥ MAXVA arch ∨ pa % PGSIZE ≠ 0 then some .failed
  else
    let begin := pgRoundDown va
    let end_ := pgRoundDown (sub64 (add64 va len) 1)
    mappagesLoop arch pt perm end_ ((end_ - begin) / PGSIZE + 1) begin pa s

/-- The leaf entry of an address, as `walk(pt, va, 0)` finds it; `0` if there is none. -/
def readLeaf (pt va : Nat) (s : Pmem) : Nat :=
  match walk arch pt va false s with
  | some (pte, s) => if pte = NULL then 0 else ld s pte
  | none => 0

/-- The kernel's address of the page that a leaf entry maps. -/
def pageOf (pte : Nat) : Nat := PTE2PA arch pte ||| dmwin_win0 arch

end

/-! ## The tree -/

/-- The table that an entry leads to. -/
def child (arch : Arch) (pte : Nat) : Option Nat :=
  if pte &&& PTE_V ≠ 0 ∧ PTE2PA arch pte ≠ 0 then some (pageOf arch pte) else none

theorem PX_eq (level va : Nat) : PX level va = va / PGSIZE / 512 ^ level % 512 := by
  have hpow : (2 : Nat) ^ (12 + 9 * level) = PGSIZE * 512 ^ level := by
    rw [Nat.pow_add, Nat.pow_mul]
  have hand := Nat.and_two_pow_sub_one_eq_mod (va >>> (12 + 9 * level)) 9
  rw [PX, Nat.div_div_eq_div_mul, ← hpow, ← Nat.shiftRight_eq_div_pow]
  exact hand

theorem PX_lt (level va : Nat) : PX level va < 512 := by
  rw [PX_eq]
  exact Nat.mod_lt _ (by decide)

/-- The layout of a page table. -/
def shape (arch : Arch) : Radix.Shape Nat where
  depth := PT_LEVEL arch
  size := PGSIZE
  offset n va := 8 * PX (PT_LEVEL arch - 1 - n) va
  child := child arch
  depth_pos := by cases arch <;> decide
  size_mod := rfl
  offset_mod n va := Nat.mul_mod_right 8 _
  offset_lt n va := by
    have := PX_lt (PT_LEVEL arch - 1 - n) va
    simp only [PGSIZE]
    omega
  child_zero := if_neg fun h => h.1 rfl

/-- The tables on the way to an address, from the root. -/
abbrev table (arch : Arch) (s : Pmem) (root va n : Nat) : Option Nat :=
  Radix.table (shape arch) (ld s) root va n

/-- Two numbers with the same digits are equal. -/
theorem eq_of_digits {base n a b : Nat} (ha : a < base ^ n) (hb : b < base ^ n)
    (h : ∀ i < n, a / base ^ i % base = b / base ^ i % base) : a = b := by
  induction n generalizing a b with
  | zero =>
    rw [Nat.pow_zero] at ha hb
    omega
  | succ n ih =>
    have hdiv : a / base = b / base := by
      apply ih
      · exact Nat.div_lt_of_lt_mul (by rwa [← Nat.pow_succ'])
      · exact Nat.div_lt_of_lt_mul (by rwa [← Nat.pow_succ'])
      · intro i hi
        have := h (i + 1) (by omega)
        rwa [Nat.pow_succ', ← Nat.div_div_eq_div_mul, ← Nat.div_div_eq_div_mul] at this
    have hmod : a % base = b % base := by
      have := h 0 (Nat.succ_pos n)
      rwa [Nat.pow_zero, Nat.div_one, Nat.div_one] at this
    rw [← Nat.div_add_mod a base, ← Nat.div_add_mod b base, hdiv, hmod]

theorem page_lt {arch : Arch} {va : Nat} (h : va < MAXVA arch) : va / PGSIZE < 512 ^ PT_LEVEL arch := by
  have hmax : MAXVA arch ≤ PGSIZE * 512 ^ PT_LEVEL arch := by cases arch <;> decide
  exact Nat.div_lt_of_lt_mul (Nat.lt_of_lt_of_le h hmax)

/-- User addresses that take the same way lie in the same page, and the other way round. -/
theorem same_iff {arch : Arch} {va va' : Nat} (h : va < MAXVA arch) (h' : va' < MAXVA arch) :
    Radix.Same (shape arch) (PT_LEVEL arch) va va' ↔ va / PGSIZE = va' / PGSIZE := by
  constructor
  · intro hsame
    apply eq_of_digits (page_lt h) (page_lt h')
    intro i hi
    have hlevel := hsame (PT_LEVEL arch - 1 - i) (by omega)
    have hsub : PT_LEVEL arch - 1 - (PT_LEVEL arch - 1 - i) = i := by omega
    simp only [shape, hsub, PX_eq] at hlevel
    omega
  · intro hpage i _
    simp only [shape, PX_eq, hpage]

end PageTable

end SC7
