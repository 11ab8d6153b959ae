-- SUMMARY: Copies between the kernel and user memory (`vmem.c`): `copyin`, `copyout` and `copyinstr` over a page table, when they panic and what they write.
import SC7.Mem.Vmem

/-!
# User copies

The walk is modelled on the words of the page table, so that it can be any table at all. A failed
`assert` and a `panic` are `none`. `walkaddr` panics above `MAXVA`, the `assert` in `walk` at `MAXVA` as
well, and `copyin` and `copyout` check only where the range starts.

Memory is by the address that the kernel uses for a byte. The tables themselves are not part of it: a
page table is not user memory. The kernel passes its buffers as they are, so they do not wrap around.
-/

namespace SC7.UserCopy

open Function (update update_of_ne)

/-- `dmwin_win0`, the window through which the kernel sees physical memory. -/
def dmwinWin0 : Arch → Nat
  | .riscv => 0
  | .loongarch => 0x9 <<< 60

/-- `PTE2PA(pte)`. -/
def PTE2PA (arch : Arch) (pte : Nat) : Nat :=
  match arch with
  | .riscv => (pte >>> 10) <<< 12 % 2 ^ 64
  | .loongarch => pte &&& (0xFFFFFFFFF <<< 12)

/-- `PX(level, va)`. -/
def PX (level va : Nat) : Nat := va >>> (12 + 9 * level) &&& 0x1FF

/-- A page table: its address, and the words of the tables by address and index. -/
structure PageTable where
  arch : Arch
  root : Nat
  entry : Nat → Nat → Nat

/-- The bytes of the kernel's address space. -/
abbrev Memory := Nat → UInt8

namespace PageTable

variable (t : PageTable)

/-- The levels of `walk_internal(pt, va, 0)` from this one down: the last entry, if there is one. -/
def walkLevels (va : Nat) : Nat → Nat → Option Nat
  | 0, pt => some (t.entry pt (PX 0 va))
  | level + 1, pt =>
    let pte := t.entry pt (PX (level + 1) va)
    if pte &&& PTE_V ≠ 0 then
      if PTE2PA t.arch pte = 0 then none
      else walkLevels va level (PTE2PA t.arch pte ||| dmwinWin0 t.arch)
    else none

/-- `walk(pt, va, 0)`. -/
def walk (va : Nat) : Option (Option Nat) :=
  if va < MAXVA t.arch then
    if t.root = 0 then some none else some (t.walkLevels va (PT_LEVEL t.arch - 1) t.root)
  else none

def walkaddr (va : Nat) : Option Nat :=
  if va > MAXVA t.arch then none
  else
    (t.walk va).map fun
      | none => 0
      | some pte =>
        if pte &&& PTE_V = 0 then 0
        else if pte &&& PTE_U t.arch = 0 then 0
        else PTE2PA t.arch pte ||| dmwinWin0 t.arch

/-- Where the kernel finds a byte of a page that `walkaddr` has translated to `pa0`. -/
def place (pa0 offset : Nat) : Nat := (pa0 + offset) ||| dmwinWin0 t.arch

/-- `memmove(dst, src, n)`. -/
def memmove (mem : Memory) (dst src n : Nat) : Memory := fun a =>
  if dst ≤ a ∧ a < dst + n then mem (src + (a - dst)) else mem a

theorem pgRoundDown_le (va : Nat) : pgRoundDown va ≤ va := by
  simp only [pgRoundDown, PGSIZE]
  omega

theorem sub_pgRoundDown (va : Nat) : va - pgRoundDown va < PGSIZE := by
  simp only [pgRoundDown, PGSIZE]
  omega

/-- The loop of `copyin`. -/
def copyinLoop (dst srcva len : Nat) (mem : Memory) : Option (Int × Memory) :=
  if len = 0 then some (0, mem)
  else
    match t.walkaddr (pgRoundDown srcva) with
    | none => none
    | some pa0 =>
      if pa0 = 0 then some (-1, mem)
      else
        let n := min (PGSIZE - (srcva - pgRoundDown srcva)) len
        copyinLoop (dst + n) ((pgRoundDown srcva + PGSIZE) % 2 ^ 64) (len - n)
          (memmove mem dst (t.place pa0 (srcva - pgRoundDown srcva)) n)
termination_by len
decreasing_by
  have := sub_pgRoundDown srcva
  omega

def copyin (dst srcva len : Nat) (mem : Memory) : Option (Int × Memory) :=
  if srcva > MAXVA t.arch then none else t.copyinLoop dst srcva len mem

/-- The loop of `copyout`. -/
def copyoutLoop (dstva src len : Nat) (mem : Memory) : Option (Int × Memory) :=
  if len = 0 then some (0, mem)
  else
    match t.walkaddr (pgRoundDown dstva) with
    | none => none
    | some pa0 =>
      if pa0 = 0 then some (-1, mem)
      else
        let n := min (PGSIZE - (dstva - pgRoundDown dstva)) len
        copyoutLoop ((pgRoundDown dstva + PGSIZE) % 2 ^ 64) (src + n) (len - n)
          (memmove mem (t.place pa0 (dstva - pgRoundDown dstva)) src n)
termination_by len
decreasing_by
  have := sub_pgRoundDown dstva
  omega

def copyout (dstva src len : Nat) (mem : Memory) : Option (Int × Memory) :=
  if dstva > MAXVA t.arch then none else t.copyoutLoop dstva src len mem

/-- The bytes of one page in `copyinstr`: how many were copied, and whether a zero ended them. -/
def copyPage (dst p : Nat) : Nat → Memory → Bool × Nat × Memory
  | 0, mem => (false, 0, mem)
  | n + 1, mem =>
    if mem p = 0 then (true, 0, update mem dst 0)
    else
      let (null, k, mem) := copyPage (dst + 1) (p + 1) n (update mem dst (mem p))
      (null, k + 1, mem)

/-- The loop of `copyinstr`: the number of bytes copied, or `none` inside for -1. -/
def copyinstrLoop (dst srcva max len : Nat) (mem : Memory) : Option (Option Nat × Memory) :=
  if max = 0 then some (some len, mem)
  else
    match t.walkaddr (pgRoundDown srcva) with
    | none => none
    | some pa0 =>
      if pa0 = 0 then some (none, mem)
      else
        let n := min (PGSIZE - (srcva - pgRoundDown srcva)) max
        match copyPage dst (t.place pa0 (srcva - pgRoundDown srcva)) n mem with
        | (true, k, mem) => some (some (len + k), mem)
        | (false, _, mem) => copyinstrLoop (dst + n) ((pgRoundDown srcva + PGSIZE) % 2 ^ 64) (max - n) (len + n) mem
termination_by max
decreasing_by
  have := sub_pgRoundDown srcva
  omega

def copyinstr (dst srcva max : Nat) (mem : Memory) : Option (Option Nat × Memory) :=
  t.copyinstrLoop dst srcva max 0 mem

/-! ## User addresses -/

/-- The entry of a page of the user. -/
def userEntry (va : Nat) : Option Nat :=
  if t.root = 0 then none
  else
    (t.walkLevels (pgRoundDown va) (PT_LEVEL t.arch - 1) t.root).filter fun pte =>
      pte &&& PTE_V ≠ 0 ∧ pte &&& PTE_U t.arch ≠ 0

/-- The address of the page in the window: 0 if the user has none there. -/
def page (va : Nat) : Nat := (t.userEntry va).elim 0 fun pte => PTE2PA t.arch pte ||| dmwinWin0 t.arch

/-- The byte is below `MAXVA` and on a page of the user. -/
def Mapped (va : Nat) : Prop := va < MAXVA t.arch ∧ t.page va ≠ 0

/-- The byte is below `MAXVA` and not on a page of the user. -/
def Hole (va : Nat) : Prop := va < MAXVA t.arch ∧ t.page va = 0

/-- Where the kernel finds the byte at a user address. -/
def physical (va : Nat) : Nat := t.place (t.page va) (va - pgRoundDown va)

end PageTable

variable {t : PageTable} {va len n k i pa0 off a : Nat} {mem mem' : Memory}

/-! ## Pages -/

section Pages

open PageTable

theorem maxva_aligned (arch : Arch) : ∃ q, MAXVA arch = q * PGSIZE ∧ MAXVA arch + PGSIZE < 2 ^ 64 := by
  cases arch with
  | riscv => exact ⟨2 ^ 26, by decide, by decide⟩
  | loongarch => exact ⟨2 ^ 34, by decide, by decide⟩

theorem pgRoundDown_lt_maxva : pgRoundDown va < MAXVA t.arch ↔ va < MAXVA t.arch := by
  obtain ⟨q, hq, -⟩ := maxva_aligned t.arch
  rw [hq, pgRoundDown]
  simp only [PGSIZE]
  omega

/-- `walkaddr` of the page of an address panics exactly at and above `MAXVA`. -/
theorem walkaddr_page (va : Nat) :
    t.walkaddr (pgRoundDown va) = if va < MAXVA t.arch then some (t.page va) else none := by
  split
  · rename_i hlt
    have hpage := pgRoundDown_lt_maxva.mpr hlt
    rw [page, userEntry, walkaddr, if_neg (by omega), walk, if_pos hpage]
    split
    · rfl
    · cases t.walkLevels (pgRoundDown va) (PT_LEVEL t.arch - 1) t.root with
      | none => rfl
      | some pte =>
        by_cases hv : pte &&& PTE_V = 0
        · simp [hv, Option.filter]
        · by_cases hu : pte &&& PTE_U t.arch = 0 <;> simp [hv, hu, Option.filter]
  · rename_i hge
    have hpage : ¬pgRoundDown va < MAXVA t.arch := mt pgRoundDown_lt_maxva.mp hge
    rw [walkaddr, walk, if_neg hpage]
    split <;> rfl

theorem walkaddr_none (hwalk : t.walkaddr (pgRoundDown va) = none) : ¬va < MAXVA t.arch := by
  intro hlt
  rw [walkaddr_page, if_pos hlt] at hwalk
  exact absurd hwalk (by simp)

theorem walkaddr_some (hwalk : t.walkaddr (pgRoundDown va) = some pa0) : va < MAXVA t.arch ∧ t.page va = pa0 := by
  rw [walkaddr_page] at hwalk
  split at hwalk
  · rename_i hlt
    exact ⟨hlt, Option.some.inj hwalk⟩
  · exact absurd hwalk (by simp)

/-- The bytes up to the end of the page are on the same page. -/
theorem pgRoundDown_add (hi : i < PGSIZE - (va - pgRoundDown va)) : pgRoundDown (va + i) = pgRoundDown va := by
  simp only [pgRoundDown, PGSIZE] at hi ⊢
  omega

theorem page_add (hi : i < PGSIZE - (va - pgRoundDown va)) : t.page (va + i) = t.page va := by
  rw [page, page, userEntry, userEntry, pgRoundDown_add hi]

theorem next_page (hva : va < MAXVA t.arch) :
    (pgRoundDown va + PGSIZE) % 2 ^ 64 = va + (PGSIZE - (va - pgRoundDown va)) := by
  obtain ⟨q, -, hmax⟩ := maxva_aligned t.arch
  have hle := pgRoundDown_le va
  have hsub := sub_pgRoundDown va
  rw [Nat.mod_eq_of_lt (by omega)]
  omega

/-- Up to the end of a page of the user everything is mapped. -/
theorem mapped_add (hva : Mapped t va) (hi : i < PGSIZE - (va - pgRoundDown va)) : Mapped t (va + i) := by
  refine ⟨?_, ?_⟩
  · rw [← pgRoundDown_lt_maxva, pgRoundDown_add hi, pgRoundDown_lt_maxva]
    exact hva.1
  · rw [page_add hi]
    exact hva.2

/-- Physical addresses of pages are aligned and already in the window. -/
theorem PTE2PA_aligned (pte : Nat) : PTE2PA t.arch pte % PGSIZE = 0 := by
  cases t.arch with
  | riscv =>
    rw [PTE2PA, Nat.shiftLeft_eq]
    simp only [PGSIZE]
    omega
  | loongarch =>
    have hmask : (0xFFFFFFFFF <<< 12) % 2 ^ 12 = 0 := by decide
    rw [PTE2PA, show PGSIZE = 2 ^ 12 from rfl, Nat.and_mod_two_pow, hmask, Nat.and_zero]

theorem page_window (hpage : t.page va ≠ 0) :
    t.page va % PGSIZE = 0 ∧ t.page va ||| dmwinWin0 t.arch = t.page va := by
  have hor : ∃ pte, t.page va = PTE2PA t.arch pte ||| dmwinWin0 t.arch := by
    rw [page] at hpage ⊢
    cases hentry : t.userEntry va with
    | none => simp [hentry] at hpage
    | some pte => exact ⟨pte, rfl⟩
  obtain ⟨pte, hpte⟩ := hor
  have hwin : dmwinWin0 t.arch % 2 ^ 12 = 0 := by cases t.arch <;> decide
  have halign := PTE2PA_aligned (t := t) pte
  rw [show PGSIZE = 2 ^ 12 from rfl] at halign ⊢
  refine ⟨?_, ?_⟩
  · rw [hpte, Nat.or_mod_two_pow, halign, hwin, Nat.or_self]
  · rw [hpte, Nat.or_assoc, Nat.or_self]

/-- Inside a page the window changes nothing. -/
theorem place_page (hpage : t.page va ≠ 0) (hoff : off < PGSIZE) :
    t.place (t.page va) off = t.page va + off := by
  obtain ⟨halign, hwin⟩ := page_window hpage
  obtain ⟨q, hq⟩ : ∃ q, t.page va = 2 ^ 12 * q := Nat.dvd_of_mod_eq_zero halign
  have hor : t.page va + off = t.page va ||| off := by
    rw [hq]
    exact Nat.two_pow_add_eq_or_of_lt hoff q
  rw [place, hor, Nat.or_assoc, Nat.or_comm off, ← Nat.or_assoc, hwin]

theorem physical_add (hva : Mapped t va) (hi : i < PGSIZE - (va - pgRoundDown va)) :
    t.physical (va + i) = t.place (t.page va) (va - pgRoundDown va) + i := by
  have hle := pgRoundDown_le va
  have hsub := sub_pgRoundDown va
  have hpage : t.page (va + i) ≠ 0 := (mapped_add hva hi).2
  rw [physical, place_page hpage (sub_pgRoundDown _), page_add hi, place_page hva.2 hsub, pgRoundDown_add hi]
  omega

end Pages

/-! ## copyin and copyout -/

section Copies

open PageTable

namespace PageTable

variable (t : PageTable)

/-- From the address on, the range is the user's up to its end or up to a hole below `MAXVA`. -/
def Clear (va len : Nat) : Prop := ∃ k ≤ len, (∀ i < k, Mapped t (va + i)) ∧ (k = len ∨ Hole t (va + k))

end PageTable

theorem clear_zero : Clear t va 0 := ⟨0, le_refl 0, fun i hi => absurd hi (Nat.not_lt_zero i), Or.inl rfl⟩

theorem clear_hole (hva : Hole t va) : Clear t va len :=
  ⟨0, Nat.zero_le len, fun i hi => absurd hi (Nat.not_lt_zero i), Or.inr hva⟩

theorem not_clear_above (hlen : len ≠ 0) (hva : ¬va < MAXVA t.arch) : ¬Clear t va len := by
  rintro ⟨k, hk, hmapped, hend⟩
  cases k with
  | zero =>
    rcases hend with rfl | hhole
    · exact hlen rfl
    · exact hva hhole.1
  | succ k => exact hva (hmapped 0 (Nat.succ_pos k)).1

/-- Bytes of the user in front change nothing. -/
theorem clear_add (hn : n ≤ len) (hmapped : ∀ i < n, Mapped t (va + i)) :
    Clear t va len ↔ Clear t (va + n) (len - n) := by
  constructor
  · rintro ⟨k, hk, hbefore, hend⟩
    have hnk : n ≤ k := by
      by_contra hlt
      rcases hend with rfl | hhole
      · omega
      · exact (hmapped k (by omega)).2 hhole.2
    refine ⟨k - n, by omega, fun i hi => ?_, ?_⟩
    · have := hbefore (n + i) (by omega)
      rwa [← Nat.add_assoc] at this
    · rcases hend with rfl | hhole
      · exact Or.inl rfl
      · exact Or.inr (by rwa [Nat.add_assoc, Nat.add_sub_cancel' hnk])
  · rintro ⟨k, hk, hbefore, hend⟩
    refine ⟨n + k, by omega, fun i hi => ?_, ?_⟩
    · by_cases hin : i < n
      · exact hmapped i hin
      · have := hbefore (i - n) (by omega)
        rwa [Nat.add_assoc, Nat.add_sub_cancel' (by omega)] at this
    · rcases hend with rfl | hhole
      · exact Or.inl (by omega)
      · exact Or.inr (by rwa [← Nat.add_assoc])

/-- One turn of the loops: a page of the user, or what is left of the range in it. -/
theorem clear_page (hva : Mapped t va) :
    Clear t va len ↔
      Clear t ((pgRoundDown va + PGSIZE) % 2 ^ 64) (len - min (PGSIZE - (va - pgRoundDown va)) len) := by
  rw [next_page hva.1]
  rcases Nat.le_total len (PGSIZE - (va - pgRoundDown va)) with hle | hle
  · rw [Nat.min_eq_right hle, clear_add (le_refl len) fun i hi => mapped_add hva (by omega)]
    rw [Nat.sub_self]
    exact iff_of_true clear_zero clear_zero
  · rw [Nat.min_eq_left hle, clear_add hle fun i hi => mapped_add hva hi]

/-- `copyin` comes back exactly if nothing at or above `MAXVA` is reached. -/
theorem copyinLoop_isSome (dst srcva len : Nat) (mem : Memory) :
    (t.copyinLoop dst srcva len mem).isSome ↔ Clear t srcva len := by
  fun_induction copyinLoop t dst srcva len mem with
  | case1 => exact iff_of_true rfl clear_zero
  | case2 dst srcva len mem hlen hwalk => exact iff_of_false (by simp) (not_clear_above hlen (walkaddr_none hwalk))
  | case3 dst srcva len mem hlen hwalk => exact iff_of_true rfl (clear_hole (walkaddr_some hwalk))
  | case4 dst srcva len mem hlen pa0 hwalk hpa n ih =>
    have ⟨hlt, hpage⟩ := walkaddr_some hwalk
    rw [ih, clear_page ⟨hlt, hpage ▸ hpa⟩]

theorem copyoutLoop_isSome (dstva src len : Nat) (mem : Memory) :
    (t.copyoutLoop dstva src len mem).isSome ↔ Clear t dstva len := by
  fun_induction copyoutLoop t dstva src len mem with
  | case1 => exact iff_of_true rfl clear_zero
  | case2 dstva src len mem hlen hwalk => exact iff_of_false (by simp) (not_clear_above hlen (walkaddr_none hwalk))
  | case3 dstva src len mem hlen hwalk => exact iff_of_true rfl (clear_hole (walkaddr_some hwalk))
  | case4 dstva src len mem hlen pa0 hwalk hpa n ih =>
    have ⟨hlt, hpage⟩ := walkaddr_some hwalk
    rw [ih, clear_page ⟨hlt, hpage ▸ hpa⟩]

theorem memmove_frame {dst src : Nat} (ha : ¬(dst ≤ a ∧ a < dst + n)) : memmove mem dst src n a = mem a :=
  if_neg ha

/-- `copyin` writes nothing but the buffer. -/
theorem copyinLoop_frame (dst srcva len : Nat) (mem : Memory) {r : Int}
    (h : t.copyinLoop dst srcva len mem = some (r, mem')) :
    (r = 0 ∨ r = -1) ∧ ∀ a, ¬(dst ≤ a ∧ a < dst + len) → mem' a = mem a := by
  fun_induction copyinLoop t dst srcva len mem with
  | case1 =>
    obtain ⟨rfl, rfl⟩ : (0 : Int) = r ∧ _ = mem' := by simpa using h
    exact ⟨Or.inl rfl, fun _ _ => rfl⟩
  | case2 => exact absurd h (by simp)
  | case3 =>
    obtain ⟨rfl, rfl⟩ : (-1 : Int) = r ∧ _ = mem' := by simpa using h
    exact ⟨Or.inr rfl, fun _ _ => rfl⟩
  | case4 dst srcva len mem hlen pa0 hwalk hpa n ih =>
    obtain ⟨hr, hframe⟩ := ih h
    refine ⟨hr, fun a ha => ?_⟩
    rw [hframe a (by omega), memmove_frame (by omega)]

/-- `copyout` writes nothing but bytes of the user in the range. -/
theorem copyoutLoop_frame (dstva src len : Nat) (mem : Memory) {r : Int}
    (h : t.copyoutLoop dstva src len mem = some (r, mem')) :
    (r = 0 ∨ r = -1) ∧
      ∀ a, (∀ i < len, Mapped t (dstva + i) → a ≠ t.physical (dstva + i)) → mem' a = mem a := by
  fun_induction copyoutLoop t dstva src len mem with
  | case1 =>
    obtain ⟨rfl, rfl⟩ : (0 : Int) = r ∧ _ = mem' := by simpa using h
    exact ⟨Or.inl rfl, fun _ _ => rfl⟩
  | case2 => exact absurd h (by simp)
  | case3 =>
    obtain ⟨rfl, rfl⟩ : (-1 : Int) = r ∧ _ = mem' := by simpa using h
    exact ⟨Or.inr rfl, fun _ _ => rfl⟩
  | case4 dstva src len mem hlen pa0 hwalk hpa n ih =>
    obtain ⟨hr, hframe⟩ := ih h
    obtain ⟨hlt, rfl⟩ := walkaddr_some hwalk
    have hva : Mapped t dstva := ⟨hlt, hpa⟩
    refine ⟨hr, fun a ha => ?_⟩
    have hafter : ∀ i < len - n, Mapped t ((pgRoundDown dstva + PGSIZE) % 2 ^ 64 + i) →
        a ≠ t.physical ((pgRoundDown dstva + PGSIZE) % 2 ^ 64 + i) := by
      intro i hi
      rw [next_page hlt, Nat.add_assoc]
      exact ha _ (by omega)
    have hin : ¬(t.place (t.page dstva) (dstva - pgRoundDown dstva) ≤ a ∧
        a < t.place (t.page dstva) (dstva - pgRoundDown dstva) + n) := by
      rintro ⟨hge, hbelow⟩
      obtain ⟨i, rfl⟩ := Nat.exists_eq_add_of_le hge
      have hi : i < PGSIZE - (dstva - pgRoundDown dstva) := by omega
      exact ha i (by omega) (mapped_add hva hi) (physical_add hva hi).symm
    rw [hframe a hafter, memmove_frame hin]

end Copies

/-! ## copyinstr -/

section Strings

open PageTable

theorem copyPage_frame (dst p n : Nat) (mem : Memory) (ha : ¬(dst ≤ a ∧ a < dst + n)) :
    (copyPage dst p n mem).2.2 a = mem a := by
  induction n generalizing dst p mem with
  | zero => rfl
  | succ n ih =>
    rw [copyPage]
    split
    · exact update_of_ne (by omega) 0 mem
    · simp only
      rw [ih (dst + 1) (p + 1) _ (by omega), update_of_ne (by omega)]

/-- Where a copy of bytes stops: at a zero that it has not itself written over before it gets there. -/
def Stops (dst : Nat) (mem : Memory) (src : Nat → Nat) (i : Nat) : Prop :=
  mem (src i) = 0 ∧ ¬(dst ≤ src i ∧ src i < dst + i)

/-- What has been copied changes nothing for the rest. -/
theorem stops_add {dst : Nat} {mem1 : Memory} {src src' : Nat → Nat}
    (hframe : ∀ a, ¬(dst ≤ a ∧ a < dst + n) → mem1 a = mem a) (hcopied : ∀ i < n, mem1 (dst + i) ≠ 0)
    (hsrc : src' k = src (n + k)) : Stops (dst + n) mem1 src' k ↔ Stops dst mem src (n + k) := by
  simp only [Stops, hsrc]
  by_cases hin : dst ≤ src (n + k) ∧ src (n + k) < dst + n
  · obtain ⟨i, hi⟩ := Nat.exists_eq_add_of_le hin.1
    refine iff_of_false (fun h => hcopied i (by omega) ?_) (fun h => h.2 (by omega))
    rw [← hi]
    exact h.1
  · rw [hframe _ hin]
    exact and_congr_right fun _ => not_congr (by omega)

/-- The bytes of a page are looked at one after the other. -/
theorem copyPage_bytes (dst p n : Nat) (mem : Memory) :
    if (copyPage dst p n mem).1 then
      (copyPage dst p n mem).2.1 < n ∧ (∀ i < (copyPage dst p n mem).2.1, ¬Stops dst mem (p + ·) i) ∧
        Stops dst mem (p + ·) (copyPage dst p n mem).2.1
    else (∀ i < n, ¬Stops dst mem (p + ·) i) ∧ ∀ i < n, (copyPage dst p n mem).2.2 (dst + i) ≠ 0 := by
  induction n generalizing dst p mem with
  | zero =>
    rw [copyPage, if_neg (by simp)]
    exact ⟨fun i hi => absurd hi (Nat.not_lt_zero i), fun i hi => absurd hi (Nat.not_lt_zero i)⟩
  | succ n ih =>
    by_cases hp : mem p = 0
    · rw [copyPage, if_pos hp, if_pos rfl]
      exact ⟨Nat.succ_pos n, fun i hi => absurd hi (Nat.not_lt_zero i), hp, fun h => absurd h.2 (Nat.not_lt.mpr h.1)⟩
    · have hframe : ∀ a, ¬(dst ≤ a ∧ a < dst + 1) → update mem dst (mem p) a = mem a :=
        fun a ha => update_of_ne (by omega) _ mem
      have hcopied : ∀ i < 1, update mem dst (mem p) (dst + i) ≠ 0 := by
        intro i hi
        rw [Nat.lt_one_iff.mp hi, Nat.add_zero, Function.update_self]
        exact hp
      have hshift : ∀ k, Stops (dst + 1) (update mem dst (mem p)) (p + 1 + ·) k ↔
          Stops dst mem (p + ·) (1 + k) := fun k => stops_add hframe hcopied (Nat.add_assoc p 1 k)
      have hcons : ∀ k, (∀ i < k, ¬Stops (dst + 1) (update mem dst (mem p)) (p + 1 + ·) i) →
          ∀ i < k + 1, ¬Stops dst mem (p + ·) i := by
        intro k hbytes i hi
        cases i with
        | zero => exact fun h => hp h.1
        | succ i =>
          rw [Nat.add_comm i, ← hshift]
          exact hbytes i (by omega)
      have hrest := ih (dst + 1) (p + 1) (update mem dst (mem p))
      have hfirst := copyPage_frame (dst + 1) (p + 1) n (update mem dst (mem p)) (a := dst) (by omega)
      rw [copyPage, if_neg hp]
      generalize copyPage (dst + 1) (p + 1) n (update mem dst (mem p)) = rest at hrest hfirst ⊢
      obtain ⟨null, k, mem'⟩ := rest
      cases null with
      | true =>
        obtain ⟨hk, hbytes, hzero⟩ := hrest
        refine ⟨Nat.succ_lt_succ hk, hcons k hbytes, ?_⟩
        have := (hshift k).mp hzero
        rwa [Nat.add_comm] at this
      | false =>
        obtain ⟨hbytes, hrest⟩ := hrest
        refine ⟨hcons n hbytes, fun i hi => ?_⟩
        cases i with
        | zero =>
          have := hcopied 0 Nat.one_pos
          rwa [Nat.add_zero, ← hfirst] at this
        | succ i =>
          have := hrest i (by omega)
          rwa [Nat.add_assoc, Nat.add_comm 1] at this

namespace PageTable

variable (t : PageTable)

/-- The string from an address on, with its zeros given by their distance, ends in front of a hole, at a
zero or at the limit, at zero and limit with a number of bytes that an `int` can hold. -/
def StringEnds (zero : Nat → Prop) (va max len : Nat) : Prop :=
  ∃ k ≤ max, (∀ i < k, Mapped t (va + i) ∧ ¬zero i) ∧
    (k < max ∧ Hole t (va + k) ∨ len + k < 2 ^ 31 ∧ (k = max ∨ k < max ∧ Mapped t (va + k) ∧ zero k))

end PageTable

variable {max : Nat} {zero zero' : Nat → Prop}

theorem not_stringEnds_above (hmax : max ≠ 0) (hva : ¬va < MAXVA t.arch) : ¬StringEnds t zero va max len := by
  rintro ⟨k, hk, hbytes, hend⟩
  cases k with
  | zero =>
    rcases hend with ⟨-, hhole⟩ | ⟨-, rfl | ⟨-, hmapped, -⟩⟩
    · exact hva hhole.1
    · exact hmax rfl
    · exact hva hmapped.1
  | succ k => exact hva (hbytes 0 (Nat.succ_pos k)).1.1

/-- A string that is used up. -/
theorem stringEnds_nil : StringEnds t zero va 0 len ↔ len < 2 ^ 31 := by
  constructor
  · rintro ⟨k, hk, -, ⟨hlt, -⟩ | ⟨hlen, -⟩⟩
    · omega
    · omega
  · exact fun hlen => ⟨0, le_refl 0, fun i hi => absurd hi (Nat.not_lt_zero i), Or.inr ⟨hlen, Or.inl rfl⟩⟩

/-- A string ends only once: at its limit, a hole or a zero. -/
theorem stringEnds_zero (hk : k < max) (hbytes : ∀ i < k, Mapped t (va + i) ∧ ¬zero i)
    (hmapped : Mapped t (va + k)) (hzero : zero k) : StringEnds t zero va max len ↔ len + k < 2 ^ 31 := by
  constructor
  · rintro ⟨k', hk', hbytes', hend⟩
    have heq : k' = k := by
      rcases Nat.lt_trichotomy k' k with hlt | heq | hgt
      · exfalso
        rcases hend with ⟨-, hhole⟩ | ⟨-, rfl | ⟨-, -, hzero'⟩⟩
        · exact (hbytes k' hlt).1.2 hhole.2
        · omega
        · exact (hbytes k' hlt).2 hzero'
      · exact heq
      · exact absurd hzero (hbytes' k hgt).2
    subst heq
    rcases hend with ⟨-, hhole⟩ | ⟨hlen, -⟩
    · exact absurd hhole.2 hmapped.2
    · exact hlen
  · exact fun hlen => ⟨k, by omega, hbytes, Or.inr ⟨hlen, Or.inr ⟨hk, hmapped, hzero⟩⟩⟩

/-- Bytes that are no zero in front only count. -/
theorem stringEnds_add (hn : n ≤ max) (hbytes : ∀ i < n, Mapped t (va + i) ∧ ¬zero i) :
    StringEnds t zero va max len ↔ StringEnds t (fun i => zero (n + i)) (va + n) (max - n) (len + n) := by
  constructor
  · rintro ⟨k, hk, hbefore, hend⟩
    have hnk : n ≤ k := by
      by_contra hlt
      rcases hend with ⟨-, hhole⟩ | ⟨-, rfl | ⟨-, -, hzero⟩⟩
      · exact (hbytes k (by omega)).1.2 hhole.2
      · omega
      · exact (hbytes k (by omega)).2 hzero
    refine ⟨k - n, by omega, fun i hi => ?_, ?_⟩
    · have := hbefore (n + i) (by omega)
      rwa [← Nat.add_assoc] at this
    · simp only [show va + n + (k - n) = va + k by omega, show len + n + (k - n) = len + k by omega,
        Nat.add_sub_cancel' hnk]
      rcases hend with ⟨hlt, hhole⟩ | ⟨hlen, hlim | ⟨hlt, hzero⟩⟩
      · exact Or.inl ⟨by omega, hhole⟩
      · exact Or.inr ⟨hlen, Or.inl (by omega)⟩
      · exact Or.inr ⟨hlen, Or.inr ⟨by omega, hzero⟩⟩
  · rintro ⟨k, hk, hbefore, hend⟩
    refine ⟨n + k, by omega, fun i hi => ?_, ?_⟩
    · by_cases hin : i < n
      · exact hbytes i hin
      · have := hbefore (i - n) (by omega)
        simp only [Nat.add_assoc, Nat.add_sub_cancel' (Nat.le_of_not_lt hin)] at this
        exact this
    · rw [Nat.add_assoc] at hend
      rw [← Nat.add_assoc len]
      rcases hend with ⟨hlt, hhole⟩ | ⟨hlen, hlim | ⟨hlt, hzero⟩⟩
      · exact Or.inl ⟨by omega, hhole⟩
      · exact Or.inr ⟨hlen, Or.inl (by omega)⟩
      · exact Or.inr ⟨hlen, Or.inr ⟨by omega, hzero⟩⟩

/-- Only the zeros in the range matter. -/
theorem stringEnds_congr (hzero : ∀ i < max, zero i ↔ zero' i) :
    StringEnds t zero va max len ↔ StringEnds t zero' va max len := by
  refine exists_congr fun k => and_congr_right fun hk => and_congr ?_ ?_
  · exact forall₂_congr fun i hi => and_congr_right fun _ => not_congr (hzero i (by omega))
  · refine or_congr Iff.rfl (and_congr_right fun _ => or_congr Iff.rfl (and_congr_right fun hlt => ?_))
    exact and_congr_right fun _ => hzero k hlt

/-- A page of the user without a zero. -/
theorem stringEnds_page (hva : Mapped t va) (hbytes : ∀ i < min (PGSIZE - (va - pgRoundDown va)) max, ¬zero i)
    (hzero : ∀ i < max - min (PGSIZE - (va - pgRoundDown va)) max,
      zero' i ↔ zero (min (PGSIZE - (va - pgRoundDown va)) max + i)) :
    StringEnds t zero va max len ↔
      StringEnds t zero' ((pgRoundDown va + PGSIZE) % 2 ^ 64) (max - min (PGSIZE - (va - pgRoundDown va)) max)
        (len + min (PGSIZE - (va - pgRoundDown va)) max) := by
  have hpage : ∀ i < min (PGSIZE - (va - pgRoundDown va)) max, Mapped t (va + i) ∧ ¬zero i :=
    fun i hi => ⟨mapped_add hva (by omega), hbytes i hi⟩
  rw [stringEnds_add (by omega) hpage, stringEnds_congr hzero, next_page hva.1]
  rcases Nat.le_total max (PGSIZE - (va - pgRoundDown va)) with hle | hle
  · rw [Nat.min_eq_right hle, Nat.sub_self, stringEnds_nil, stringEnds_nil]
  · rw [Nat.min_eq_left hle]

/-- `copyinstr` writes nothing but the buffer. -/
theorem copyinstrLoop_frame (dst srcva max len : Nat) (mem : Memory) {r : Option Nat}
    (h : t.copyinstrLoop dst srcva max len mem = some (r, mem')) (a : Nat) (ha : ¬(dst ≤ a ∧ a < dst + max)) :
    mem' a = mem a := by
  fun_induction copyinstrLoop t dst srcva max len mem with
  | case1 =>
    obtain ⟨-, rfl⟩ : some _ = r ∧ _ = mem' := by simpa using h
    rfl
  | case2 => exact absurd h (by simp)
  | case3 =>
    obtain ⟨-, rfl⟩ : none = r ∧ _ = mem' := by simpa using h
    rfl
  | case4 dst srcva max len mem hmax pa0 hwalk hpa n k mem1 hpage =>
    obtain ⟨-, rfl⟩ : some _ = r ∧ mem1 = mem' := by simpa using h
    have hframe := copyPage_frame dst (t.place pa0 (srcva - pgRoundDown srcva)) n mem (a := a) (by omega)
    rwa [hpage] at hframe
  | case5 dst srcva max len mem hmax pa0 hwalk hpa n k mem1 hpage ih =>
    have hframe := copyPage_frame dst (t.place pa0 (srcva - pgRoundDown srcva)) n mem (a := a) (by omega)
    rw [hpage] at hframe
    exact (ih h (by omega)).trans hframe

/-- A page's bytes are the user's. -/
theorem stops_page {dst : Nat} (hva : Mapped t va) (hi : i < PGSIZE - (va - pgRoundDown va)) :
    Stops dst mem (t.place (t.page va) (va - pgRoundDown va) + ·) i ↔
      Stops dst mem (fun i => t.physical (va + i)) i := by
  simp only [Stops, physical_add hva hi]

/-- `copyinstr` comes back with a number that an `int` holds, or -1, exactly if the string ends. -/
theorem copyinstrLoop_returns (dst srcva max len : Nat) (mem : Memory) :
    (∃ r mem', t.copyinstrLoop dst srcva max len mem = some (r, mem') ∧ ∀ k, r = some k → k < 2 ^ 31) ↔
      StringEnds t (Stops dst mem fun i => t.physical (srcva + i)) srcva max len := by
  fun_induction copyinstrLoop t dst srcva max len mem with
  | case1 dst srcva len mem =>
    rw [stringEnds_nil]
    constructor
    · rintro ⟨r, mem', h, hr⟩
      obtain ⟨rfl, -⟩ : some len = r ∧ mem = mem' := by simpa using h
      exact hr len rfl
    · intro hlen
      refine ⟨some len, mem, rfl, fun k hk => ?_⟩
      cases hk
      exact hlen
  | case2 dst srcva max len mem hmax hwalk =>
    exact iff_of_false (by simp) (not_stringEnds_above hmax (walkaddr_none hwalk))
  | case3 dst srcva max len mem hmax hwalk =>
    refine iff_of_true ⟨none, mem, rfl, fun k hk => absurd hk (by simp)⟩ ?_
    exact ⟨0, Nat.zero_le max, fun i hi => absurd hi (Nat.not_lt_zero i),
      Or.inl ⟨Nat.pos_of_ne_zero hmax, walkaddr_some hwalk⟩⟩
  | case4 dst srcva max len mem hmax pa0 hwalk hpa n k mem1 hpage =>
    obtain ⟨hlt, rfl⟩ := walkaddr_some hwalk
    have hva : Mapped t srcva := ⟨hlt, hpa⟩
    have hbytes := copyPage_bytes dst (t.place (t.page srcva) (srcva - pgRoundDown srcva)) n mem
    rw [hpage, if_pos rfl] at hbytes
    obtain ⟨hk, hbefore, hzero⟩ := hbytes
    change k < n at hk
    have hpage : k < PGSIZE - (srcva - pgRoundDown srcva) := by omega
    replace hzero := (stops_page hva hpage).mp hzero
    have hmapped : ∀ i < k, Mapped t (srcva + i) ∧ ¬Stops dst mem (fun i => t.physical (srcva + i)) i := by
      intro i hi
      rw [← stops_page hva (by omega)]
      exact ⟨mapped_add hva (by omega), hbefore i hi⟩
    rw [stringEnds_zero (by omega) hmapped (mapped_add hva (by omega)) hzero]
    constructor
    · rintro ⟨r, mem', h, hr⟩
      obtain ⟨rfl, -⟩ : some (len + k) = r ∧ mem1 = mem' := by simpa using h
      exact hr (len + k) rfl
    · intro hlen
      refine ⟨some (len + k), mem1, rfl, fun k' hk' => ?_⟩
      cases hk'
      exact hlen
  | case5 dst srcva max len mem hmax pa0 hwalk hpa n k mem1 hpage ih =>
    obtain ⟨hlt, rfl⟩ := walkaddr_some hwalk
    have hva : Mapped t srcva := ⟨hlt, hpa⟩
    have hbytes := copyPage_bytes dst (t.place (t.page srcva) (srcva - pgRoundDown srcva)) n mem
    have hframe : ∀ a, ¬(dst ≤ a ∧ a < dst + n) → mem1 a = mem a := by
      intro a ha
      have := copyPage_frame dst (t.place (t.page srcva) (srcva - pgRoundDown srcva)) n mem ha
      rwa [hpage] at this
    rw [hpage, if_neg (by simp)] at hbytes
    obtain ⟨hbefore, hcopied⟩ := hbytes
    have hnonzero : ∀ i < n, ¬Stops dst mem (fun i => t.physical (srcva + i)) i := by
      intro i hi
      rw [← stops_page hva (by omega)]
      exact hbefore i hi
    have hrest : ∀ i < max - n,
        Stops (dst + n) mem1 (fun i => t.physical ((pgRoundDown srcva + PGSIZE) % 2 ^ 64 + i)) i ↔
          Stops dst mem (fun i => t.physical (srcva + i)) (n + i) := by
      intro i hi
      refine stops_add hframe hcopied ?_
      rw [next_page hlt, Nat.add_assoc, show PGSIZE - (srcva - pgRoundDown srcva) = n by omega]
    rw [ih, stringEnds_page hva hnonzero hrest]

end Strings

/-! ## Every address -/

section Calls

open PageTable

namespace PageTable

variable (t : PageTable)

/-- `copyin` comes back with 0 or -1 and has written into its buffer only. -/
def CopyinSafe (dst srcva len : Nat) (mem : Memory) : Prop :=
  ∃ r mem', t.copyin dst srcva len mem = some (r, mem') ∧ (r = 0 ∨ r = -1) ∧
    ∀ a, ¬(dst ≤ a ∧ a < dst + len) → mem' a = mem a

/-- `copyout` comes back with 0 or -1 and has written to the user's range only. -/
def CopyoutSafe (dstva src len : Nat) (mem : Memory) : Prop :=
  ∃ r mem', t.copyout dstva src len mem = some (r, mem') ∧ (r = 0 ∨ r = -1) ∧
    ∀ a, (∀ i < len, Mapped t (dstva + i) → a ≠ t.physical (dstva + i)) → mem' a = mem a

/-- `copyinstr` comes back with a length or -1 and has written into its buffer only. -/
def CopyinstrSafe (dst srcva max : Nat) (mem : Memory) : Prop :=
  ∃ r mem', t.copyinstr dst srcva max mem = some (r, mem') ∧ (∀ k, r = some k → toInt32 k = k) ∧
    ∀ a, ¬(dst ≤ a ∧ a < dst + max) → mem' a = mem a

end PageTable

theorem toInt32_eq_iff : toInt32 k = k ↔ k < 2 ^ 31 := by
  refine ⟨fun h => ?_, toInt32_of_lt⟩
  have hlt : toInt32 k < 2 ^ 31 := Int.bmod_lt (by decide)
  omega

theorem copyin_safe (dst srcva len : Nat) (mem : Memory) :
    CopyinSafe t dst srcva len mem ↔ srcva ≤ MAXVA t.arch ∧ Clear t srcva len := by
  rw [← copyinLoop_isSome dst srcva len mem, Option.isSome_iff_exists]
  constructor
  · rintro ⟨r, mem', h, -⟩
    rw [copyin] at h
    split at h
    · exact absurd h (by simp)
    · exact ⟨by omega, ⟨_, h⟩⟩
  · rintro ⟨hle, ⟨r, mem'⟩, h⟩
    exact ⟨r, mem', by rw [copyin, if_neg (by omega), h], copyinLoop_frame dst srcva len mem h⟩

theorem copyout_safe (dstva src len : Nat) (mem : Memory) :
    CopyoutSafe t dstva src len mem ↔ dstva ≤ MAXVA t.arch ∧ Clear t dstva len := by
  rw [← copyoutLoop_isSome dstva src len mem, Option.isSome_iff_exists]
  constructor
  · rintro ⟨r, mem', h, -⟩
    rw [copyout] at h
    split at h
    · exact absurd h (by simp)
    · exact ⟨by omega, ⟨_, h⟩⟩
  · rintro ⟨hle, ⟨r, mem'⟩, h⟩
    exact ⟨r, mem', by rw [copyout, if_neg (by omega), h], copyoutLoop_frame dstva src len mem h⟩

theorem copyinstr_safe (dst srcva max : Nat) (mem : Memory) :
    CopyinstrSafe t dst srcva max mem ↔
      StringEnds t (Stops dst mem fun i => t.physical (srcva + i)) srcva max 0 := by
  rw [← copyinstrLoop_returns dst srcva max 0 mem]
  constructor
  · rintro ⟨r, mem', h, hr, -⟩
    exact ⟨r, mem', h, fun k hk => toInt32_eq_iff.mp (hr k hk)⟩
  · rintro ⟨r, mem', h, hr⟩
    exact ⟨r, mem', h, fun k hk => toInt32_eq_iff.mpr (hr k hk), copyinstrLoop_frame dst srcva max 0 mem h⟩

/-- One page of the user, at address 0. -/
def onePage : PageTable where
  arch := .riscv
  root := 0x80201000
  entry := fun pt i =>
    if i ≠ 0 then 0
    else if pt = 0x80201000 then 0x80202000 >>> 12 <<< 10 ||| PTE_V
    else if pt = 0x80202000 then 0x80203000 >>> 12 <<< 10 ||| PTE_V
    else 0x80204000 >>> 12 <<< 10 ||| PTE_V ||| PTE_U .riscv

/-- A user address is harmless exactly if the copy does not get to `MAXVA` with bytes left, does not even
start above it, and a string is not longer than an `int` can say. -/
theorem user_copies_safe (t : PageTable) (va buf len : Nat) (mem : Memory) :
    (CopyinSafe t buf va len mem ↔ va ≤ MAXVA t.arch ∧ Clear t va len) ∧
      (CopyoutSafe t va buf len mem ↔ va ≤ MAXVA t.arch ∧ Clear t va len) ∧
      (CopyinstrSafe t buf va len mem ↔
        StringEnds t (Stops buf mem fun i => t.physical (va + i)) va len 0) :=
  ⟨copyin_safe buf va len mem, copyout_safe va buf len mem, copyinstr_safe buf va len mem⟩

/-- At `MAXVA`, and for `copyout` above it even with nothing to copy, the kernel panics. -/
theorem maxva_crashes :
    onePage.copyin 0x90000000 (MAXVA .riscv) 1 (fun _ => 0) = none ∧
      onePage.copyout (MAXVA .riscv + 1) 0x90000000 0 (fun _ => 0) = none ∧
      onePage.copyinstr 0x90000000 (MAXVA .riscv) 260 (fun _ => 0) = none ∧
      ¬CopyinSafe onePage 0x90000000 (MAXVA .riscv) 1 fun _ => 0 := by
  have hwalk : onePage.walkaddr (pgRoundDown (MAXVA .riscv)) = none := by decide
  have hin : onePage.copyin 0x90000000 (MAXVA .riscv) 1 (fun _ => 0) = none := by
    rw [copyin, if_neg (by decide), copyinLoop, if_neg (by decide), hwalk]
  refine ⟨hin, if_pos (by decide), ?_, ?_⟩
  · rw [copyinstr, copyinstrLoop, if_neg (by decide), hwalk]
  · rintro ⟨r, mem', h, -⟩
    rw [hin] at h
    exact absurd h (by simp)

end Calls

end SC7.UserCopy
