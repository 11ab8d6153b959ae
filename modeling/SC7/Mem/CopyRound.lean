-- SUMMARY: The bytes that `copyout` and `copyin` (`vmem.c`) move: what was copied out comes back, and a copy in two parts is the copy at once.
import SC7.Mem.UserAccess

/-!
# Round trips

A buffer of the kernel is memory that the user has no page of. The copies go page by page through
physical memory, where the pages of one range lie anywhere.
-/

namespace SC7.UserCopy

namespace PageTable

variable (t : PageTable)

/-- Memory of the kernel: no page of the user is in it. -/
def KernelBuffer (buf len : Nat) : Prop := ∀ i < len, ∀ va, Mapped t va → t.physical va ≠ buf + i

/-- The pages of the user are backed by pairwise distinct physical pages. -/
def DistinctPages : Prop :=
  ∀ va va', Mapped t va → Mapped t va' → t.page va = t.page va' → pgRoundDown va = pgRoundDown va'

/-- The first `n` bytes, and the rest of them if that succeeded. -/
def copyoutTwice (dstva src n len : Nat) (mem : Memory) : Option (Int × Memory) :=
  (t.copyout dstva src n mem).bind fun (r, mem) =>
    if r = 0 then t.copyout (dstva + n) (src + n) (len - n) mem else some (r, mem)

def copyinTwice (dst srcva n len : Nat) (mem : Memory) : Option (Int × Memory) :=
  (t.copyin dst srcva n mem).bind fun (r, mem) =>
    if r = 0 then t.copyin (dst + n) (srcva + n) (len - n) mem else some (r, mem)

end PageTable

variable {t : PageTable} {va va' len n i k dst src buf : Nat} {mem mem' : Memory}

/-! ## Physical memory -/

section Physical

open PageTable

theorem physical_eq (hva : Mapped t va) : t.physical va = t.page va + (va - pgRoundDown va) :=
  place_page hva.2 (sub_pgRoundDown va)

theorem aligned_add_inj {a b x y : Nat} (ha : a % PGSIZE = 0) (hb : b % PGSIZE = 0) (hx : x < PGSIZE) (hy : y < PGSIZE)
    (h : a + x = b + y) : a = b ∧ x = y := by
  have hxy : x = y := by
    have hmod := congrArg (· % PGSIZE) h
    simp only [Nat.add_mod, ha, hb, Nat.zero_add, Nat.mod_eq_of_lt hx, Nat.mod_eq_of_lt hy] at hmod
    exact hmod
  exact ⟨by omega, hxy⟩

/-- Two bytes of the user in one place are one byte. -/
theorem physical_inj (hdistinct : DistinctPages t) (hva : Mapped t va) (hva' : Mapped t va')
    (h : t.physical va = t.physical va') : va = va' := by
  rw [physical_eq hva, physical_eq hva'] at h
  obtain ⟨hpage, hoff⟩ := aligned_add_inj (page_window hva.2).1 (page_window hva'.2).1 (sub_pgRoundDown va)
    (sub_pgRoundDown va') h
  have hround := hdistinct va va' hva hva' hpage
  have hle := pgRoundDown_le va
  have hle' := pgRoundDown_le va'
  omega

theorem kernelBuffer_add (hbuf : KernelBuffer t buf len) (hn : n + k ≤ len) : KernelBuffer t (buf + n) k := by
  intro i hi va hva
  rw [Nat.add_assoc]
  exact hbuf (n + i) (by omega) va hva

/-- The part of a page that a turn of the loops copies. -/
theorem chunk_physical (hva : Mapped t va) (hi : i < PGSIZE - (va - pgRoundDown va)) :
    t.place (t.page va) (va - pgRoundDown va) + i = t.physical (va + i) :=
  (physical_add hva hi).symm

/-- It does not meet a buffer of the kernel. -/
theorem chunk_apart (hva : Mapped t va) (hbuf : KernelBuffer t buf len) (hn : n ≤ PGSIZE - (va - pgRoundDown va))
    (hi : i < len) :
    ¬(t.place (t.page va) (va - pgRoundDown va) ≤ buf + i ∧ buf + i < t.place (t.page va) (va - pgRoundDown va) + n) := by
  rintro ⟨hge, hlt⟩
  obtain ⟨j, hj⟩ := Nat.exists_eq_add_of_le hge
  rw [hj] at hlt
  have hin : j < PGSIZE - (va - pgRoundDown va) := by omega
  exact hbuf i hi (va + j) (mapped_add hva hin) (by rw [← chunk_physical hva hin, hj])

theorem memmove_at (hi : i < n) : memmove mem dst src n (dst + i) = mem (src + i) := by
  unfold memmove
  rw [if_pos ⟨Nat.le_add_right dst i, Nat.add_lt_add_left hi dst⟩, Nat.add_sub_cancel_left]

/-- Moving the first bytes and then the rest, if the first do not fall on the rest. -/
theorem memmove_add (h : ∀ i < k, ¬(dst ≤ src + n + i ∧ src + n + i < dst + n)) :
    memmove (memmove mem dst src n) (dst + n) (src + n) k = memmove mem dst src (n + k) := by
  funext a
  by_cases hfirst : dst ≤ a ∧ a < dst + n
  · obtain ⟨i, rfl⟩ := Nat.exists_eq_add_of_le hfirst.1
    rw [memmove_frame (by omega), memmove_at (by omega), memmove_at (by omega)]
  · by_cases hrest : dst + n ≤ a ∧ a < dst + n + k
    · obtain ⟨i, rfl⟩ := Nat.exists_eq_add_of_le hrest.1
      rw [memmove_at (by omega), memmove_frame (h i (by omega)), Nat.add_assoc dst, memmove_at (by omega), Nat.add_assoc]
    · rw [memmove_frame hrest, memmove_frame hfirst, memmove_frame (by omega)]

end Physical

/-! ## What has been copied -/

section Copied

open PageTable

/-- `copyin` has brought the user's bytes. -/
theorem copyinLoop_copied (dst srcva len : Nat) (mem : Memory) (hbuf : KernelBuffer t dst len)
    (h : t.copyinLoop dst srcva len mem = some (0, mem')) (i : Nat) (hi : i < len) :
    mem' (dst + i) = mem (t.physical (srcva + i)) := by
  have hall : ∀ i < len, Mapped t (srcva + i) := (copyLoop_returns _ _ _ _ _).mp ⟨mem', copyinLoop_eq dst srcva len mem ▸ h⟩
  fun_induction copyinLoop t dst srcva len mem generalizing i with
  | case1 => exact absurd hi (Nat.not_lt_zero i)
  | case2 => exact absurd h (by simp)
  | case3 => exact absurd h (by simp)
  | case4 dst srcva len mem hlen pa0 hwalk hpa n ih =>
    obtain ⟨hlt, rfl⟩ := walkaddr_some hwalk
    have hva : Mapped t srcva := ⟨hlt, hpa⟩
    by_cases hin : i < n
    · -- the rest of the copy goes behind the bytes of this page
      rw [(copyinLoop_frame _ _ _ _ h).2 (dst + i) (by omega), memmove_at hin, chunk_physical hva (by omega)]
    · have hrest := ih (kernelBuffer_add hbuf (by omega)) h (i - n) (by omega) ((mapped_page hva).mp hall)
      rw [next_page hlt, Nat.add_assoc, Nat.add_assoc, Nat.add_sub_cancel' (by omega),
        show PGSIZE - (srcva - pgRoundDown srcva) + (i - n) = i by omega] at hrest
      rw [hrest]
      apply memmove_frame
      rintro ⟨hge, hbelow⟩
      obtain ⟨j, hj⟩ := Nat.exists_eq_add_of_le hge
      exact hbuf j (by omega) (srcva + i) (hall i hi) hj

/-- `copyout` has brought the kernel's bytes to where the user sees them. -/
theorem copyoutLoop_copied (hdistinct : DistinctPages t) (dstva src len : Nat) (mem : Memory)
    (hbuf : KernelBuffer t src len) (h : t.copyoutLoop dstva src len mem = some (0, mem')) (i : Nat) (hi : i < len) :
    mem' (t.physical (dstva + i)) = mem (src + i) := by
  have hall : ∀ i < len, Mapped t (dstva + i) := (copyLoop_returns _ _ _ _ _).mp ⟨mem', copyoutLoop_eq dstva src len mem ▸ h⟩
  fun_induction copyoutLoop t dstva src len mem generalizing i with
  | case1 => exact absurd hi (Nat.not_lt_zero i)
  | case2 => exact absurd h (by simp)
  | case3 => exact absurd h (by simp)
  | case4 dstva src len mem hlen pa0 hwalk hpa n ih =>
    obtain ⟨hlt, rfl⟩ := walkaddr_some hwalk
    have hva : Mapped t dstva := ⟨hlt, hpa⟩
    by_cases hin : i < n
    · rw [(copyoutLoop_frame _ _ _ _ h).2, ← chunk_physical hva (by omega), memmove_at hin]
      intro j hj hmapped heq
      have := physical_inj hdistinct (hall i hi) hmapped heq
      rw [next_page hlt] at this
      omega
    · have hcopied := ih (kernelBuffer_add hbuf (by omega)) h (i - n) (by omega) ((mapped_page hva).mp hall)
      rw [next_page hlt, Nat.add_assoc, Nat.add_assoc, Nat.add_sub_cancel' (by omega),
        show PGSIZE - (dstva - pgRoundDown dstva) + (i - n) = i by omega] at hcopied
      rw [hcopied]
      exact memmove_frame (chunk_apart hva hbuf (by omega) hi)

end Copied

/-! ## Copies in two parts -/

section Parts

open PageTable

variable {move : Nat → Nat → Nat → Memory → Memory} {place : Nat}

/-- A part of a page can be moved in two parts where it is apart from the buffer. -/
def Additive (move : Nat → Nat → Nat → Memory → Memory) : Prop :=
  ∀ place buf n k mem, (∀ i < n + k, ¬(place ≤ buf + i ∧ buf + i < place + (n + k))) →
    move (place + n) (buf + n) k (move place buf n mem) = move place buf (n + k) mem

theorem moveOut_additive : Additive moveOut := by
  intro place buf n k mem hapart
  apply memmove_add
  intro i hi hin
  exact hapart (n + i) (by omega) (by omega)

theorem moveIn_additive : Additive moveIn := by
  intro place buf n k mem hapart
  apply memmove_add
  intro i hi hin
  exact hapart (place + n + i - buf) (by omega) (by omega)

/-- The first bytes of a page: what is left of the range begins on the same page. -/
theorem page_split (hva : Mapped t va) (hn : n < PGSIZE - (va - pgRoundDown va)) :
    pgRoundDown (va + n) = pgRoundDown va ∧ t.walkaddr (pgRoundDown (va + n)) = some (t.page va) ∧
      t.place (t.page va) (va + n - pgRoundDown (va + n)) = t.place (t.page va) (va - pgRoundDown va) + n := by
  have hround := pgRoundDown_add hn
  have hle := pgRoundDown_le va
  refine ⟨hround, ?_, ?_⟩
  · rw [hround, walkaddr_page, if_pos hva.1]
  · rw [hround, place_page hva.2 (by omega), place_page hva.2 (sub_pgRoundDown va)]
    omega

/-- A loop that has done its first bytes on a page and goes on there. -/
theorem copyLoop_page (hmove : Additive move) (hva : Mapped t va) (hn : n < PGSIZE - (va - pgRoundDown va))
    (hlen : n < len) (hbuf : KernelBuffer t buf len) :
    t.copyLoop move (va + n) (buf + n) (len - n) (move (t.place (t.page va) (va - pgRoundDown va)) buf n mem) =
      t.copyLoop move ((pgRoundDown va + PGSIZE) % 2 ^ 64) (buf + min (PGSIZE - (va - pgRoundDown va)) len)
        (len - min (PGSIZE - (va - pgRoundDown va)) len)
        (move (t.place (t.page va) (va - pgRoundDown va)) buf (min (PGSIZE - (va - pgRoundDown va)) len) mem) := by
  obtain ⟨hround, hwalk, hplace⟩ := page_split hva hn
  have hle := pgRoundDown_le va
  have hmin : min (PGSIZE - (va + n - pgRoundDown va)) (len - n) = min (PGSIZE - (va - pgRoundDown va)) len - n := by
    omega
  have hsum : n + (min (PGSIZE - (va - pgRoundDown va)) len - n) = min (PGSIZE - (va - pgRoundDown va)) len := by
    omega
  have hparts := hmove (t.place (t.page va) (va - pgRoundDown va)) buf n
    (min (PGSIZE - (va - pgRoundDown va)) len - n) mem fun i hi => chunk_apart hva hbuf (by omega) (by omega)
  rw [copyLoop, if_neg (by omega), hwalk]
  simp only [if_neg hva.2]
  rw [hplace, hround, hmin, hparts, hsum]
  congr 1 <;> omega

/-- The loop can be left and started again anywhere. -/
theorem copyLoop_split (hmove : Additive move) (va buf len : Nat) (mem : Memory) (hbuf : KernelBuffer t buf len)
    (n : Nat) (hn : n ≤ len) :
    t.copyLoop move va buf len mem =
      (t.copyLoop move va buf n mem).bind fun (r, mem) =>
        if r = 0 then t.copyLoop move (va + n) (buf + n) (len - n) mem else some (r, mem) := by
  by_cases hzero : n = 0
  · subst hzero
    rw [copyLoop.eq_1 t move va buf 0, if_pos rfl]
    rfl
  fun_induction copyLoop t move va buf len mem generalizing n with
  | case1 => exact absurd (Nat.le_zero.mp hn) hzero
  | case2 va buf len mem hlen hwalk =>
    rw [copyLoop, if_neg hzero, hwalk]
    rfl
  | case3 va buf len mem hlen hwalk =>
    rw [copyLoop, if_neg hzero, hwalk]
    rfl
  | case4 va buf len mem hlen pa0 hwalk hpa c ih =>
    obtain ⟨hlt, rfl⟩ := walkaddr_some hwalk
    have hva : Mapped t va := ⟨hlt, hpa⟩
    rw [copyLoop.eq_1 t move va buf n, if_neg hzero, hwalk]
    simp only [if_neg hpa]
    by_cases hpage : n < PGSIZE - (va - pgRoundDown va)
    · -- the first part ends on this page
      rw [Nat.min_eq_right (Nat.le_of_lt hpage), Nat.sub_self, copyLoop.eq_1 t move _ _ 0, if_pos rfl,
        Option.bind_some, if_pos rfl]
      by_cases hall : n = len
      · subst hall
        rw [show c = n by omega, Nat.sub_self, copyLoop.eq_1 t move _ _ 0, if_pos rfl, copyLoop.eq_1 t move _ _ 0,
          if_pos rfl]
      · exact (copyLoop_page hmove hva hpage (by omega) hbuf).symm
    · -- it goes on behind the page
      have hc : c = PGSIZE - (va - pgRoundDown va) := by omega
      rw [Nat.min_eq_left (Nat.le_of_not_lt hpage), ← hc]
      by_cases hall : n = c
      · rw [hall, Nat.sub_self, copyLoop.eq_1 t move _ _ 0, if_pos rfl, Option.bind_some, if_pos rfl, next_page hlt,
          hc]
      · rw [ih (kernelBuffer_add hbuf (by omega)) (n - c) (by omega) (by omega)]
        rw [next_page hlt, ← hc, Nat.add_assoc va, Nat.add_assoc buf, Nat.add_sub_cancel' (by omega),
          show len - c - (n - c) = len - n by omega]

/-- After a first part that succeeded the second one starts at or below `MAXVA`. -/
theorem second_starts (hva : va ≤ MAXVA t.arch) (hmapped : ∀ i < n, Mapped t (va + i)) : ¬va + n > MAXVA t.arch := by
  cases n with
  | zero => omega
  | succ n =>
    have := (hmapped n (Nat.lt_succ_self n)).1
    omega

theorem copyoutTwice_eq (hbuf : KernelBuffer t src len) (hn : n ≤ len) :
    t.copyoutTwice va src n len mem = t.copyout va src len mem := by
  unfold copyoutTwice copyout
  split
  · rfl
  · rename_i hva
    simp only [copyoutLoop_eq]
    rw [copyLoop_split moveOut_additive va src len mem hbuf n hn]
    apply Option.bind_congr
    rintro ⟨r, mem'⟩ hfirst
    by_cases hr : r = 0
    · subst hr
      have hmapped := (copyLoop_returns _ _ _ _ _).mp ⟨mem', hfirst⟩
      simp only [if_true, if_neg (second_starts (Nat.le_of_not_lt hva) hmapped)]
    · simp only [if_neg hr]

theorem copyinTwice_eq (hbuf : KernelBuffer t dst len) (hn : n ≤ len) :
    t.copyinTwice dst va n len mem = t.copyin dst va len mem := by
  unfold copyinTwice copyin
  split
  · rfl
  · rename_i hva
    simp only [copyinLoop_eq]
    rw [copyLoop_split moveIn_additive va dst len mem hbuf n hn]
    apply Option.bind_congr
    rintro ⟨r, mem'⟩ hfirst
    by_cases hr : r = 0
    · subst hr
      have hmapped := (copyLoop_returns _ _ _ _ _).mp ⟨mem', hfirst⟩
      simp only [if_true, if_neg (second_starts (Nat.le_of_not_lt hva) hmapped)]
    · simp only [if_neg hr]

end Parts

/-! ## Round trips -/

section Round

open PageTable

namespace PageTable

variable (t : PageTable)

/-- After a `copyout`, every part of the range can be copied in, with the bytes that went out. -/
def ComesBack (va src len : Nat) (mem mem' : Memory) : Prop :=
  ∀ off n dst, off + n ≤ len → KernelBuffer t dst n →
    ∃ mem'', t.copyin dst (va + off) n mem' = some (0, mem'') ∧ ∀ i < n, mem'' (dst + i) = mem (src + off + i)

/-- The user's bytes outside the range are what they were. -/
def OthersKept (va len : Nat) (mem mem' : Memory) : Prop :=
  ∀ va', Mapped t va' → ¬(va ≤ va' ∧ va' < va + len) → mem' (t.physical va') = mem (t.physical va')

end PageTable

theorem copyout_mapped (h : t.copyout va src len mem = some (0, mem')) :
    va ≤ MAXVA t.arch ∧ t.copyoutLoop va src len mem = some (0, mem') ∧ ∀ i < len, Mapped t (va + i) := by
  rw [copyout] at h
  split at h
  · exact absurd h (by simp)
  · rename_i hva
    refine ⟨Nat.le_of_not_lt hva, h, ?_⟩
    rw [copyoutLoop_eq] at h
    exact (copyLoop_returns _ _ _ _ _).mp ⟨mem', h⟩

/-- What was copied out comes back, the user's other bytes stay, and a copy in two parts is the copy at
once, whatever it returns. -/
theorem copies_round_trip (t : PageTable) (hdistinct : DistinctPages t) (va src len : Nat) (mem : Memory)
    (hbuf : KernelBuffer t src len) :
    (∀ mem', t.copyout va src len mem = some (0, mem') →
      ComesBack t va src len mem mem' ∧ OthersKept t va len mem mem') ∧
    (∀ n ≤ len, t.copyoutTwice va src n len mem = t.copyout va src len mem) ∧
    ∀ dst n, KernelBuffer t dst len → n ≤ len → t.copyinTwice dst va n len mem = t.copyin dst va len mem := by
  refine ⟨fun mem' h => ?_, fun n hn => copyoutTwice_eq hbuf hn, fun dst n hdst hn => copyinTwice_eq hdst hn⟩
  obtain ⟨hva, hloop, hmapped⟩ := copyout_mapped h
  constructor
  · intro off n dst hoff hdst
    have hstart : va + off ≤ MAXVA t.arch := by
      have hfirst : ∀ i < off, Mapped t (va + i) := fun i hi => hmapped i (by omega)
      exact Nat.le_of_not_lt (second_starts hva hfirst)
    have hpart : ∀ i < n, Mapped t (va + off + i) := by
      intro i hi
      rw [Nat.add_assoc]
      exact hmapped (off + i) (by omega)
    obtain ⟨mem'', hback⟩ := (copyin_returns hstart dst mem').mpr hpart
    refine ⟨mem'', hback, fun i hi => ?_⟩
    rw [copyin, if_neg (Nat.not_lt.mpr hstart)] at hback
    rw [copyinLoop_copied dst (va + off) n mem' hdst hback i hi, Nat.add_assoc,
      copyoutLoop_copied hdistinct va src len mem hbuf hloop (off + i) (by omega), Nat.add_assoc]
  · intro va' hva' hout
    apply (copyoutLoop_frame va src len mem hloop).2
    intro i hi hin heq
    have := physical_inj hdistinct hva' hin heq
    omega

/-- One page of the user, at address 0, with these flags. -/
def onePageWith (flags : Nat) : PageTable where
  arch := .riscv
  root := 0x80201000
  entry := fun pt i =>
    if i ≠ 0 then 0
    else if pt = 0x80201000 then 0x80202000 >>> 12 <<< 10 ||| PTE_V
    else if pt = 0x80202000 then 0x80203000 >>> 12 <<< 10 ||| PTE_V
    else 0x80204000 >>> 12 <<< 10 ||| flags

theorem onePageWith_entry (flags pt i : Nat) (hi : i ≠ 0) : (onePageWith flags).entry pt i = 0 := if_pos hi

/-- It has one entry in each table. -/
theorem onePageWith_walk {flags : Nat} (h : (onePageWith flags).userEntry va ≠ none) :
    PX 2 (pgRoundDown va) = 0 ∧ PX 1 (pgRoundDown va) = 0 ∧ PX 0 (pgRoundDown va) = 0 := by
  have harch : (onePageWith flags).arch = .riscv := rfl
  have hroot : (onePageWith flags).entry 0x80201000 0 = 0x20080801 := rfl
  have hmid : (onePageWith flags).entry 0x80202000 0 = 0x20080C01 := rfl
  have hpaRoot : PTE2PA .riscv 0x20080801 ||| dmwinWin0 .riscv = 0x80202000 := by decide
  have hpaMid : PTE2PA .riscv 0x20080C01 ||| dmwinWin0 .riscv = 0x80203000 := by decide
  unfold userEntry at h
  change ((onePageWith flags).walkLevels (pgRoundDown va) 2 0x80201000).filter _ ≠ none at h
  rw [walkLevels] at h
  by_cases h2 : PX 2 (pgRoundDown va) = 0
  · simp only [Nat.reduceAdd, h2, hroot, harch, hpaRoot] at h
    rw [if_pos (by decide), if_neg (by decide), walkLevels] at h
    by_cases h1 : PX 1 (pgRoundDown va) = 0
    · simp only [Nat.reduceAdd, h1, hmid, harch, hpaMid] at h
      rw [if_pos (by decide), if_neg (by decide), walkLevels] at h
      by_cases h0 : PX 0 (pgRoundDown va) = 0
      · exact ⟨h2, h1, h0⟩
      · rw [onePageWith_entry flags _ _ h0] at h
        exact absurd rfl h
    · simp only [Nat.reduceAdd, onePageWith_entry flags _ _ h1] at h
      exact absurd rfl h
  · simp only [Nat.reduceAdd, onePageWith_entry flags _ _ h2] at h
    exact absurd rfl h

theorem onePageWith_mapped (flags : Nat) (h : Mapped (onePageWith flags) va) : pgRoundDown va = 0 := by
  have hentry : (onePageWith flags).userEntry va ≠ none := by
    intro hnone
    apply h.2
    rw [page, hnone]
    rfl
  obtain ⟨h2, h1, h0⟩ := onePageWith_walk hentry
  have hlt : pgRoundDown va < 2 ^ 38 := pgRoundDown_lt_maxva.mpr h.1
  have hmod : pgRoundDown va % 2 ^ 12 = 0 := Nat.mul_mod_left (va / PGSIZE) PGSIZE
  unfold PX at h2 h1 h0
  rw [show (0x1FF : Nat) = 2 ^ 9 - 1 from rfl, Nat.and_two_pow_sub_one_eq_mod, Nat.shiftRight_eq_div_pow] at h2 h1 h0
  omega

theorem onePage_mapped (h : Mapped onePage va) : pgRoundDown va = 0 :=
  onePageWith_mapped (PTE_V ||| PTE_U .riscv) h

theorem onePageWith_buffer (flags : Nat) (hpage : (onePageWith flags).page 0 = 0x80204000) (_ : len ≤ 16) :
    KernelBuffer (onePageWith flags) 0x90000000 len := by
  intro i hi va hva
  have hround := onePageWith_mapped flags hva
  have hsub := sub_pgRoundDown va
  have hsame : (onePageWith flags).page va = (onePageWith flags).page 0 := by
    unfold page userEntry
    rw [hround]
    rfl
  rw [physical_eq hva, hsame, hpage]
  unfold PGSIZE at hsub
  omega

theorem onePage_buffer (hlen : len ≤ 16) : KernelBuffer onePage 0x90000000 len :=
  onePageWith_buffer (PTE_V ||| PTE_U .riscv) (by decide) hlen

theorem copies_round_trip_onePage :
    (∀ mem mem', onePage.copyout 4090 0x90000000 4 mem = some (0, mem') →
      ComesBack onePage 4090 0x90000000 4 mem mem') ∧
    ∀ mem, onePage.copyoutTwice 4090 0x90000000 8 16 mem = onePage.copyout 4090 0x90000000 16 mem := by
  have hdistinct : DistinctPages onePage := by
    intro va va' hva hva' _
    rw [onePage_mapped hva, onePage_mapped hva']
  refine ⟨fun mem mem' h => ?_, fun mem => ?_⟩
  · exact ((copies_round_trip onePage hdistinct 4090 0x90000000 4 mem (onePage_buffer (by decide))).1 mem' h).1
  · exact (copies_round_trip onePage hdistinct 4090 0x90000000 16 mem (onePage_buffer (by decide))).2.1 8 (by decide)

end Round

end SC7.UserCopy
