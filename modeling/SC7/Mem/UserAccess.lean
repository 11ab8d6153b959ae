-- SUMMARY: `access_ok` (`vmem.c`) against the copies that it is asked for: when a range that it accepts can be copied.
import SC7.Mem.UserCopy

/-!
# Checked user ranges

`access_ok` walks the table page by page and looks at the flags of every entry. The copies look at the
address as well: `walkaddr` says with 0 that there is no page, so that a page of the user that really is
at address 0 is none to them.
-/

namespace SC7.UserCopy

def VERIFY_READ : Int := 0

def VERIFY_WRITE : Int := 1

/-- `PTE_R` on RISC-V; the LoongArch bit, `PTE_NR`, forbids. -/
def readBit : Arch → Nat
  | .riscv => 1 <<< 1
  | .loongarch => 1 <<< 61

/-- What `access_ok` asks of a page besides `PTE_V` and `PTE_U`. -/
def rights (arch : Arch) (type : Int) (pte : Nat) : Bool :=
  if type = VERIFY_WRITE then pte &&& PTE_W arch != 0
  else
    match arch with
    | .riscv => pte &&& readBit arch != 0
    | .loongarch => pte &&& readBit arch == 0

namespace PageTable

variable (t : PageTable)

/-- The loop over the pages in `access_ok`, the same one for both types. `walk` has asserted that
`current_addr` is below `MAXVA`, so that the next page does not wrap around. -/
def accessLoop (type : Int) (current end_ : Nat) : Option Bool :=
  if current < end_ then
    match t.walk current with
    | none => none
    | some none => some false
    | some (some pte) =>
      if pte &&& PTE_V = 0 then some false
      else if pte &&& PTE_U t.arch = 0 then some false
      else if rights t.arch type pte = false then some false
      else accessLoop type (current + PGSIZE) end_
  else some true
termination_by end_ - current
decreasing_by
  simp only [PGSIZE]
  omega

/-- `access_ok(type, addr, size)` of a process with this table. -/
def accessOk (type : Int) (addr size : Nat) : Option Bool :=
  if addr > MAXVA t.arch ∨ (addr + size) % 2 ^ 64 > MAXVA t.arch ∨ (addr + size) % 2 ^ 64 < addr then some false
  else if type = VERIFY_WRITE ∨ type = VERIFY_READ then
    if t.root = 0 then some false
    else t.accessLoop type (pgRoundDown addr) ((addr + size) % 2 ^ 64)
  else some true

/-- The user has a page at the address, with the right. -/
def Granted (type : Int) (va : Nat) : Prop := ∃ pte, t.userEntry va = some pte ∧ rights t.arch type pte = true

/-- The user's page at the address is not at the address 0 in the window. -/
def HasFrame (va : Nat) : Prop := t.page va ≠ 0

/-- If `access_ok` accepts a range, every copy inside it returns 0. -/
def AccessSuffices (type : Int) (addr size : Nat) : Prop :=
  t.accessOk type addr size = some true →
    (type = VERIFY_READ → ∀ srcva dst len mem, addr ≤ srcva → srcva + len ≤ addr + size →
      ∃ mem', t.copyin dst srcva len mem = some (0, mem')) ∧
    (type = VERIFY_WRITE → ∀ dstva src len mem, addr ≤ dstva → dstva + len ≤ addr + size →
      ∃ mem', t.copyout dstva src len mem = some (0, mem'))

end PageTable

variable {t : PageTable} {va len n i current end_ addr size : Nat} {type : Int} {mem mem' : Memory}

/-! ## Copies that return 0 -/

section Returns

open PageTable

/-- One turn of the loops: a range is the user's if what is left of it after this page is. -/
theorem mapped_page (hva : Mapped t va) :
    (∀ i < len, Mapped t (va + i)) ↔
      ∀ i < len - min (PGSIZE - (va - pgRoundDown va)) len, Mapped t ((pgRoundDown va + PGSIZE) % 2 ^ 64 + i) := by
  rw [next_page hva.1]
  constructor
  · intro h i hi
    have := h (PGSIZE - (va - pgRoundDown va) + i) (by omega)
    rwa [← Nat.add_assoc] at this
  · intro h i hi
    by_cases hin : i < PGSIZE - (va - pgRoundDown va)
    · exact mapped_add hva hin
    · have := h (i - (PGSIZE - (va - pgRoundDown va))) (by omega)
      rwa [Nat.add_assoc, Nat.add_sub_cancel' (by omega)] at this

/-- The loop of `copyin` and of `copyout`: `move` is the copy of a part of one page. -/
def PageTable.copyLoop (t : PageTable) (move : Nat → Nat → Nat → Memory → Memory) (va buf len : Nat) (mem : Memory) :
    Option (Int × Memory) :=
  if len = 0 then some (0, mem)
  else
    match t.walkaddr (pgRoundDown va) with
    | none => none
    | some pa0 =>
      if pa0 = 0 then some (-1, mem)
      else
        let n := min (PGSIZE - (va - pgRoundDown va)) len
        copyLoop t move ((pgRoundDown va + PGSIZE) % 2 ^ 64) (buf + n) (len - n)
          (move (t.place pa0 (va - pgRoundDown va)) buf n mem)
termination_by len
decreasing_by
  have := sub_pgRoundDown va
  omega

/-- What `copyin` does with a part of a page. -/
def moveIn (place buf n : Nat) (mem : Memory) : Memory := memmove mem buf place n

/-- What `copyout` does with it. -/
def moveOut (place buf n : Nat) (mem : Memory) : Memory := memmove mem place buf n

theorem copyinLoop_eq (dst srcva len : Nat) (mem : Memory) :
    t.copyinLoop dst srcva len mem = t.copyLoop moveIn srcva dst len mem := by
  fun_induction copyinLoop t dst srcva len mem with
  | case1 => rw [copyLoop, if_pos rfl]
  | case2 dst srcva len mem hlen hwalk => rw [copyLoop, if_neg hlen, hwalk]
  | case3 dst srcva len mem hlen hwalk =>
    rw [copyLoop, if_neg hlen, hwalk]
    rfl
  | case4 dst srcva len mem hlen pa0 hwalk hpa n ih =>
    rw [copyLoop, if_neg hlen, hwalk]
    simp only [if_neg hpa]
    exact ih

theorem copyoutLoop_eq (dstva src len : Nat) (mem : Memory) :
    t.copyoutLoop dstva src len mem = t.copyLoop moveOut dstva src len mem := by
  fun_induction copyoutLoop t dstva src len mem with
  | case1 => rw [copyLoop, if_pos rfl]
  | case2 dstva src len mem hlen hwalk => rw [copyLoop, if_neg hlen, hwalk]
  | case3 dstva src len mem hlen hwalk =>
    rw [copyLoop, if_neg hlen, hwalk]
    rfl
  | case4 dstva src len mem hlen pa0 hwalk hpa n ih =>
    rw [copyLoop, if_neg hlen, hwalk]
    simp only [if_neg hpa]
    exact ih

/-- The loop returns 0 exactly if the whole range is the user's. -/
theorem copyLoop_returns (move : Nat → Nat → Nat → Memory → Memory) (va buf len : Nat) (mem : Memory) :
    (∃ mem', t.copyLoop move va buf len mem = some (0, mem')) ↔ ∀ i < len, Mapped t (va + i) := by
  fun_induction copyLoop t move va buf len mem with
  | case1 va buf mem => exact iff_of_true ⟨mem, rfl⟩ fun i hi => absurd hi (Nat.not_lt_zero i)
  | case2 va buf len mem hlen hwalk =>
    refine iff_of_false (by simp) fun h => ?_
    exact walkaddr_none hwalk (h 0 (Nat.pos_of_ne_zero hlen)).1
  | case3 va buf len mem hlen hwalk =>
    refine iff_of_false (by simp) fun h => ?_
    exact (h 0 (Nat.pos_of_ne_zero hlen)).2 (walkaddr_some hwalk).2
  | case4 va buf len mem hlen pa0 hwalk hpa n ih =>
    have ⟨hlt, hpage⟩ := walkaddr_some hwalk
    rw [ih, mapped_page ⟨hlt, hpage ▸ hpa⟩]

/-- A range of the user starts at or below `MAXVA`, even an empty one of a range that does. -/
theorem copyin_returns (hle : va ≤ MAXVA t.arch) (dst : Nat) (mem : Memory) :
    (∃ mem', t.copyin dst va len mem = some (0, mem')) ↔ ∀ i < len, Mapped t (va + i) := by
  rw [copyin, if_neg (Nat.not_lt.mpr hle), copyinLoop_eq, copyLoop_returns]

theorem copyout_returns (hle : va ≤ MAXVA t.arch) (src : Nat) (mem : Memory) :
    (∃ mem', t.copyout va src len mem = some (0, mem')) ↔ ∀ i < len, Mapped t (va + i) := by
  rw [copyout, if_neg (Nat.not_lt.mpr hle), copyoutLoop_eq, copyLoop_returns]

end Returns

/-! ## The check -/

section Check

open PageTable

/-- The check of one page, as `access_ok` makes it. -/
theorem granted_page (hroot : t.root ≠ 0) (hlt : va < MAXVA t.arch) :
    Granted t type va ↔
      ∃ pte, t.walk (pgRoundDown va) = some (some pte) ∧ pte &&& PTE_V ≠ 0 ∧ pte &&& PTE_U t.arch ≠ 0 ∧
        rights t.arch type pte = true := by
  unfold Granted userEntry PageTable.walk
  rw [if_neg hroot, if_pos (pgRoundDown_lt_maxva.mpr hlt), if_neg hroot]
  constructor
  · rintro ⟨pte, hentry, hrights⟩
    obtain ⟨hwalk, hflags⟩ := Option.filter_eq_some_iff.mp hentry
    obtain ⟨hv, hu⟩ := of_decide_eq_true hflags
    exact ⟨pte, congrArg some hwalk, hv, hu, hrights⟩
  · rintro ⟨pte, hwalk, hv, hu, hrights⟩
    exact ⟨pte, Option.filter_eq_some_iff.mpr ⟨Option.some.inj hwalk, decide_eq_true ⟨hv, hu⟩⟩, hrights⟩

theorem granted_congr (h : pgRoundDown va = pgRoundDown current) : Granted t type va ↔ Granted t type current := by
  unfold Granted userEntry
  rw [h]

theorem pgRoundDown_idem (va : Nat) : pgRoundDown (pgRoundDown va) = pgRoundDown va := by
  simp only [pgRoundDown, PGSIZE]
  omega

theorem pgRoundDown_next (halign : pgRoundDown current = current) :
    pgRoundDown (current + PGSIZE) = current + PGSIZE := by
  unfold pgRoundDown at halign ⊢
  rw [Nat.add_div_right current (by decide), Nat.succ_mul, halign]

theorem pgRoundDown_between (halign : pgRoundDown current = current) (hle : current ≤ va)
    (hlt : va < current + PGSIZE) : pgRoundDown va = pgRoundDown current := by
  unfold pgRoundDown at halign ⊢
  have hdiv : va / PGSIZE = current / PGSIZE := by
    apply Nat.div_eq_of_lt_le
    · rwa [halign]
    · rwa [Nat.succ_mul, halign]
  rw [hdiv]

/-- The loop accepts exactly if every page with an address before the end is granted. -/
theorem accessLoop_eq (type : Int) (hroot : t.root ≠ 0) (hend : end_ ≤ MAXVA t.arch) (halign : pgRoundDown current = current) :
    ∃ ok, t.accessLoop type current end_ = some ok ∧
      (ok = true ↔ ∀ va, current ≤ va → va < end_ → Granted t type va) := by
  fun_induction accessLoop t type current end_ with
  | case1 current hlt hwalk =>
    exfalso
    rw [PageTable.walk, if_pos (by omega)] at hwalk
    split at hwalk <;> exact absurd hwalk (by simp)
  | case2 current hlt hwalk =>
    refine ⟨false, rfl, iff_of_false (by simp) fun h => ?_⟩
    obtain ⟨pte, hpte, -⟩ := (granted_page hroot (by omega)).mp (h current (le_refl _) hlt)
    rw [halign, hwalk] at hpte
    exact absurd hpte (by simp)
  | case3 current hlt pte hwalk hv =>
    refine ⟨false, rfl, iff_of_false (by simp) fun h => ?_⟩
    obtain ⟨pte', hpte, hv', -⟩ := (granted_page hroot (by omega)).mp (h current (le_refl _) hlt)
    rw [halign, hwalk] at hpte
    cases hpte
    exact hv' hv
  | case4 current hlt pte hwalk hv hu =>
    refine ⟨false, rfl, iff_of_false (by simp) fun h => ?_⟩
    obtain ⟨pte', hpte, -, hu', -⟩ := (granted_page hroot (by omega)).mp (h current (le_refl _) hlt)
    rw [halign, hwalk] at hpte
    cases hpte
    exact hu' hu
  | case5 current hlt pte hwalk hv hu hr =>
    refine ⟨false, rfl, iff_of_false (by simp) fun h => ?_⟩
    obtain ⟨pte', hpte, -, -, hr'⟩ := (granted_page hroot (by omega)).mp (h current (le_refl _) hlt)
    rw [halign, hwalk] at hpte
    cases hpte
    exact absurd (hr.symm.trans hr') (by simp)
  | case6 current hlt pte hwalk hv hu hr ih =>
    obtain ⟨ok, hloop, hok⟩ := ih (pgRoundDown_next halign)
    refine ⟨ok, hloop, hok.trans ?_⟩
    have hpage : Granted t type current := by
      rw [granted_page hroot (by omega), halign]
      exact ⟨pte, hwalk, hv, hu, by simpa using hr⟩
    constructor
    · intro h va hle hva
      by_cases hin : va < current + PGSIZE
      · exact (granted_congr (pgRoundDown_between halign hle hin)).mpr hpage
      · exact h va (Nat.le_of_not_lt hin) hva
    · exact fun h va hle hva => h va (Nat.le_trans (Nat.le_add_right current PGSIZE) hle) hva
  | case7 current hge =>
    exact ⟨true, rfl, iff_of_true rfl fun va hle hva => absurd (Nat.lt_of_le_of_lt hle hva) hge⟩

/-- What `access_ok` accepts, for a reader or a writer: a range that neither wraps around nor leaves the
user's part of the address space, with every page from the one of its start on granted. -/
def Accepted (t : PageTable) (type : Int) (addr size : Nat) : Prop :=
  addr + size ≤ MAXVA t.arch ∧ t.root ≠ 0 ∧ ∀ va, pgRoundDown addr ≤ va → va < addr + size → Granted t type va

theorem accessOk_eq (haddr : addr < 2 ^ 64) (hsize : size < 2 ^ 64) (htype : type = VERIFY_WRITE ∨ type = VERIFY_READ) :
    ∃ ok, t.accessOk type addr size = some ok ∧ (ok = true ↔ Accepted t type addr size) := by
  obtain ⟨q, -, hmax⟩ := maxva_aligned t.arch
  have hsum : ¬(addr > MAXVA t.arch ∨ (addr + size) % 2 ^ 64 > MAXVA t.arch ∨ (addr + size) % 2 ^ 64 < addr) ↔
      addr + size ≤ MAXVA t.arch := by
    omega
  unfold accessOk
  split
  · rename_i hout
    exact ⟨false, rfl, iff_of_false (by simp) fun h => hsum.mpr h.1 hout⟩
  · rename_i hin
    have hle := hsum.mp hin
    split
    · rename_i hroot
      exact ⟨false, rfl, iff_of_false (by simp) fun h => h.2.1 hroot⟩
    · rename_i hroot
      have hmod : (addr + size) % 2 ^ 64 = addr + size := Nat.mod_eq_of_lt (by omega)
      rw [hmod]
      obtain ⟨ok, hloop, hok⟩ := accessLoop_eq (t := t) type hroot hle (pgRoundDown_idem addr)
      exact ⟨ok, hloop, hok.trans ⟨fun h => ⟨hle, hroot, h⟩, fun h => h.2.2⟩⟩

theorem accessOk_iff (haddr : addr < 2 ^ 64) (hsize : size < 2 ^ 64) (htype : type = VERIFY_WRITE ∨ type = VERIFY_READ) :
    t.accessOk type addr size = some true ↔ Accepted t type addr size := by
  obtain ⟨ok, heq, hok⟩ := accessOk_eq (t := t) haddr hsize htype
  rw [heq, Option.some.injEq, hok]

/-- An accepted range is the user's, where its pages are not at address 0. -/
theorem accepted_mapped (h : Accepted t type addr size) (hlt : va < addr + size) :
    Mapped t va ↔ HasFrame t va :=
  ⟨fun hmapped => hmapped.2, fun hframe => ⟨Nat.lt_of_lt_of_le hlt h.1, hframe⟩⟩

/-- What one byte needs, every copy inside the range gets. -/
theorem accepted_copies (haccepted : Accepted t type addr size) :
    (∀ va, addr ≤ va → va < addr + size → HasFrame t va) ↔
      ∀ va len, addr ≤ va → va + len ≤ addr + size → va ≤ MAXVA t.arch ∧ ∀ i < len, Mapped t (va + i) := by
  have hmax := haccepted.1
  constructor
  · intro hframe va len hle hend
    refine ⟨by omega, fun i hi => ?_⟩
    exact (accepted_mapped haccepted (by omega)).mpr (hframe (va + i) (by omega) (by omega))
  · intro hmapped va hle hlt
    exact ((hmapped va 1 hle hlt).2 0 Nat.one_pos).2

/-- A range that `access_ok` accepts can be copied exactly if none of its pages is at address 0, which
`walkaddr` takes for no page. -/
theorem access_suffices (t : PageTable) (type : Int) (addr size : Nat) (haddr : addr < 2 ^ 64) (hsize : size < 2 ^ 64) :
    AccessSuffices t type addr size ↔
      (type = VERIFY_WRITE ∨ type = VERIFY_READ → Accepted t type addr size →
        ∀ va, addr ≤ va → va < addr + size → HasFrame t va) := by
  unfold AccessSuffices
  by_cases htype : type = VERIFY_WRITE ∨ type = VERIFY_READ
  · rw [accessOk_iff haddr hsize htype]
    constructor
    · intro h _ haccepted va hle hlt
      have hmax := haccepted.1
      obtain ⟨hread, hwrite⟩ := h haccepted
      rcases htype with rfl | rfl
      · have hone := (copyout_returns (by omega) 0 fun _ => 0).mp (hwrite rfl va 0 1 _ hle hlt)
        exact (hone 0 Nat.one_pos).2
      · have hone := (copyin_returns (by omega) 0 fun _ => 0).mp (hread rfl va 0 1 _ hle hlt)
        exact (hone 0 Nat.one_pos).2
    · intro h haccepted
      have hcopies := (accepted_copies haccepted).mp (h htype haccepted)
      refine ⟨fun _ srcva dst len mem hle hend => ?_, fun _ dstva src len mem hle hend => ?_⟩
      · obtain ⟨hva, hmapped⟩ := hcopies srcva len hle hend
        exact (copyin_returns hva dst mem).mpr hmapped
      · obtain ⟨hva, hmapped⟩ := hcopies dstva len hle hend
        exact (copyout_returns hva src mem).mpr hmapped
  · refine iff_of_true (fun _ => ⟨fun hread => absurd (Or.inr hread) htype, fun hwrite => absurd (Or.inl hwrite) htype⟩) ?_
    exact fun htype' => absurd htype' htype

/-- What `exec` maps at `0x10000036e`, without a look at what the allocator has returned. -/
def execPage (pa : Nat) : PageTable where
  arch := .riscv
  root := 0x80201000
  entry := fun pt i =>
    if pt = 0x80201000 ∧ i = 4 then 0x80202000 >>> 12 <<< 10 ||| PTE_V
    else if pt = 0x80202000 ∧ i = 0 then 0x80203000 >>> 12 <<< 10 ||| PTE_V
    else if pt = 0x80203000 ∧ i ≤ 1 then (pa + i * PGSIZE) >>> 12 <<< 10 ||| 0x9F
    else 0

theorem execPage_accepted (pa : Nat) (hgranted : Granted (execPage pa) VERIFY_READ 0x100000000) :
    Accepted (execPage pa) VERIFY_READ 0x100000000 64 := by
  refine ⟨show 0x100000000 + 64 ≤ MAXVA .riscv by decide, by simp [execPage], fun va hle hlt => ?_⟩
  refine (granted_congr (pgRoundDown_between (by decide) ?_ ?_)).mpr hgranted
  · exact Nat.le_trans (by decide) hle
  · exact Nat.lt_of_lt_of_le hlt (by decide)

theorem access_suffices_execPage : AccessSuffices (execPage 0x80204000) VERIFY_READ 0x100000000 64 := by
  refine (access_suffices (execPage 0x80204000) VERIFY_READ 0x100000000 64 (by decide) (by decide)).mpr ?_
  intro _ haccepted va hle hlt
  unfold HasFrame page userEntry
  have hround : pgRoundDown va = pgRoundDown 0x100000000 :=
    pgRoundDown_between (by decide) hle (Nat.lt_of_lt_of_le hlt (by decide))
  rw [hround]
  decide

/-- With no page left for `exec`, the user's buffer is accepted and cannot be read. -/
theorem execPage_refused :
    (execPage 0).accessOk VERIFY_READ 0x100000000 64 = some true ∧
      (∀ dst mem, (execPage 0).copyin dst 0x100000000 64 mem = some (-1, mem)) ∧
      ¬AccessSuffices (execPage 0) VERIFY_READ 0x100000000 64 := by
  have haccepted : (execPage 0).accessOk VERIFY_READ 0x100000000 64 = some true := by
    rw [accessOk_iff (by decide) (by decide) (Or.inr rfl)]
    exact execPage_accepted 0 ⟨0x9F, by decide, by decide⟩
  have hwalk : (execPage 0).walkaddr (pgRoundDown 0x100000000) = some 0 := by decide
  have hcopy : ∀ dst mem, (execPage 0).copyin dst 0x100000000 64 mem = some (-1, mem) := by
    intro dst mem
    rw [copyin, if_neg (by decide), copyinLoop, if_neg (by decide), hwalk]
    rfl
  refine ⟨haccepted, hcopy, fun h => ?_⟩
  obtain ⟨mem', hreturns⟩ := (h haccepted).1 rfl 0x100000000 0 64 (fun _ => 0) (le_refl _) (le_refl _)
  rw [hcopy] at hreturns
  exact absurd hreturns (by simp)

end Check

end SC7.UserCopy
