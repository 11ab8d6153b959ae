-- SUMMARY: Strings from the user (`copyinstr` in `vmem.c`): what the buffer holds afterwards, and when a caller can tell that there was no string.
import SC7.Mem.CopyRound

/-!
# Strings from the user

`copyinstr` leaves its loop with the bytes counted so far, whether a zero has ended them or there is no
room for more. It does not look at `got_null` again, so that a string that fills the buffer looks to its
caller like one that ended.
-/

namespace SC7.UserCopy

open Function (update update_of_ne update_self)

namespace PageTable

variable (t : PageTable)

/-- The user's bytes from `va` on are mapped and not zero, up to a distance. -/
def NonZero (mem : Memory) (va k : Nat) : Prop := ∀ i < k, Mapped t (va + i) ∧ mem (t.physical (va + i)) ≠ 0

/-- The first zero of the user's string at `va` is there. -/
def NulAt (mem : Memory) (va k : Nat) : Prop := NonZero t mem va k ∧ Mapped t (va + k) ∧ mem (t.physical (va + k)) = 0

/-- The buffer holds the user's string, with the zero that ends it. -/
def HoldsString (dst va max : Nat) (mem mem' : Memory) : Prop :=
  ∃ k < max, NulAt t mem va k ∧ mem' (dst + k) = 0 ∧ (∀ i < k, mem' (dst + i) = mem (t.physical (va + i))) ∧
    ∀ a, ¬(dst ≤ a ∧ a < dst + max) → mem' a = mem a

end PageTable

/-- What `copyinstr` returns: its counter is an `int`. -/
def copyinstrRet : Option Nat → Int
  | none => -1
  | some len => toInt32 len

/-- A string for a result that is not negative; a negative result where the user has no string. -/
def YieldsString (t : PageTable) (dst va max : Nat) (mem : Memory) : Prop :=
  (∀ r mem', t.copyinstr dst va max mem = some (r, mem') → 0 ≤ copyinstrRet r → t.HoldsString dst va max mem mem') ∧
  ((¬∃ k < max, t.NulAt mem va k) → ∃ r mem', t.copyinstr dst va max mem = some (r, mem') ∧ copyinstrRet r < 0)

variable {t : PageTable} {va len n i k dst max : Nat} {mem mem' : Memory}

/-! ## Byte by byte -/

section Bytes

open PageTable

theorem physical_page (va : Nat) : t.place (t.page va) (va - pgRoundDown va) = t.physical va := rfl

/-- A byte that is not zero is copied, and the rest is the string behind it. -/
theorem copyinstrLoop_byte (hmax : max ≠ 0) (hva : Mapped t va) (hbyte : mem (t.physical va) ≠ 0) :
    t.copyinstrLoop dst va max len mem =
      t.copyinstrLoop (dst + 1) (va + 1) (max - 1) (len + 1) (update mem dst (mem (t.physical va))) := by
  have hwalk : t.walkaddr (pgRoundDown va) = some (t.page va) := by rw [walkaddr_page, if_pos hva.1]
  have hle := pgRoundDown_le va
  have hsub := sub_pgRoundDown va
  obtain ⟨n, hn⟩ : ∃ n, min (PGSIZE - (va - pgRoundDown va)) max = n + 1 := Nat.exists_eq_succ_of_ne_zero (by omega)
  rw [copyinstrLoop, if_neg hmax, hwalk]
  simp only [if_neg hva.2]
  rw [hn, physical_page, copyPage, if_neg hbyte]
  by_cases hpage : 1 < PGSIZE - (va - pgRoundDown va)
  · -- the next byte is on the same page
    obtain ⟨hround, hwalk', hplace⟩ := page_split hva hpage
    by_cases hone : max = 1
    · subst hone
      obtain rfl : n = 0 := by omega
      rw [copyinstrLoop.eq_1 t (dst + 1) (va + 1), if_pos (Nat.sub_self 1)]
      exact (copyinstrLoop.eq_1 t _ _ _ _ _).trans (if_pos rfl)
    · have hn' : min (PGSIZE - (va + 1 - pgRoundDown (va + 1))) (max - 1) = n := by omega
      rw [copyinstrLoop.eq_1 t (dst + 1) (va + 1), if_neg (by omega), hwalk']
      simp only [if_neg hva.2]
      rw [hn', hplace, hround, physical_page]
      generalize copyPage (dst + 1) (t.physical va + 1) n (update mem dst (mem (t.physical va))) = rest
      obtain ⟨null, k, mem'⟩ := rest
      cases null with
      | true => simp only [Nat.add_assoc, Nat.add_comm 1]
      | false =>
        simp only [Nat.add_assoc, Nat.add_comm 1]
        rw [Nat.sub_sub, Nat.add_comm 1]
  · -- it is the last byte of its page
    obtain rfl : n = 0 := by omega
    rw [copyPage]
    simp only
    rw [next_page hva.1, show PGSIZE - (va - pgRoundDown va) = 1 by omega]

/-- Bytes that are not zero are copied, and the rest is the string behind them. -/
theorem copyinstrLoop_skip (len : Nat) (hbuf : KernelBuffer t dst max) (hk : k ≤ max) (hbytes : NonZero t mem va k) :
    ∃ mem', t.copyinstrLoop dst va max len mem = t.copyinstrLoop (dst + k) (va + k) (max - k) (len + k) mem' ∧
      (∀ i < k, mem' (dst + i) = mem (t.physical (va + i))) ∧ ∀ a, ¬(dst ≤ a ∧ a < dst + k) → mem' a = mem a := by
  induction k with
  | zero => exact ⟨mem, rfl, fun i hi => absurd hi (Nat.not_lt_zero i), fun _ _ => rfl⟩
  | succ k ih =>
    obtain ⟨mem', hloop, hcopied, hframe⟩ := ih (Nat.le_of_succ_le hk) fun i hi => hbytes i (Nat.lt_succ_of_lt hi)
    obtain ⟨hva, hbyte⟩ := hbytes k (Nat.lt_succ_self k)
    have hsame : mem' (t.physical (va + k)) = mem (t.physical (va + k)) := by
      apply hframe
      rintro ⟨hge, hlt⟩
      obtain ⟨j, hj⟩ := Nat.exists_eq_add_of_le hge
      exact hbuf j (by omega) (va + k) hva hj
    refine ⟨update mem' (dst + k) (mem (t.physical (va + k))), ?_, fun i hi => ?_, fun a ha => ?_⟩
    · rw [hloop, copyinstrLoop_byte (by omega) hva (by rwa [hsame]), hsame, Nat.sub_sub]
      rfl
    · rcases Nat.lt_succ_iff_lt_or_eq.mp hi with hlt | rfl
      · rw [update_of_ne (by omega), hcopied i hlt]
      · rw [update_self]
    · rw [update_of_ne (by omega), hframe a (by omega)]

end Bytes

/-! ## How a string ends -/

section Ends

open PageTable

/-- At a zero: the string and its zero are in the buffer. -/
theorem copyinstr_nul (hbuf : KernelBuffer t dst max) (hk : k < max) (hnul : NulAt t mem va k) :
    ∃ mem', t.copyinstr dst va max mem = some (some k, mem') ∧ HoldsString t dst va max mem mem' := by
  obtain ⟨hbytes, hva, hzero⟩ := hnul
  obtain ⟨mem', hloop, hcopied, hframe⟩ := copyinstrLoop_skip 0 hbuf (Nat.le_of_lt hk) hbytes
  have hwalk : t.walkaddr (pgRoundDown (va + k)) = some (t.page (va + k)) := by rw [walkaddr_page, if_pos hva.1]
  have hsub := sub_pgRoundDown (va + k)
  have hsame : mem' (t.physical (va + k)) = 0 := by
    rw [hframe, hzero]
    rintro ⟨hge, hlt⟩
    obtain ⟨j, hj⟩ := Nat.exists_eq_add_of_le hge
    exact hbuf j (by omega) (va + k) hva hj
  obtain ⟨n, hn⟩ : ∃ n, min (PGSIZE - (va + k - pgRoundDown (va + k))) (max - k) = n + 1 :=
    Nat.exists_eq_succ_of_ne_zero (by omega)
  refine ⟨update mem' (dst + k) 0, ?_, k, hk, ⟨hbytes, hva, hzero⟩, update_self .., ?_, ?_⟩
  · rw [copyinstr, hloop, copyinstrLoop, if_neg (by omega), hwalk]
    simp only [if_neg hva.2]
    rw [hn, physical_page, copyPage, if_pos hsame]
    simp only [Nat.zero_add, Nat.add_zero]
  · intro i hi
    rw [update_of_ne (by omega), hcopied i hi]
  · intro a ha
    rw [update_of_ne (by omega), hframe a (by omega)]

/-- At a hole: -1. -/
theorem copyinstr_hole (hbuf : KernelBuffer t dst max) (hk : k < max) (hbytes : NonZero t mem va k)
    (hhole : Hole t (va + k)) : ∃ mem', t.copyinstr dst va max mem = some (none, mem') := by
  obtain ⟨mem', hloop, -⟩ := copyinstrLoop_skip 0 hbuf (Nat.le_of_lt hk) hbytes
  refine ⟨mem', ?_⟩
  rw [copyinstr, hloop, copyinstrLoop, if_neg (by omega), walkaddr_page, if_pos hhole.1, hhole.2]
  rfl

/-- At the limit: what was counted. -/
theorem copyinstr_full (hbuf : KernelBuffer t dst max) (hbytes : NonZero t mem va max) :
    ∃ mem', t.copyinstr dst va max mem = some (some max, mem') := by
  obtain ⟨mem', hloop, -⟩ := copyinstrLoop_skip 0 hbuf (le_refl max) hbytes
  refine ⟨mem', ?_⟩
  rw [copyinstr, hloop, Nat.sub_self, copyinstrLoop, if_pos rfl, Nat.zero_add]

/-- At `MAXVA` the kernel panics. -/
theorem copyinstr_above (hbuf : KernelBuffer t dst max) (hk : k < max) (hbytes : NonZero t mem va k)
    (habove : ¬va + k < MAXVA t.arch) : t.copyinstr dst va max mem = none := by
  obtain ⟨mem', hloop, -⟩ := copyinstrLoop_skip 0 hbuf (Nat.le_of_lt hk) hbytes
  rw [copyinstr, hloop, copyinstrLoop, if_neg (by omega), walkaddr_page, if_neg habove]

/-- The bytes that are mapped and not zero reach the limit, or something comes before it. -/
theorem string_ends (t : PageTable) (mem : Memory) (va max : Nat) :
    NonZero t mem va max ∨
      ∃ k < max, NonZero t mem va k ∧ (NulAt t mem va k ∨ Hole t (va + k) ∨ ¬va + k < MAXVA t.arch) := by
  induction max with
  | zero => exact Or.inl fun i hi => absurd hi (Nat.not_lt_zero i)
  | succ max ih =>
    rcases ih with hall | ⟨k, hk, hbytes, hend⟩
    · by_cases hlt : va + max < MAXVA t.arch
      · by_cases hpage : t.page (va + max) = 0
        · exact Or.inr ⟨max, Nat.lt_succ_self max, hall, Or.inr (Or.inl ⟨hlt, hpage⟩)⟩
        · by_cases hzero : mem (t.physical (va + max)) = 0
          · exact Or.inr ⟨max, Nat.lt_succ_self max, hall, Or.inl ⟨hall, ⟨hlt, hpage⟩, hzero⟩⟩
          · refine Or.inl fun i hi => ?_
            rcases Nat.lt_succ_iff_lt_or_eq.mp hi with hlt' | rfl
            · exact hall i hlt'
            · exact ⟨⟨hlt, hpage⟩, hzero⟩
      · exact Or.inr ⟨max, Nat.lt_succ_self max, hall, Or.inr (Or.inr hlt)⟩
    · exact Or.inr ⟨k, Nat.lt_succ_of_lt hk, hbytes, hend⟩

end Ends

/-! ## What the caller can tell -/

section Caller

open PageTable

/-- `copyinstr` does what its callers take it to do exactly if the string ends within the limit, or meets
a hole there first, or is so long that the counter has become negative. -/
theorem copyinstr_yields (t : PageTable) (dst va max : Nat) (mem : Memory) (hbuf : KernelBuffer t dst max) :
    YieldsString t dst va max mem ↔
      (∃ k < max, NulAt t mem va k) ∨ (∃ k < max, NonZero t mem va k ∧ Hole t (va + k)) ∨
        NonZero t mem va max ∧ toInt32 max < 0 := by
  constructor
  · rintro ⟨hstring, hnone⟩
    rcases string_ends t mem va max with hall | ⟨k, hk, hbytes, hnul | hhole | habove⟩
    · right
      right
      have hno : ¬∃ k < max, NulAt t mem va k := fun ⟨k, hk, hnul⟩ => (hall k hk).2 hnul.2.2
      obtain ⟨r, mem', hcall, hneg⟩ := hnone hno
      obtain ⟨mem'', hfull⟩ := copyinstr_full hbuf hall
      rw [hfull] at hcall
      cases hcall
      exact ⟨hall, hneg⟩
    · exact Or.inl ⟨k, hk, hnul⟩
    · exact Or.inr (Or.inl ⟨k, hk, hbytes, hhole⟩)
    · left
      by_contra hno
      obtain ⟨r, mem', hcall, -⟩ := hnone hno
      rw [copyinstr_above hbuf hk hbytes habove] at hcall
      exact absurd hcall (by simp)
  · rintro (⟨k, hk, hnul⟩ | ⟨k, hk, hbytes, hhole⟩ | ⟨hall, hneg⟩)
    · obtain ⟨mem', hcall, hholds⟩ := copyinstr_nul hbuf hk hnul
      refine ⟨fun r mem'' hcall' _ => ?_, fun hno => absurd ⟨k, hk, hnul⟩ hno⟩
      rw [hcall] at hcall'
      cases hcall'
      exact hholds
    · obtain ⟨mem', hcall⟩ := copyinstr_hole hbuf hk hbytes hhole
      refine ⟨fun r mem'' hcall' hret => ?_, fun _ => ⟨none, mem', hcall, by decide⟩⟩
      rw [hcall] at hcall'
      cases hcall'
      exact absurd hret (by decide)
    · obtain ⟨mem', hcall⟩ := copyinstr_full hbuf hall
      refine ⟨fun r mem'' hcall' hret => ?_, fun _ => ⟨some max, mem', hcall, hneg⟩⟩
      rw [hcall] at hcall'
      cases hcall'
      exact absurd hneg (Int.not_lt.mpr hret)

/-- Memory in which the user's page holds a zero at one offset and ones elsewhere. -/
def nulAfter (k : Nat) : Memory := fun a => if a = 0x80204000 + k then 0 else 1

theorem onePage_byte (hi : i < 16) : Mapped onePage (0 + i) ∧ onePage.physical (0 + i) = 0x80204000 + i := by
  have hround : pgRoundDown (0 + i) = 0 := by
    unfold pgRoundDown PGSIZE
    omega
  have hpage : onePage.page (0 + i) = 0x80204000 := by
    unfold page userEntry
    rw [hround]
    decide
  have hva : Mapped onePage (0 + i) := by
    refine ⟨?_, by rw [hpage]; decide⟩
    exact Nat.lt_of_lt_of_le (m := 16) (by omega) (by decide)
  refine ⟨hva, ?_⟩
  rw [physical_eq hva, hpage, hround, Nat.sub_zero, Nat.zero_add]

theorem nulAfter_nonZero (hk : k ≤ 16) (n : Nat) (hn : k ≤ n) : NonZero onePage (nulAfter n) 0 k := by
  intro i hi
  obtain ⟨hva, hphysical⟩ := onePage_byte (i := i) (by omega)
  refine ⟨hva, ?_⟩
  rw [hphysical, nulAfter, if_neg (by omega)]
  decide

theorem copyinstr_yields_nul : YieldsString onePage 0x90000000 0 4 (nulAfter 3) := by
  refine (copyinstr_yields onePage 0x90000000 0 4 (nulAfter 3) (onePage_buffer (by decide))).mpr (Or.inl ⟨3, by decide, ?_⟩)
  obtain ⟨hva, hphysical⟩ := onePage_byte (i := 3) (by decide)
  refine ⟨nulAfter_nonZero (by decide) 3 (le_refl 3), hva, ?_⟩
  rw [hphysical]
  rfl

/-- Four bytes and no zero in a buffer for four: the call says 4. -/
theorem copyinstr_unterminated :
    (∃ mem', onePage.copyinstr 0x90000000 0 4 (nulAfter 4) = some (some 4, mem')) ∧ 0 ≤ copyinstrRet (some 4) ∧
      ¬YieldsString onePage 0x90000000 0 4 (nulAfter 4) := by
  have hbytes : NonZero onePage (nulAfter 4) 0 4 := nulAfter_nonZero (by decide) 4 (le_refl 4)
  obtain ⟨mem', hcall⟩ := copyinstr_full (onePage_buffer (by decide) : KernelBuffer onePage 0x90000000 4) hbytes
  refine ⟨⟨mem', hcall⟩, by decide, fun h => ?_⟩
  obtain ⟨k, hk, hnul, -⟩ := h.1 (some 4) mem' hcall (by decide)
  exact (hbytes k hk).2 hnul.2.2

end Caller

end SC7.UserCopy
