-- SUMMARY: The rights in leaf entries: how the flag arithmetic of `mmap`, `mprotect`, `fork` and faults moves them.
import SC7.Mem.Space

/-!
# Rights of user pages

A leaf entry lets user code write or execute; the protection of a VMA says what it may let. The
lemmas of this module say for every routine that writes leaf entries which rights it can add, and in
which pages.
-/

namespace SC7

open Function (update update_of_ne update_self)

/-! ## Rights of flags -/

/-- Whether a page with these flags can be written to. On LoongArch the processor looks at the dirty
bit, and the kernel keeps its own bit beside it. -/
def canWrite (arch : Arch) (flags : Nat) : Bool :=
  match arch with
  | .riscv => Bits.has flags (PTE_W .riscv)
  | .loongarch => Bits.has flags (PTE_W .loongarch ||| PTE_D .loongarch)

/-- Whether code can be fetched from a page with these flags. -/
def canExec (arch : Arch) (flags : Nat) : Bool :=
  match arch with
  | .riscv => Bits.has flags (PTE_X .riscv)
  | .loongarch => !Bits.has flags PTE_NX

/-- The flags grant no more than the protection. -/
structure FlagsWithin (arch : Arch) (prot : Int) (flags : Nat) : Prop where
  write : canWrite arch flags = true → hasBits prot PROT_WRITE = true
  exec : canExec arch flags = true → hasBits prot PROT_EXEC = true

/-- Setting these flags adds no more than the protection. On LoongArch no flag adds the right to
execute: it is there unless `PTE_NX` is set. -/
structure Adds (arch : Arch) (prot : Int) (flags : Nat) : Prop where
  write : canWrite arch flags = true → hasBits prot PROT_WRITE = true
  exec : arch = .riscv → canExec arch flags = true → hasBits prot PROT_EXEC = true

/-- The leaf entry of a user page grants no more than the protection. -/
def Within (arch : Arch) (prot : Int) (pte : Pte) : Prop :=
  pte.valid = true → Bits.has pte.flags (PTE_U arch) = true → FlagsWithin arch prot pte.flags

variable {arch : Arch} {prot : Int} {a b flags perm : Nat}

theorem canWrite_or : canWrite arch (a ||| b) = (canWrite arch a || canWrite arch b) := by
  cases arch <;> simp [canWrite]

theorem canExec_or_riscv : canExec .riscv (a ||| b) = (canExec .riscv a || canExec .riscv b) := by
  simp [canExec]

theorem canExec_or_loongarch :
    canExec .loongarch (a ||| b) = (canExec .loongarch a && canExec .loongarch b) := by
  simp [canExec]

namespace Adds

theorem or (ha : Adds arch prot a) (hb : Adds arch prot b) : Adds arch prot (a ||| b) where
  write h := by
    rw [canWrite_or, Bool.or_eq_true] at h
    exact h.elim ha.write hb.write
  exec hr h := by
    subst hr
    rw [canExec_or_riscv, Bool.or_eq_true] at h
    exact h.elim (ha.exec rfl) (hb.exec rfl)

/-- Flags without the bits for writing and executing add nothing. -/
theorem of_none (hw : canWrite arch flags = false) (hx : arch = .riscv → canExec arch flags = false) :
    Adds arch prot flags where
  write h := by
    rw [hw] at h
    cases h
  exec hr h := by
    rw [hx hr] at h
    cases h

theorem valid : Adds arch prot PTE_V := of_none (by cases arch <;> rfl) (by rintro rfl; rfl)

theorem user : Adds arch prot (PTE_U arch) := of_none (by cases arch <;> rfl) (by rintro rfl; rfl)

theorem read : Adds arch prot (PTE_R arch) := of_none (by cases arch <;> rfl) (by rintro rfl; rfl)

/-- Masking flags adds nothing. -/
theorem and (ha : Adds arch prot a) (k : Nat) : Adds arch prot (a &&& k) where
  write h := by
    refine ha.write ?_
    cases arch <;> exact Bits.has_of_and h
  exec hr h := by
    refine ha.exec hr ?_
    subst hr
    exact Bits.has_of_and h

theorem clear (ha : Adds arch prot a) (m : Nat) : Adds arch prot (Bits.clear a m) := ha.and _

theorem flagsInt (ha : Adds arch prot a) : Adds arch prot (flagsInt a) := by
  rw [SC7.flagsInt, ← Nat.and_two_pow_sub_one_eq_mod]
  exact ha.and _

/-- Flags that are set on a condition. -/
theorem ite {c : Prop} [Decidable c] (ha : Adds arch prot a) (hb : c → Adds arch prot b) :
    Adds arch prot (if c then a ||| b else a) := by
  split
  · rename_i hc
    exact ha.or (hb hc)
  · exact ha

end Adds

namespace FlagsWithin

theorem adds (h : FlagsWithin arch prot flags) : Adds arch prot flags := ⟨h.write, fun _ => h.exec⟩

/-- Flags that are set on top of others add what they add. -/
theorem or (ha : FlagsWithin arch prot a) (hb : Adds arch prot b) : FlagsWithin arch prot (a ||| b) where
  write := (ha.adds.or hb).write
  exec h := by
    cases arch with
    | riscv => exact (ha.adds.or hb).exec rfl h
    | loongarch =>
      rw [canExec_or_loongarch, Bool.and_eq_true] at h
      exact ha.exec h.1

end FlagsWithin

namespace Within

theorem zero : Within arch prot Pte.zero := by
  intro h
  cases h

theorem of_invalid {pte : Pte} (h : pte.valid = false) : Within arch prot pte := by
  intro h'
  rw [h] at h'
  cases h'

theorem of_flags {pte : Pte} (h : FlagsWithin arch prot pte.flags) : Within arch prot pte := fun _ _ => h

/-- Rights that one protection contains are in every protection that contains it. -/
theorem weaken {prot' : Int} {pte : Pte} (h : Within arch prot pte)
    (hw : hasBits prot PROT_WRITE = true → hasBits prot' PROT_WRITE = true)
    (hx : hasBits prot PROT_EXEC = true → hasBits prot' PROT_EXEC = true) : Within arch prot' pte :=
  fun hv hu => ⟨fun h' => hw ((h hv hu).write h'), fun h' => hx ((h hv hu).exec h')⟩

end Within

/-! ## The flags of the routines -/

section Perms

/-- The flags of a protection add what it says. -/
theorem adds_getMmapperms : Adds arch prot (getMmapperms arch prot) := by
  cases arch with
  | riscv =>
    unfold getMmapperms
    dsimp only
    split
    · exact .of_none rfl fun _ => rfl
    · refine ((Adds.user.ite fun _ => .read).ite fun hw => ?_).ite fun hx => ?_
      · exact ⟨fun _ => hw, fun _ h => by cases h⟩
      · exact ⟨(fun h => by cases h), fun _ _ => hx⟩
  | loongarch =>
    have hbase : Adds .loongarch prot (PTE_U .loongarch ||| PTE_MAT ||| PTE_NR ||| PTE_NX) :=
      .of_none rfl fun h => by cases h
    unfold getMmapperms
    dsimp only
    split
    · exact hbase
    · have hread : Adds .loongarch prot (if hasBits prot PROT_READ = true then
          Bits.clear (PTE_U .loongarch ||| PTE_MAT ||| PTE_NR ||| PTE_NX) PTE_NR
          else PTE_U .loongarch ||| PTE_MAT ||| PTE_NR ||| PTE_NX) := by
        split
        · exact hbase.clear _
        · exact hbase
      have hwrite := hread.ite (c := hasBits prot PROT_WRITE = true)
        (b := PTE_W .loongarch ||| PTE_D .loongarch) fun hw => ⟨fun _ => hw, fun h => by cases h⟩
      split
      · exact (hwrite.or (.of_none rfl fun h => by cases h)).clear _
      · exact hwrite

/-- On LoongArch the flags of a protection forbid execution unless it is asked for. -/
theorem exec_of_getMmapperms (h : Bits.has (getMmapperms .loongarch prot) PTE_NX = false) :
    hasBits prot PROT_EXEC = true := by
  by_contra hx
  rw [Bool.not_eq_true] at hx
  unfold getMmapperms at h
  simp only [hx, Bool.false_eq_true, if_false] at h
  split_ifs at h <;> exact absurd h (by decide)

/-- A protection that includes both rights forbids nothing. -/
theorem FlagsWithin.of_both (hw : hasBits prot PROT_WRITE = true) (hx : hasBits prot PROT_EXEC = true) :
    FlagsWithin arch prot flags :=
  ⟨fun _ => hw, fun _ => hx⟩

/-- What adds nothing beyond the protection is within it, if execution is in the protection wherever
it is the default. -/
theorem Adds.within (h : Adds arch prot flags)
    (hx : arch = .loongarch → hasBits prot PROT_EXEC = true) : FlagsWithin arch prot flags where
  write := h.write
  exec := by
    cases arch with
    | riscv => exact h.exec rfl
    | loongarch => exact fun _ => hx rfl

/-- `mprotect` replaces the rights of a page by those of the protection. -/
theorem within_protectFlags :
    FlagsWithin arch prot (Space.protectFlags arch (getMmapperms arch prot) flags) := by
  have hadds : Adds arch prot (getMmapperms arch prot) := adds_getMmapperms
  cases arch with
  | riscv =>
    have hw : canWrite .riscv (Space.protectFlags .riscv (getMmapperms .riscv prot) flags) =
        canWrite .riscv (getMmapperms .riscv prot) := by
      simp [canWrite, Space.protectFlags, Bits.has_clear, PTE_R, PTE_W, PTE_X]
    have hx : canExec .riscv (Space.protectFlags .riscv (getMmapperms .riscv prot) flags) =
        canExec .riscv (getMmapperms .riscv prot) := by
      simp [canExec, Space.protectFlags, Bits.has_clear, PTE_R, PTE_W, PTE_X]
    exact ⟨fun h => hadds.write (hw ▸ h), fun h => hadds.exec rfl (hx ▸ h)⟩
  | loongarch =>
    generalize hp : getMmapperms .loongarch prot = perm at hadds
    have hw : canWrite .loongarch (Space.protectFlags .loongarch perm flags) =
        Bits.has perm (PTE_W .loongarch) := by
      simp only [canWrite, Space.protectFlags]
      split_ifs <;> simp_all [Bits.has_clear, PTE_W, PTE_NX, PTE_NR, PTE_D]
    have hx : canExec .loongarch (Space.protectFlags .loongarch perm flags) = !Bits.has perm PTE_NX := by
      simp only [canExec, Space.protectFlags]
      split_ifs <;> simp_all [Bits.has_clear, PTE_W, PTE_NX, PTE_NR, PTE_D]
    refine ⟨fun h => hadds.write ?_, fun h => exec_of_getMmapperms ?_⟩
    · rw [hw] at h
      simp [canWrite, Bits.has_or_mask, h]
    · rw [hx, Bool.not_eq_true'] at h
      rwa [hp]

/-- Flags with no more rights than the flags of a page stay within its protection. -/
theorem Within.mono {pte : Pte} {pa : Nat} (h : Within arch prot pte) (hv : pte.valid = true)
    (hu : Bits.has flags (PTE_U arch) = true → Bits.has pte.flags (PTE_U arch) = true)
    (hf : FlagsWithin arch prot pte.flags → FlagsWithin arch prot flags) :
    Within arch prot ⟨pa, flags⟩ :=
  fun _ huser => hf (h hv (hu huser))

/-- A page that waits for its first write has lost a right. -/
theorem Within.cow {pte : Pte} {pa : Nat} (h : Within arch prot pte) (hv : pte.valid = true) :
    Within arch prot ⟨pa, Space.cowFlags arch pte.flags⟩ := by
  refine h.mono hv ?_ ?_
  · cases arch <;> simp [Space.cowFlags, Bits.has_clear, PTE_W, PTE_D, PTE_U]
  · intro hf
    constructor
    · cases arch <;> simp [canWrite, Space.cowFlags, Bits.has_clear, PTE_W, PTE_D]
    · intro hx
      refine hf.exec ?_
      revert hx
      cases arch <;> simp [canExec, Space.cowFlags, Bits.has_clear, PTE_W, PTE_D, PTE_X, PTE_NX]

/-- The flags that `fork` copies through a `long` keep the rights. -/
theorem Within.copy {pte : Pte} {pa : Nat} (h : Within arch prot pte) (hv : pte.valid = true) :
    Within arch prot ⟨pa, PTE_FLAGS arch pte ||| PTE_V⟩ := by
  refine h.mono hv ?_ ?_
  · cases arch <;> simp [PTE_FLAGS, flagsMask, PTE_U, PTE_V]
  · intro hf
    refine FlagsWithin.or ?_ .valid
    refine ⟨fun hw => hf.adds.and (flagsMask arch) |>.write hw, fun hx => hf.exec ?_⟩
    revert hx
    cases arch <;> simp [canExec, PTE_FLAGS, flagsMask, PTE_X, PTE_NX]

/-- The flags that `fork` copies through an `unsigned int` lose `PTE_NX`. -/
theorem Within.copy32 {pte : Pte} {pa : Nat} (h : Within arch prot pte) (hv : pte.valid = true)
    (hx : arch = .loongarch → hasBits prot PROT_EXEC = true) :
    Within arch prot ⟨pa, PTE_FLAGS arch pte % 2 ^ 32 ||| PTE_V⟩ := by
  refine h.mono hv ?_ ?_
  · simp only [PTE_FLAGS, Bits.has_or, Bits.has_mod, Bits.has_and]
    cases arch <;> simp [flagsMask, PTE_U, PTE_V]
  · intro hf
    exact (((hf.adds.and (flagsMask arch)).flagsInt).or .valid).within hx

/-- A copy on write adds the right to write. -/
theorem Within.cowWrite {pte : Pte} {pa : Nat} (h : Within arch prot pte) (hv : pte.valid = true)
    (hw : hasBits prot PROT_WRITE = true) {b : Nat} (hb : canExec .riscv b = false)
    (hu : Bits.has b (PTE_U arch) = false) :
    Within arch prot ⟨pa, PTE_FLAGS arch pte ||| b ||| PTE_V⟩ := by
  refine h.mono hv ?_ ?_
  · simp only [Bits.has_or, hu, Bool.or_false]
    cases arch <;> simp [PTE_FLAGS, flagsMask, PTE_U, PTE_V]
  · intro hf
    refine FlagsWithin.or (FlagsWithin.or ?_ ⟨fun _ => hw, ?_⟩) .valid
    · refine ⟨fun _ => hw, fun hx => hf.exec ?_⟩
      revert hx
      cases arch <;> simp [canExec, PTE_FLAGS, flagsMask, PTE_X, PTE_NX]
    · rintro rfl hx
      rw [hb] at hx
      cases hx

end Perms

/-! ## Pages -/

/-- Leaf entries change only in the pages of `P`, and stay within the protection there. -/
def Keeps (arch : Arch) (prot : Int) (P : Nat → Prop) (leaf leaf' : Nat → Pte) : Prop :=
  ∀ vpn, leaf' vpn = leaf vpn ∨ (P vpn ∧ (Within arch prot (leaf vpn) → Within arch prot (leaf' vpn)))

namespace Keeps

variable {P Q : Nat → Prop} {leaf leaf₁ leaf₂ : Nat → Pte}

theorem refl : Keeps arch prot P leaf leaf := fun _ => .inl rfl

theorem trans (h₁ : Keeps arch prot P leaf leaf₁) (h₂ : Keeps arch prot P leaf₁ leaf₂) :
    Keeps arch prot P leaf leaf₂ := by
  intro vpn
  rcases h₁ vpn with h₁ | ⟨hp, h₁⟩
  · rw [← h₁]
    exact h₂ vpn
  · rcases h₂ vpn with h₂ | ⟨-, h₂⟩
    · rw [h₂]
      exact .inr ⟨hp, h₁⟩
    · exact .inr ⟨hp, fun h => h₂ (h₁ h)⟩

theorem mono (h : Keeps arch prot P leaf leaf₁) (hPQ : ∀ vpn, P vpn → Q vpn) :
    Keeps arch prot Q leaf leaf₁ :=
  fun vpn => (h vpn).imp_right (And.imp_left (hPQ vpn))

/-- One entry is replaced. -/
theorem update {vpn : Nat} {pte : Pte} (hp : P vpn) (h : Within arch prot (leaf vpn) → Within arch prot pte) :
    Keeps arch prot P leaf (update leaf vpn pte) := by
  intro vpn'
  by_cases heq : vpn' = vpn
  · subst heq
    rw [update_self]
    exact .inr ⟨hp, h⟩
  · exact .inl (update_of_ne heq _ _)

/-- Pages outside `P` are as before. -/
theorem outside (h : Keeps arch prot P leaf leaf₁) {vpn : Nat} (hp : ¬P vpn) :
    leaf₁ vpn = leaf vpn :=
  (h vpn).resolve_right fun h => hp h.1

theorem within (h : Keeps arch prot P leaf leaf₁) {vpn : Nat} (hw : Within arch prot (leaf vpn)) :
    Within arch prot (leaf₁ vpn) := by
  rcases h vpn with h | ⟨-, h⟩
  · rwa [h]
  · exact h hw

end Keeps

namespace Leaf

variable {leaf leaf' : Nat → Pte} {va pa len end_ n current : Nat} {r : Int}

/-- What `mappages` does to the entries: those of the pages from `lo` to `hi` that are not valid get
the flags. -/
def Mapped (perm lo hi : Nat) (leaf leaf' : Nat → Pte) : Prop :=
  ∀ vpn, leaf' vpn = leaf vpn ∨
    ((leaf vpn).valid = false ∧ (leaf' vpn).flags = perm ||| PTE_V ∧ lo ≤ vpn ∧ vpn ≤ hi)

theorem maxva_lt (arch : Arch) : MAXVA arch < 2 ^ 63 := by
  cases arch <;> decide

theorem mappagesLoop_mapped {k e : Nat} (hle : k ≤ e)
    (h : mappagesLoop arch perm (e * PGSIZE) n (k * PGSIZE) pa leaf = some (r, leaf')) :
    Mapped perm k e leaf leaf' := by
  induction n generalizing k pa leaf with
  | zero => cases h
  | succ n ih =>
    have hmax := maxva_lt arch
    rw [mappagesLoop, Nat.mul_div_cancel _ (by decide : 0 < PGSIZE)] at h
    split at h
    · cases h
    rename_i hlt
    split at h
    · cases h
      exact fun _ => .inl rfl
    rename_i hvalid
    have hone : Mapped perm k e leaf (update leaf k ⟨pa, perm ||| PTE_V⟩) := by
      intro vpn
      by_cases heq : vpn = k
      · subst heq
        rw [update_self]
        exact .inr ⟨by simpa using hvalid, rfl, le_rfl, hle⟩
      · exact .inl (update_of_ne heq _ _)
    dsimp only at h
    split at h
    · cases h
      exact hone
    rename_i hend
    have hne : k ≠ e := fun heq => hend (heq ▸ rfl)
    have hnext : add64 (k * PGSIZE) PGSIZE = (k + 1) * PGSIZE := by
      simp only [add64, PGSIZE] at *
      omega
    rw [hnext] at h
    intro vpn
    rcases ih (by omega) h vpn with hkeep | ⟨hv, hf, hlo, hhi⟩
    · rw [hkeep]
      exact hone vpn
    · rw [update_of_ne (by omega)] at hv
      exact .inr ⟨hv, hf, by omega, hhi⟩

/-- The pages that a call can map, by their numbers. -/
theorem mappages_mapped (hlen : 0 < len) (hlt : va + len ≤ 2 ^ 64)
    (h : mappages arch va pa len perm leaf = some (r, leaf')) :
    Mapped perm (va / PGSIZE) ((va + len - 1) / PGSIZE) leaf leaf' := by
  unfold mappages at h
  split at h
  · cases h
  rename_i hmax
  have hva : va < 2 ^ 63 := by
    have := maxva_lt arch
    omega
  have hlast : sub64 (add64 va len) 1 = va + len - 1 := by
    simp only [sub64, add64]
    omega
  rw [hlast] at h
  exact mappagesLoop_mapped (Nat.div_le_div_right (by omega)) h

theorem mappages_page (hal : va % PGSIZE = 0) (h : mappages arch va pa PGSIZE perm leaf = some (r, leaf')) :
    Mapped perm (va / PGSIZE) (va / PGSIZE) leaf leaf' := by
  have hva : va < MAXVA arch := by
    by_contra hge
    rw [mappages, if_pos (.inl (not_lt.mp hge))] at h
    cases h
  have hmax := maxva_lt arch
  have hlast : (va + PGSIZE - 1) / PGSIZE = va / PGSIZE := by
    simp only [PGSIZE] at *
    omega
  have hmapped := mappages_mapped (by decide) (by simp only [PGSIZE]; omega) h
  rwa [hlast] at hmapped

/-- Mapping adds what the flags grant. -/
theorem Mapped.keeps {lo hi : Nat} (h : Mapped perm lo hi leaf leaf')
    (hf : FlagsWithin arch prot (perm ||| PTE_V)) :
    Keeps arch prot (fun vpn => lo ≤ vpn ∧ vpn ≤ hi) leaf leaf' := by
  intro vpn
  rcases h vpn with h | ⟨-, hflags, hlo, hhi⟩
  · exact .inl h
  · exact .inr ⟨⟨hlo, hhi⟩, fun _ => .of_flags (by rwa [hflags])⟩

end Leaf

end SC7
