-- SUMMARY: Runs of `mmap`, `mprotect`, `fork` and page faults: the rights of user pages stay within the protections.
import SC7.Mem.SpaceFork

/-!
# Runs of address spaces

Every process keeps a sound address space, as long as each call and each fault meets its condition.
-/

namespace SC7

open Function (update)

variable {arch : Arch}

/-- The condition of a call or a fault, in the space of the process. -/
def SpaceOp.Meets (arch : Arch) (t : Space) : SpaceOp → Prop
  | .mmap env start len prot flags fd _ =>
    Space.mmapError len flags (Space.mmapFd flags fd) t = none →
      Space.MmapMeets arch env start len prot flags (Space.mmapFd flags fd) t
  | .mprotect start len prot => Space.MprotectMeets start len prot t
  | .fork .. => Space.ForkMeets arch t.toMm
  | .fault _ access addr => Space.FaultMeets arch access addr t

namespace Spaces

variable {s s₀ s' : Spaces}

/-- Some process makes a call or takes a fault, and the kernel comes back from it. -/
def Step (arch : Arch) (meets : Space → SpaceOp → Prop) (s s' : Spaces) : Prop :=
  ∃ pid supply op, meets (s.space pid supply) op ∧ s.step arch pid supply op = some s'

/-- Nothing is mapped: of the areas of `mmap` there is only the empty one that `vma_init` makes. -/
def Start (s : Spaces) : Prop := ∀ pid, ∀ v ∈ (s.mm pid).vmas, v.Mapping → v.end_ ≤ v.addr ∧ v.perm = 0

def Sound (arch : Arch) (s : Spaces) : Prop := ∀ pid, SC7.Sound arch (s.mm pid)

theorem Start.sound (h : s.Start) : s.Sound arch := by
  intro pid
  constructor
  · intro v hv hmapping vpn hp
    have hempty := (h pid v hv hmapping).1
    have := hp.1
    have := hp.2
    omega
  · intro v hv hmapping
    rw [(h pid v hv hmapping).2]
    exact .of_none (by cases arch <;> rfl) (by rintro rfl; rfl)

theorem put_sound {pid : Nat} {t : Space} (h : s.Sound arch) (ht : SC7.Sound arch t.toMm) :
    (s.put pid t).Sound arch := by
  intro q
  by_cases heq : q = pid
  · subst heq
    simpa [put] using ht
  · simpa [put, heq] using h q

theorem step_sound (h : s.Sound arch) (hstep : Step arch (SpaceOp.Meets arch) s s') : s'.Sound arch := by
  obtain ⟨pid, supply, op, hmeets, hop⟩ := hstep
  have hs : SC7.Sound arch (s.space pid supply).toMm := h pid
  cases op with
  | mmap env start len prot flags fd offset =>
    obtain ⟨⟨r, t⟩, hcall, rfl⟩ := Option.map_eq_some_iff.mp hop
    exact put_sound h (Space.mmap_sound hs hmeets hcall)
  | mprotect start len prot =>
    obtain ⟨⟨r, t⟩, hcall, rfl⟩ := Option.map_eq_some_iff.mp hop
    exact put_sound h (Space.sysMprotect_sound hs hmeets hcall)
  | fork np trampoline trapframe sigtrampoline =>
    obtain ⟨⟨child, t⟩, hcall, rfl⟩ := Option.map_eq_some_iff.mp hop
    obtain ⟨hchild, hparent⟩ := Space.fork_sound hs hmeets hcall
    have hput : (s.put pid t).Sound arch := put_sound h (hparent ▸ hs)
    intro q
    by_cases heq : q = np
    · subst heq
      simpa using hchild
    · have hq : update (update s.mm pid t.toMm) np child q = (s.put pid t).mm q :=
        Function.update_of_ne heq ..
      have hother := hput q
      rwa [← hq] at hother
  | fault env access addr =>
    obtain ⟨⟨o, t⟩, hcall, rfl⟩ := Option.map_eq_some_iff.mp hop
    exact put_sound h (Space.usertrapFault_sound hs hmeets hcall).1

/-- The area that `vma_init` makes. -/
def emptyArea : Vma := VmaMem.initVma Vma.zero .MMAP USER_MMAP_START USER_MMAP_START 0 0

/-- Processes that have mapped nothing yet. -/
def idle : Spaces where
  mm _ := ⟨[emptyArea], fun _ => Pte.zero, 0, 0, fun _ => none⟩
  kern := ⟨fun _ => ⟨0, 0, 0, false, none, NULL⟩, USER_MMAP_START, fun _ => NULL, [], 0, 2 ^ 32⟩

theorem idle_start : idle.Start := by
  intro pid v hv _
  rw [List.mem_singleton.mp hv]
  exact ⟨le_rfl, rfl⟩

/-- No file is involved. -/
def noFile : FileEnv := ⟨0, 0, 0, fun _ => 0⟩

/-- `mmap(0x20000000, 4096, PROT_READ, MAP_PRIVATE | MAP_ANONYMOUS, -1, 0)`. -/
def readOnly : SpaceOp := .mmap noFile 0x20000000 4096 1 0x22 (-1) 0

/-- The pages that the allocator hands out. -/
def pages (n : Nat) : Nat := (n + 1) * PGSIZE

def mapped : Spaces := (idle.step .riscv 0 pages readOnly).getD idle

theorem step_mapped : idle.step .riscv 0 pages readOnly = some mapped := by
  have hsome : (idle.step .riscv 0 pages readOnly).isSome = true := rfl
  obtain ⟨t, ht⟩ := Option.isSome_iff_exists.mp hsome
  rw [mapped, ht, Option.getD_some]

theorem readOnly_meets : readOnly.Meets .riscv (idle.space 0 pages) := by
  have hempty : ∀ v ∈ (idle.space 0 pages).vmas, ∀ vpn, ¬v.HasPage vpn := by
    intro v hv vpn hp
    rw [List.mem_singleton.mp hv] at hp
    exact absurd (hp.1.trans_lt hp.2) (lt_irrefl _)
  intro _
  constructor
  · decide
  · decide
  · decide
  · decide
  · exact fun _ v hv vpn hp => absurd hp (hempty v hv vpn)
  · exact fun hfixed => absurd hfixed (by decide)
  · exact fun _ _ _ _ => .zero
  · nofun
  · nofun
  · exact fun hshared => absurd hshared (by decide)

theorem idle_mapped : Reaches (Step .riscv (SpaceOp.Meets .riscv)) idle mapped :=
  .single ⟨0, pages, readOnly, readOnly_meets, step_mapped⟩

/-- The process stores to its page. -/
def storeFault : SpaceOp := .fault noFile .store 0x20000000

def stored : Spaces := (mapped.step .riscv 0 pages storeFault).getD mapped

theorem step_stored : mapped.step .riscv 0 pages storeFault = some stored := by
  have hsome : (mapped.step .riscv 0 pages storeFault).isSome = true := rfl
  obtain ⟨t, ht⟩ := Option.isSome_iff_exists.mp hsome
  rw [stored, ht, Option.getD_some]

/-- The area of the page. -/
def readArea : Vma :=
  { VmaMem.initVma Vma.zero .MMAP 0x20000000 0x20001000 4096 (getMmapperms .riscv 1) with origProt := 1 }

end Spaces

end SC7
