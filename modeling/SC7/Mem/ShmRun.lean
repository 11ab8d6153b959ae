-- SUMMARY: Runs of `mmap`, `shmat`, `munmap`, `fork` and page faults: the pages of shared mappings stay together.
import SC7.Mem.Shmat
import SC7.Mem.SpaceRun

/-!
# Runs with shared mappings

`fork` and the fault handler count the pages of a shared mapping from the start of its area, and
`munmap` moves that start when it cuts off the front. In every run that never does so, and that
attaches segments where nothing is mapped, all processes see the same pages at the same places.
-/

namespace SC7

open Function (update update_of_ne update_self)

variable {arch : Arch}

/-- The operations of a history: `mmap` makes a shared mapping, and the length of `munmap` is an
`int`. -/
def ShmOp.Ordinary : ShmOp → Prop
  | .mmap _ _ _ _ flags _ _ => Bits.has flags MAP_SHARED = true
  | .munmap _ len => len < 2 ^ 31
  | _ => True

/-- The condition of an operation, in the space of the process. -/
def ShmOp.Meets (arch : Arch) (sharememStart : Int) (t : Space) : ShmOp → Prop
  | .mmap env start len _ flags fd _ =>
    Space.mmapError len flags (Space.mmapFd flags fd) t = none →
      Space.ShareMeets arch env start len flags (Space.mmapFd flags fd) t
  | .shmat shp perm shmaddr shmflg =>
    ¬Space.ShmatRefuses arch shp perm shmaddr shmflg t →
      Space.ShmatMeets arch (Space.shmatAddr shmaddr shmflg sharememStart) (toInt32 (t.shm shp).size) t
  | .munmap start len =>
    ∀ v ∈ t.vmas, Space.TakesShared v → Space.CutsBack (pgRoundDown start) (munmapEnd start len) v
  | _ => True

namespace ShmSpaces

variable {s s₀ s' : ShmSpaces} {pid : Nat} {t : Space}

/-- Some process makes a call or takes a fault, and the kernel comes back from it. -/
def Step (arch : Arch) (meets : Int → Space → ShmOp → Prop) (s s' : ShmSpaces) : Prop :=
  ∃ pid supply op, op.Ordinary ∧ (s.space pid supply).Supplies ∧
    meets s.sharememStart (s.space pid supply) op ∧ s.step arch pid supply op = some s'

/-- There are areas, but none of them is a shared mapping, and there is no segment. -/
structure Start (s : ShmSpaces) : Prop where
  sorted : ∀ pid, Vma.Sorted (s.mm pid).vmas
  aligned : ∀ pid, ∀ v ∈ (s.mm pid).vmas, v.addr % PGSIZE = 0 ∧ v.end_ % PGSIZE = 0
  unshared : ∀ pid, ∀ v ∈ (s.mm pid).vmas, ¬Space.TakesShared v
  segments : ∀ shp, (s.kern.shm shp).shmPages = none

/-- The place of a page in its segment: its distance from where the mapping was attached. -/
def place (s : ShmSpaces) (pid vpn : Nat) : Nat := (vpn * PGSIZE - s.origin pid vpn) / PGSIZE

/-- The shared mappings of all processes show the pages of their segments, each at its place; a fault
maps the page of its place, and `fork` hands on every mapped page. -/
structure Coherent (arch : Arch) (s : ShmSpaces) : Prop where
  mapped : ∀ pid, ∀ v ∈ (s.mm pid).vmas, Space.TakesShared v → ∀ vpn, v.HasPage vpn →
    ((s.mm pid).leaf vpn).valid = true →
      ((s.mm pid).leaf vpn).pa = segPage s.kern.shm v.shmKernel (s.place pid vpn)
  fault : ∀ pid supply env access addr t,
    Space.usertrapFault arch env access addr (s.space pid supply) = some (.resumed, t) →
      ∀ v ∈ (s.mm pid).vmas, Space.TakesShared v → v.Has addr →
        (t.leaf (addr / PGSIZE)).valid = true ∧
          (t.leaf (addr / PGSIZE)).pa = segPage t.shm v.shmKernel (s.place pid (addr / PGSIZE))
  fork : ∀ pid supply trampoline trapframe sigtrampoline child t,
    Space.fork arch trampoline trapframe sigtrampoline (s.space pid supply) = some (child, t) →
      ∀ v ∈ (s.mm pid).vmas, Space.TakesShared v → ∀ vpn, v.HasPage vpn →
        ((s.mm pid).leaf vpn).valid = true →
          (child.leaf vpn).valid = true ∧ (child.leaf vpn).pa = ((s.mm pid).leaf vpn).pa
  agree : ∀ pid qid, ∀ v ∈ (s.mm pid).vmas, Space.TakesShared v → ∀ w ∈ (s.mm qid).vmas,
    Space.TakesShared w → v.shmKernel = w.shmKernel → ∀ vpn wpn, v.HasPage vpn → w.HasPage wpn →
      s.place pid vpn = s.place qid wpn → ((s.mm pid).leaf vpn).valid = true →
        ((s.mm qid).leaf wpn).valid = true → ((s.mm pid).leaf vpn).pa = ((s.mm qid).leaf wpn).pa

/-- What every step keeps. -/
structure Inv (arch : Arch) (s : ShmSpaces) : Prop where
  shares : ∀ pid, Shares arch s.kern.shm (s.origin pid) (s.mm pid)
  made : ∀ shp, (s.kern.shm shp).shmPages.isSome = true → SegMade (s.kern.shm shp)

theorem Start.inv (h : s.Start) : s.Inv arch where
  shares pid :=
    { sorted := h.sorted pid
      aligned := h.aligned pid
      shared := fun v hv hsh => absurd hsh (h.unshared pid v hv) }
  made shp hsome := by
    rw [h.segments shp] at hsome
    cases hsome

/-- The space of one process is written back. -/
theorem Inv.put {origin : Nat → Nat} {next : Int} (h : s.Inv arch)
    (ht : Shares arch t.shm origin t.toMm) (hkept : ShmKept s.kern.shm t.shm) :
    ShmSpaces.Inv arch
      { toSpaces := s.put pid t, sharememStart := next, origin := update s.origin pid origin } where
  shares q := by
    by_cases heq : q = pid
    · subst heq
      simpa [Spaces.put] using ht
    · simpa [Spaces.put, heq] using (h.shares q).kept hkept
  made := hkept.made h.made

/-- The same for an operation that attaches nothing. -/
theorem Inv.put_same (h : s.Inv arch)
    (ht : Shares arch t.shm (s.origin pid) t.toMm) (hkept : ShmKept s.kern.shm t.shm) :
    ShmSpaces.Inv arch { s with toSpaces := s.put pid t } := by
  have hput : ShmSpaces.Inv arch
      { s with toSpaces := s.put pid t, origin := update s.origin pid (s.origin pid) } := h.put ht hkept
  rwa [Function.update_eq_self] at hput

theorem step_inv (h : s.Inv arch) (hstep : Step arch (ShmOp.Meets arch) s s') : s'.Inv arch := by
  obtain ⟨pid, supply, op, hop, hsupply, hmeets, hcall⟩ := hstep
  have hs : Shares arch (s.space pid supply).shm (s.origin pid) (s.space pid supply).toMm := h.shares pid
  cases op with
  | mmap env start len prot flags fd offset =>
    obtain ⟨⟨r, t⟩, hmap, rfl⟩ := Option.map_eq_some_iff.mp hcall
    obtain ⟨ht, hkept⟩ := Space.mmap_shares hs hsupply hop hmeets hmap
    exact h.put ht hkept
  | shmget size =>
    cases hcall
    cases hseg : Space.newseg (toInt32 size) (s.space pid supply) with
    | none => exact h
    | some p =>
      obtain ⟨shp, t⟩ := p
      obtain ⟨-, -, hmm, -, -⟩ := Space.newseg_spec hseg
      have hkept := Space.newseg_kept hsupply Space.toInt32_ge Space.toInt32_lt hseg
      refine h.put_same ?_ hkept
      rw [hmm]
      exact hs.kept hkept
  | shmat shp perm shmaddr shmflg =>
    obtain ⟨⟨r, next, t⟩, hat, rfl⟩ := Option.map_eq_some_iff.mp hcall
    obtain ⟨ht, hkept⟩ := Space.sysShmat_shares hs hsupply h.made hmeets hat
    exact h.put ht hkept
  | munmap start len =>
    obtain ⟨⟨r, t⟩, hunmap, rfl⟩ := Option.map_eq_some_iff.mp hcall
    obtain ⟨ht, hsame, -⟩ := Space.munmap_shares hs hop hmeets hunmap
    exact h.put_same ht hsame.kept
  | fork np trampoline trapframe sigtrampoline =>
    obtain ⟨⟨child, t⟩, hfork, rfl⟩ := Option.map_eq_some_iff.mp hcall
    obtain ⟨hparent, hkept, hchild, -⟩ := Space.fork_shares hs hfork
    refine ⟨fun q => ?_, hkept.made h.made⟩
    dsimp only
    by_cases hnp : q = np
    · rw [hnp, update_self, update_self]
      exact hchild
    rw [update_of_ne hnp, update_of_ne hnp]
    by_cases hpid : q = pid
    · rw [hpid, update_self, hparent]
      exact hs.kept hkept
    · rw [update_of_ne hpid]
      exact (h.shares q).kept hkept
  | fault env access addr =>
    obtain ⟨⟨o, t⟩, hfault, rfl⟩ := Option.map_eq_some_iff.mp hcall
    obtain ⟨ht, hkept⟩ := Space.usertrapFault_shares hs hfault
    exact h.put_same ht hkept

theorem Inv.coherent (h : s.Inv arch) : s.Coherent arch := by
  -- the place of a page is its distance from the start of its area
  have hplace : ∀ pid, ∀ v ∈ (s.mm pid).vmas, Space.TakesShared v → ∀ vpn, v.HasPage vpn →
      s.place pid vpn = vpn - v.addr / PGSIZE := by
    intro pid v hv hsh vpn hp
    rw [place, ((h.shares pid).shared v hv hsh).origin vpn hp]
    have hal := ((h.shares pid).aligned v hv).1
    simp only [PGSIZE] at *
    omega
  have hmapped : ∀ pid, ∀ v ∈ (s.mm pid).vmas, Space.TakesShared v → ∀ vpn, v.HasPage vpn →
      ((s.mm pid).leaf vpn).valid = true →
        ((s.mm pid).leaf vpn).pa = segPage s.kern.shm v.shmKernel (s.place pid vpn) := by
    intro pid v hv hsh vpn hp hvalid
    rw [hplace pid v hv hsh vpn hp]
    exact (((h.shares pid).shared v hv hsh).backed vpn hp hvalid).1.symm
  constructor
  · exact hmapped
  · intro pid supply env access addr t hfault v hv hsh ha
    have hs : Shares arch (s.space pid supply).shm (s.origin pid) (s.space pid supply).toMm := h.shares pid
    have hhandler := Space.usertrapFault_resumed hfault
    obtain ⟨ht, -, hvalid⟩ := Space.pagefaultHandler_shares hs hhandler
    have hp : v.HasPage (addr / PGSIZE) := (Space.has_page (hs.aligned v hv)).mpr ha
    have hvt : v ∈ t.vmas := by
      rw [(Space.pagefaultHandler_outside hhandler).1]
      exact hv
    have hpage := hvalid rfl v hv hsh ha
    refine ⟨hpage, ?_⟩
    rw [hplace pid v hv hsh _ hp]
    exact ((ht.shared v hvt hsh).backed _ hp hpage).1.symm
  · intro pid supply trampoline trapframe sigtrampoline child t hfork
    obtain ⟨-, -, -, hchild⟩ := Space.fork_shares (h.shares pid) hfork
    exact hchild
  · intro pid qid v hv hvsh w hw hwsh hseg vpn wpn hvp hwp heq hvv hwv
    rw [hmapped pid v hv hvsh vpn hvp hvv, hmapped qid w hw hwsh wpn hwp hwv, hseg, heq]

/-- No process has mapped anything yet. -/
def idle : ShmSpaces where
  toSpaces := Spaces.idle
  sharememStart := 0
  origin _ _ := 0

theorem idle_empty {v : Vma} (hv : v ∈ (idle.mm pid).vmas) : v = Spaces.emptyArea := List.mem_singleton.mp hv

theorem idle_start : idle.Start where
  sorted _ := ⟨List.pairwise_singleton _ _, fun v hv => by
    rw [idle_empty hv]
    exact ⟨by decide, by decide, by decide⟩⟩
  aligned _ v hv := by
    rw [idle_empty hv]
    decide
  unshared _ v hv := by
    rw [idle_empty hv]
    rintro ⟨htype, -⟩
    cases htype
  segments _ := rfl

/-- The allocator hands out these pages, and then it has none. -/
def handsOut (L : List Nat) (n : Nat) : Nat := L.getD n NULL

theorem handsOut_supplies {L : List Nat} (h : ∀ a ∈ NULL :: L, (s.kern.shm a).shmPages = none ∧ a < 2 ^ 63) :
    (s.space pid (handsOut L)).Supplies := by
  have hmem : ∀ n, handsOut L n ∈ NULL :: L := by
    intro n
    unfold handsOut
    rcases lt_or_ge n L.length with hlt | hge
    · rw [List.getD_eq_getElem _ _ hlt]
      exact List.mem_cons_of_mem _ (List.getElem_mem hlt)
    · rw [List.getD_eq_default _ _ hge]
      exact List.mem_cons_self
  exact ⟨fun n => (h _ (hmem n)).1, fun n => (h _ (hmem n)).2⟩

/-- `mmap(0x20000000, 8192, PROT_READ | PROT_WRITE, MAP_SHARED | MAP_ANONYMOUS, -1, 0)`. -/
def mapTwo : ShmOp := .mmap Spaces.noFile 0x20000000 8192 3 0x21 (-1) 0

def pages : List Nat := [0x1000, 0x2000, 0x3000, 0x4000, 0x5000]

def mapped : ShmSpaces := (idle.step .riscv 0 (handsOut pages) mapTwo).getD idle

theorem step_mapped : idle.step .riscv 0 (handsOut pages) mapTwo = some mapped := by
  have hsome : (idle.step .riscv 0 (handsOut pages) mapTwo).isSome = true := rfl
  obtain ⟨t, ht⟩ := Option.isSome_iff_exists.mp hsome
  rw [mapped, ht, Option.getD_some]

theorem mapTwo_meets : mapTwo.Meets .riscv 0 (idle.space 0 (handsOut pages)) := by
  intro _
  constructor
  · decide
  · decide
  · decide
  · decide
  · exact fun hfixed => absurd hfixed (by decide)
  · intro _ v hv vpn _ hp
    have hempty : v = Spaces.emptyArea := List.mem_singleton.mp hv
    rw [hempty] at hp
    exact absurd (hp.1.trans_lt hp.2) (lt_irrefl _)
  · exact fun hfixed => absurd hfixed (by decide)
  · exact fun hfixed => absurd hfixed (by decide)
  · exact fun _ _ _ => (rfl : Pte.zero.valid = false)
  · intro vpn hp
    have hrange : 0x20000000 ≤ vpn * PGSIZE ∧ vpn * PGSIZE < 0x20002000 := hp
    have htwo : vpn = 0x20000 ∨ vpn = 0x20001 := by
      simp only [PGSIZE] at hrange
      omega
    rcases htwo with rfl | rfl <;> decide
  · decide
  · nofun
  · exact fun hfd => absurd rfl hfd

theorem mapped_step (meets : Int → Space → ShmOp → Prop)
    (h : meets 0 (idle.space 0 (handsOut pages)) mapTwo) : Step .riscv meets idle mapped :=
  ⟨0, handsOut pages, mapTwo, (by decide : Bits.has 0x21 MAP_SHARED = true), handsOut_supplies (by decide), h, step_mapped⟩

/-- The process gives the second page back. -/
def cutBack : ShmOp := .munmap 0x20001000 4096

def shorter : ShmSpaces := (mapped.step .riscv 0 (handsOut [0x6000]) cutBack).getD idle

theorem step_shorter : mapped.step .riscv 0 (handsOut [0x6000]) cutBack = some shorter := by
  have hsome : (mapped.step .riscv 0 (handsOut [0x6000]) cutBack).isSome = true := rfl
  obtain ⟨t, ht⟩ := Option.isSome_iff_exists.mp hsome
  rw [shorter, ht, Option.getD_some]

/-- The area of the mapping. -/
def twoPages : Vma :=
  { VmaMem.initVma Vma.zero .SHARE 0x20000000 0x20002000 8192 (getMmapperms .riscv 3) with
    origProt := 3, shmKernel := 0x2000 }

theorem mapped_vmas : (mapped.mm 0).vmas = [twoPages, Spaces.emptyArea] := by decide

theorem cutBack_meets : cutBack.Meets .riscv 0 (mapped.space 0 (handsOut [0x6000])) := by
  intro v hv _
  have hmem : v ∈ [twoPages, Spaces.emptyArea] := mapped_vmas ▸ hv
  have hcut : ∀ w ∈ [twoPages, Spaces.emptyArea],
      Space.CutsBack (pgRoundDown 0x20001000) (munmapEnd 0x20001000 4096) w := by decide
  exact hcut v hmem

/-- One page is left. -/
def onePage : Vma := { twoPages with end_ := 0x20001000, size := 4096 }

theorem idle_shorter : Reaches (Step .riscv (ShmOp.Meets .riscv)) idle shorter :=
  .tail (.single (mapped_step _ mapTwo_meets))
    ⟨0, handsOut [0x6000], cutBack, (by decide : (4096 : Int) < 2 ^ 31), handsOut_supplies (by decide), cutBack_meets, step_shorter⟩

/-- The process gives the first page back instead. -/
def cutFront : ShmOp := .munmap 0x20000000 4096

def moved : ShmSpaces := (mapped.step .riscv 0 (handsOut [0x6000]) cutFront).getD idle

theorem step_moved : mapped.step .riscv 0 (handsOut [0x6000]) cutFront = some moved := by
  have hsome : (mapped.step .riscv 0 (handsOut [0x6000]) cutFront).isSome = true := rfl
  obtain ⟨t, ht⟩ := Option.isSome_iff_exists.mp hsome
  rw [moved, ht, Option.getD_some]

/-- What is left starts at the second page. -/
def secondPage : Vma := { twoPages with addr := 0x20001000, size := 4096, fOff := 4096 }

/-- The child of the process, and the space after `fork`. -/
def forked : Option (Mm × Space) := Space.fork .riscv 0x90000000 0x91000000 0x92000000
    (moved.space 0 (handsOut [0x7000, 0x8000, 0x9000, 0xa000, 0xb000, 0xc000]))

end ShmSpaces

end SC7
