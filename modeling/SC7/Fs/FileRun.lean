-- SUMMARY: The mappings of files, and runs: `f_count` stays the number of references while the slips are avoided.
import SC7.Fs.FileRefs

/-!
# Mappings, and runs of file calls

A mapping takes its reference at the end of `mmap`, and nothing ever drops it:
`munmap` keeps the count right only where it neither removes a VMA nor splits
it. The last part puts the calls together.
-/

namespace SC7.Files

open Function (update)
open Tally (one one_none one_nonneg one_self one_of_ne)

variable {s s' : State} {p : Slot} {pr pr' : Proc} {f g : FileId} {fd : Fin NOFILE}

/-! ## Unmapping -/

section Unmapping

variable {lo hi start end_ : Nat} {len : Int} {a : Area} {areas todo : List Area}

/-- `munmap` of `[lo, hi)` leaves one part of the VMA: it does not meet the range, loses one end, or
is covered but attached more than once. -/
def Area.Survives (lo hi : Nat) (a : Area) : Prop :=
  a.end_ ≤ lo ∨ hi < a.addr ∨ (lo ≤ a.addr ∧ hi < a.end_) ∨ (a.addr < lo ∧ a.end_ ≤ hi) ∨
    (lo ≤ a.addr ∧ a.end_ ≤ hi ∧ 1 < a.refCount)

/-- Every VMA that maps a file survives. -/
def Spared (start : Nat) (len : Int) (areas : List Area) : Prop :=
  0 < len → ∀ a ∈ areas, a.file ≠ none → a.Survives (unmapRange start len).1 (unmapRange start len).2

/-- So they do at each `munmap` in the loop of `MAP_FIXED`. -/
def SparedFixed (start end_ : Nat) : List Area → List Area → Prop
  | [], _ => True
  | a :: todo, areas =>
    if a.end_ > start ∧ a.addr < end_ ∧ min a.end_ end_ > max a.addr start then
      Spared (overlap start end_ a).1 (overlap start end_ a).2 areas ∧
        SparedFixed start end_ todo (munmapAreas (overlap start end_ a).1 (overlap start end_ a).2 areas)
    else SparedFixed start end_ todo areas

/-- The parts of a VMA map what it mapped. -/
theorem unmapArea_file {b : Area} (hb : b ∈ unmapArea lo hi a) : b.file = a.file := by
  rw [unmapArea] at hb
  split at hb
  · split at hb
    · split at hb
      · rw [List.mem_singleton.mp hb]
      · cases hb
    · rcases List.mem_append.mp hb with hleft | hright
      · split at hleft
        · rw [List.mem_singleton.mp hleft]
        · cases hleft
      · split at hright
        · rw [List.mem_singleton.mp hright]
        · cases hright
  · rw [List.mem_singleton.mp hb]

theorem Area.Survives.one_part (h : a.Survives lo hi) : ∃ b, unmapArea lo hi a = [b] := by
  rw [unmapArea]
  split
  · rename_i hmeets
    split
    · rename_i hcovered
      rcases h with h | h | h | h | h
      · omega
      · omega
      · omega
      · omega
      · rw [if_pos h.2.2]
        exact ⟨_, rfl⟩
    · rename_i hpart
      rcases h with h | h | h | h | h
      · omega
      · omega
      · rw [if_neg (by omega), if_pos h.2]
        exact ⟨_, rfl⟩
      · rw [if_pos h.1, if_neg (by omega)]
        exact ⟨_, rfl⟩
      · exact absurd ⟨h.1, h.2.1⟩ hpart
  · exact ⟨a, rfl⟩

theorem areaRefs_unmapArea (h : a.file ≠ none → a.Survives lo hi) :
    areaRefs (unmapArea lo hi a) f = one a.file f := by
  by_cases hfile : a.file = none
  · rw [areaRefs_eq_zero fun b hb => (unmapArea_file hb).trans hfile, hfile, one_none]
  · obtain ⟨b, hb⟩ := (h hfile).one_part
    have hsame : b.file = a.file := unmapArea_file (hb ▸ List.mem_singleton_self b)
    rw [hb, areaRefs_cons, hsame, areaRefs_nil, Int.add_zero]

theorem areaRefs_unmapAreas (h : ∀ a ∈ areas, a.file ≠ none → a.Survives lo hi) :
    areaRefs (unmapAreas lo hi areas) f = areaRefs areas f := by
  induction areas with
  | nil => rfl
  | cons a areas ih =>
    have hhead := areaRefs_unmapArea (f := f) (h a (List.mem_cons_self ..))
    have htail := ih fun b hb => h b (List.mem_cons_of_mem _ hb)
    rw [unmapAreas] at htail ⊢
    rw [List.flatMap_cons, areaRefs_append, areaRefs_cons, hhead, htail]

theorem areaRefs_munmapAreas (h : Spared start len areas) :
    areaRefs (munmapAreas start len areas) f = areaRefs areas f := by
  rw [munmapAreas]
  split
  · rfl
  · rename_i hlen
    exact areaRefs_unmapAreas (h (by omega))

theorem areaRefs_unmapFixed (h : SparedFixed start end_ todo areas) :
    areaRefs (unmapFixed start end_ todo areas) f = areaRefs areas f := by
  induction todo generalizing areas with
  | nil => rfl
  | cons a todo ih =>
    rw [SparedFixed] at h
    rw [unmapFixed]
    split at h
    · rename_i hoverlap
      rw [if_pos hoverlap, ih h.2, areaRefs_munmapAreas h.1]
    · rename_i hoverlap
      rw [if_neg hoverlap, ih h]

end Unmapping

/-- The VMAs of a process change and so does the count of one file. -/
theorem State.Counted.remap (h : s.Counted) (hp : s.proc p = some pr) (mapped : Option FileId)
    {areas : List Area} {count : FileId → Int}
    (hareas : ∀ g, areaRefs areas g = areaRefs pr.areas g + one mapped g)
    (hcount : ∀ g, count g = s.count g + one mapped g) :
    ({ s.put p { pr with areas } with count } : State).Counted := by
  intro g
  have hput : (s.put p { pr with areas }).refs g = s.refs g - pr.refs g + ({ pr with areas } : Proc).refs g :=
    refs_put hp
  have hnew : ({ pr with areas } : Proc).refs g = pr.refs g - areaRefs pr.areas g + areaRefs areas g :=
    refs_areas
  change count g = (s.put p { pr with areas }).refs g
  rw [hput, hnew, hareas, hcount, h g]
  omega

theorem munmap_counted (h : s.Counted) (hp : s.proc p = some pr) {start : Nat} {len : Int}
    (hm : Spared start len pr.areas) : ∃ r s', munmap p pr start len s = some (r, s') ∧ s'.Counted := by
  rw [munmap]
  split
  · exact ⟨_, s, rfl, h⟩
  · refine ⟨_, _, rfl, h.remap hp none (fun g => ?_) fun g => ?_⟩
    · rw [areaRefs_munmapAreas hm, one_none, Int.add_zero]
    · rw [one_none, Int.add_zero]

/-! ## Mapping -/

section Mapping

variable {args : MmapArgs} {lo hi : Nat} {before rest l l' : List Area} {a : Area}

/-- The place is one in the list. -/
theorem findSlot_new (h : findSlot lo hi before rest = some (.inl (l, l'))) : l ++ l' = before ++ rest := by
  induction rest generalizing before with
  | nil =>
    cases h
    rfl
  | cons a rest ih =>
    rw [findSlot] at h
    split at h
    · cases h
      rfl
    split at h
    · rw [ih h, List.append_assoc, List.singleton_append]
    split at h
    · cases h
    · cases h

theorem findSlot_covering
    (h : findSlot lo hi before rest = some (.inr (l, a, l'))) : l ++ a :: l' = before ++ rest := by
  induction rest generalizing before with
  | nil => cases h
  | cons b rest ih =>
    rw [findSlot] at h
    split at h
    · cases h
    split at h
    · rw [ih h, List.append_assoc, List.singleton_append]
    split at h
    · cases h
      rfl
    · cases h

/-- A mapping of a file is by a descriptor, of some protection, and comes to its end; the VMAs of files
survive `MAP_FIXED`, and none of them is taken over for the new mapping. -/
structure MmapMeets (pr : Proc) (args : MmapArgs) : Prop where
  descriptor : args.ofFile → args.fd < NOFILE
  spared : args.error pr = none → Bits.has args.flags MAP_FIXED →
    SparedFixed args.start (toU64 (args.start + args.len)) pr.areas pr.areas
  fresh : args.error pr = none → ∀ l a l', args.found pr = some (.inr (l, a, l')) → a.file = none
  taken : args.error pr = none → args.ofFile → args.prot ≠ PROT_NONE ∧ args.late = none

@[simp] theorem filled_file : (args.filled pr a).file = args.mapped pr := rfl

theorem areaRefs_cleared (hm : MmapMeets pr args) (herror : args.error pr = none) :
    areaRefs (args.cleared pr) f = areaRefs pr.areas f := by
  rw [MmapArgs.cleared]
  split
  · rename_i hfixed
    exact areaRefs_unmapFixed (hm.spared herror hfixed)
  · rfl

theorem areaRefs_newAreas (hm : MmapMeets pr args) (herror : args.error pr = none) {areas : List Area}
    (hnew : args.newAreas pr = some areas) :
    areaRefs areas f = areaRefs pr.areas f + one (args.mapped pr) f := by
  obtain ⟨place, hfound, hplace⟩ := Option.map_eq_some_iff.mp hnew
  rw [← areaRefs_cleared hm herror]
  cases place with
  | inl place =>
    obtain ⟨l, l'⟩ := place
    subst hplace
    have hsplit := findSlot_new hfound
    rw [List.nil_append] at hsplit
    rw [← hsplit, areaRefs_append, areaRefs_append, areaRefs_cons, filled_file]
    omega
  | inr place =>
    obtain ⟨l, a, l'⟩ := place
    subst hplace
    have hsplit := findSlot_covering hfound
    rw [List.nil_append] at hsplit
    rw [← hsplit, areaRefs_append, areaRefs_append, areaRefs_cons, areaRefs_cons, filled_file,
      hm.fresh herror l a l' hfound, one_none]
    omega

/-- `mmap` returns unless `alloc_vma` panics. -/
theorem mmap_counted (h : s.Counted) (hp : s.proc p = some pr) (hm : MmapMeets pr args)
    (hfound : args.error pr = none → args.found pr ≠ none) :
    ∃ r s', mmap p pr args s = some (r, s') ∧ s'.Counted := by
  rw [mmap, if_neg fun hbad => absurd hbad.2 (Int.not_le.mpr (hm.descriptor hbad.1))]
  cases herror : args.error pr with
  | some e => exact ⟨_, s, rfl, h⟩
  | none =>
    obtain ⟨place, hplace⟩ := Option.ne_none_iff_exists'.mp (hfound herror)
    obtain ⟨areas, hnew⟩ : ∃ areas, args.newAreas pr = some areas := by
      rw [MmapArgs.newAreas, hplace]
      exact ⟨_, rfl⟩
    have hareas := fun g => areaRefs_newAreas (f := g) hm herror hnew
    dsimp only
    rw [hnew, Option.bind_some]
    cases hmapped : args.mapped pr with
    | none =>
      rw [hmapped] at hareas
      have hsame : (s.put p { pr with areas }).Counted :=
        h.remap hp none hareas fun g => by rw [one_none, Int.add_zero]
      dsimp only
      split
      · exact ⟨_, _, rfl, hsame⟩
      · cases args.late with
        | some e => exact ⟨_, _, rfl, hsame⟩
        | none => exact ⟨_, _, rfl, hsame⟩
    | some f =>
      have hof : args.ofFile = true := by
        by_contra hnot
        rw [MmapArgs.mapped, if_neg hnot] at hmapped
        cases hmapped
      obtain ⟨hprot, hlate⟩ := hm.taken herror hof
      rw [MmapArgs.mapped, if_pos hof] at hmapped
      obtain ⟨fd, -, hfd⟩ := slot_eq_some hmapped
      have hdup : (s.put p { pr with areas }).filedup f =
          some ((s.put p { pr with areas }).setCount f (s.count f + 1)) :=
        if_neg (Int.not_lt.mpr (h.pos hp hfd))
      dsimp only
      rw [if_neg hprot, hlate]
      dsimp only
      rw [hdup]
      refine ⟨_, _, rfl, h.remap hp (some f) (fun g => ?_) fun g => ?_⟩
      · rw [hareas, MmapArgs.mapped, if_pos hof, hmapped]
      · have hcount := count_add (s := s) (f := f) (g := g) (d := 1)
        rw [Int.one_mul] at hcount
        exact hcount

end Mapping

/-! ## Runs -/

section Runs

/-- `allocproc` gives a slot that is not in use. -/
def Op.Possible (s : State) : Op → Prop
  | .fork np => ∀ q, np = some q → s.proc q = none
  | _ => True

/-- The call does not come to a place where the code forgets a reference. -/
def Op.Meets (pr : Proc) (s : State) : Op → Prop
  | .openat path => OpenMeets pr s path
  | .dupfd fd cloexec arg => DupfdMeets pr fd cloexec arg
  | .fork np => np ≠ none → pr.NoFileAreas
  | .exit => pr.NoFileAreas
  | .mmap args => MmapMeets pr args
  | .munmap start len => Spared start len pr.areas
  | _ => True

/-- The only panic left: `alloc_vma` finds a VMA that overlaps the new one in part. -/
def Op.Placed (pr : Proc) : Op → Prop
  | .mmap args => args.error pr = none → args.found pr ≠ none
  | _ => True

/-- A live process makes a call, and the call returns. -/
def Step (meets : Proc → State → Op → Prop) (s s' : State) : Prop :=
  ∃ p pr op r, s.proc p = some pr ∧ op.Possible s ∧ meets pr s op ∧ call p pr s op = some (r, s')

/-- No file is open. -/
structure State.Start (s : State) : Prop where
  count : ∀ f, s.count f = 0
  ofile : ∀ p pr, s.proc p = some pr → ∀ fd, pr.ofile fd = none
  areas : ∀ p pr, s.proc p = some pr → pr.NoFileAreas

/-- A descriptor or a VMA of a live process refers to the file. -/
def State.Refers (s : State) (f : FileId) : Prop :=
  ∃ p pr, s.proc p = some pr ∧ ((∃ fd, pr.ofile fd = some f) ∨ ∃ a ∈ pr.areas, a.file = some f)

theorem one_eq_zero {entry : Option FileId} (h : entry ≠ some f) : one entry f = 0 := if_neg h

theorem State.refs_eq_zero (h : ¬ s.Refers f) : s.refs f = 0 := by
  refine Finset.sum_eq_zero fun p _ => ?_
  cases hp : s.proc p with
  | none => rfl
  | some pr =>
    have hslots : ∑ fd, one (pr.ofile fd) f = 0 :=
      Finset.sum_eq_zero fun fd _ => one_eq_zero fun hfd => h ⟨p, pr, hp, .inl ⟨fd, hfd⟩⟩
    have hareas : areaRefs pr.areas f = 0 := by
      rw [areaRefs]
      refine List.sum_eq_zero fun n hn => ?_
      obtain ⟨a, ha, rfl⟩ := List.mem_map.mp hn
      exact one_eq_zero fun hfile => h ⟨p, pr, hp, .inr ⟨a, ha, hfile⟩⟩
    rw [slotRefs, Proc.refs, hslots, hareas, Int.add_zero]

/-- A file structure is free exactly when nothing refers to it. -/
theorem State.Counted.free_iff (h : s.Counted) : s.count f = 0 ↔ ¬ s.Refers f := by
  constructor
  · rintro hzero ⟨p, pr, hp, ⟨fd, hfd⟩ | ⟨a, ha, hfile⟩⟩
    · have hpos := h.pos hp hfd
      omega
    · have hpos := h.area_pos hp ha hfile
      omega
  · intro hnone
    rw [h f, State.refs_eq_zero hnone]

theorem State.Start.counted (h : s.Start) : s.Counted := by
  intro f
  refine (h.count f).trans (State.refs_eq_zero ?_).symm
  rintro ⟨p, pr, hp, ⟨fd, hfd⟩ | ⟨a, ha, hfile⟩⟩
  · rw [h.ofile p pr hp fd] at hfd
    cases hfd
  · rw [h.areas p pr hp a ha] at hfile
    cases hfile

/-- What one call does. -/
theorem call_counted (h : s.Counted) (hp : s.proc p = some pr) {op : Op} (hpossible : op.Possible s)
    (hm : op.Meets pr s) (hplaced : op.Placed pr) : ∃ r s', call p pr s op = some (r, s') ∧ s'.Counted := by
  cases op with
  | openat path => exact ⟨_, _, rfl, (sysOpenat_counted h hp hm).1⟩
  | pipe2 checked copied => exact sysPipe2_counted h hp checked copied
  | dup fd => exact sysDup_counted h hp fd
  | dup3 oldfd newfd => exact sysDup3_counted h hp oldfd newfd
  | dupfd fd cloexec arg => exact sysFcntl_counted h hp hm
  | close fd => exact sysClose_counted h hp fd
  | fork np => exact fork_counted h hp hpossible hm
  | exit => exact exit_counted h hp hm
  | mmap args => exact mmap_counted h hp hm hplaced
  | munmap start len => exact munmap_counted h hp hm

/-- A call that returned was placed. -/
theorem placed_of_returns {op : Op} {r : Int} (hm : op.Meets pr s)
    (hcall : call p pr s op = some (r, s')) : op.Placed pr := by
  cases op with
  | mmap args =>
    intro herror hfound
    have hnone : mmap p pr args s = none := by
      rw [mmap]
      split
      · rfl
      · rw [herror]
        dsimp only
        rw [MmapArgs.newAreas, hfound]
        rfl
    exact absurd (hcall.symm.trans hnone) nofun
  | _ => trivial

theorem step_counted (h : s.Counted) (hstep : Step (fun pr s op => op.Meets pr s) s s') : s'.Counted := by
  obtain ⟨p, pr, op, r, hp, hpossible, hm, hcall⟩ := hstep
  obtain ⟨r', t, hcall', hc⟩ := call_counted h hp hpossible hm (placed_of_returns hm hcall)
  rw [hcall] at hcall'
  cases hcall'
  exact hc

end Runs

/-! ## A run of one process -/

section OneProcess

variable {n m : Int} {files files' : Fin NOFILE → Option FileId}

/-- The process that is alone, and its state when file structure 0 has `n` references. -/
def soloProc (files : Fin NOFILE → Option FileId) : Proc := ⟨files, 128, 128, []⟩

def solo (n : Int) (files : Fin NOFILE → Option FileId) : State :=
  ⟨update (fun _ => 0) 0 n, update (fun _ => none) 0 (some (soloProc files))⟩

theorem solo_proc : (solo n files).proc 0 = some (soloProc files) := by simp [solo]

@[simp] theorem solo_put : (solo n files).put 0 (soloProc files') = solo n files' := by
  simp [solo, State.put]

@[simp] theorem solo_setCount : (solo n files).setCount 0 m = solo m files := by
  simp [solo, State.setCount]

@[simp] theorem soloProc_set {v : Option FileId} :
    (soloProc files).set fd v = soloProc (update files fd v) := rfl

@[simp] theorem solo_count : (solo n files).count 0 = n := by simp [solo]

theorem solo_start : (solo 0 fun _ => none).Start := by
  have hproc : ∀ p pr, (solo 0 fun _ => none).proc p = some pr → pr = soloProc fun _ => none := by
    intro p pr hp
    by_cases hzero : p = 0
    · subst hzero
      exact (Option.some.inj (solo_proc.symm.trans hp)).symm
    · have hnone : (solo 0 fun _ => none).proc p = none := by simp [solo, hzero]
      rw [hnone] at hp
      cases hp
  refine ⟨fun f => ?_, fun p pr hp fd => ?_, fun p pr hp => ?_⟩
  · by_cases hzero : f = 0
    · subst hzero
      exact solo_count
    · simp [solo]
  · rw [hproc p pr hp]
    rfl
  · rw [hproc p pr hp]
    nofun

/-- The first entry of a table is free. -/
theorem find_zero {n : Nat} [NeZero n] {P : Fin n → Bool} (h : P 0 = true) :
    (List.finRange n).find? P = some 0 := by
  obtain ⟨k, rfl⟩ := Nat.exists_eq_succ_of_ne_zero (NeZero.ne n)
  rw [List.finRange_succ, List.find?_cons_of_pos h]

/-- The descriptors 0 and 5 after `openat`, `dup3(0, 5)` and `close(0)`. -/
def opened : Fin NOFILE → Option FileId := update (fun _ => none) 0 (some 0)
def doubled : Fin NOFILE → Option FileId := update opened 5 (some 0)
def moved : Fin NOFILE → Option FileId := update doubled 0 none

theorem solo_openat : sysOpenat 0 (soloProc fun _ => none) (solo 0 fun _ => none) .special =
    (0, solo 1 opened) := by
  have hfile : (solo 0 fun _ => none).filealloc = some (0, solo 1 fun _ => none) := by
    have hfind : (List.finRange NFILE).find? (fun f => (solo 0 fun _ => none).count f = 0) = some 0 :=
      find_zero (decide_eq_true solo_count)
    rw [State.filealloc, hfind, Option.map_some, solo_setCount]
  have hfd : (soloProc fun _ => none).fdalloc = some 0 := find_zero (by decide)
  have hput : (solo 1 fun _ => none).put 0 ((soloProc fun _ => none).set 0 (some 0)) = solo 1 opened := by
    rw [soloProc_set, solo_put, opened]
  have hzero : ((0 : Fin NOFILE).val : Int) = 0 := rfl
  dsimp only [sysOpenat]
  rw [hfile]
  dsimp only
  rw [hfd]
  dsimp only
  rw [hput, hzero]

theorem solo_open : call 0 (soloProc fun _ => none) (solo 0 fun _ => none) (.openat .special) =
    some (0, solo 1 opened) := congrArg some solo_openat

theorem solo_dup3 : call 0 (soloProc opened) (solo 1 opened) (.dup3 0 5) = some (5, solo 2 doubled) := by
  have hslot : (soloProc opened).slot 0 = some 0 := rfl
  have hnew : Proc.index 5 = some 5 := rfl
  have hfree : (soloProc opened).ofile 5 = none := rfl
  rw [call, sysDup3, hslot]
  dsimp only
  rw [if_neg (by decide), hnew]
  dsimp only
  rw [if_neg (by decide), hfree]
  dsimp only [Option.bind]
  rw [soloProc_set, solo_put, State.filedup, solo_count, if_neg (by decide), solo_setCount]
  rfl

theorem solo_close : call 0 (soloProc doubled) (solo 2 doubled) (.close 0) = some (0, solo 1 moved) := by
  have hidx : Proc.index 0 = some 0 := rfl
  have hfile : (soloProc doubled).ofile 0 = some 0 := rfl
  rw [call, sysClose, if_neg (by decide), hidx]
  dsimp only
  rw [hfile]
  dsimp only
  rw [soloProc_set, solo_put, State.fileclose, solo_count, if_neg (by decide), solo_setCount]
  rfl

theorem solo_moved : Reaches (Step fun pr s op => op.Meets pr s) (solo 0 fun _ => none) (solo 1 moved) :=
  .tail (.tail (.single ⟨0, _, .openat .special, 0, solo_proc, trivial, trivial, solo_open⟩)
    ⟨0, _, .dup3 0 5, 5, solo_proc, trivial, trivial, solo_dup3⟩)
    ⟨0, _, .close 0, 0, solo_proc, trivial, trivial, solo_close⟩

/-- A descriptor is filled and the reference not counted. -/
theorem State.Counted.miss (h : s.Counted) (hp : s.proc p = some pr) (hfree : pr.ofile fd = none) :
    ¬ (s.put p (pr.set fd (some f))).Counted := by
  intro hc
  have hrefs := hc f
  rw [count_put, refs_put hp, refs_fill hfree, one_self, h f] at hrefs
  omega

theorem solo_dupfd : call 0 (soloProc moved) (solo 1 moved) (.dupfd 5 true 0) =
    some (0, (solo 1 moved).put 0 ((soloProc moved).set 0 (some 0))) := by
  have hslot : (soloProc moved).slot 5 = some 0 := rfl
  have harg : toInt32 0 = 0 := by decide
  have hfd : (soloProc moved).fdalloc2 0 = some 0 := find_zero (by decide)
  rw [call, sysFcntl, hslot]
  dsimp only
  rw [harg, dupfd, if_neg (by decide), Int.toNat_zero, hfd]
  rfl

end OneProcess

end SC7.Files
