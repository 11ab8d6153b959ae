-- SUMMARY: Exactly when `execve` is all or nothing: it starts the program, or returns with the process as before.
import SC7.Kernel.ExecLoad
import SC7.Kernel.ExecStack

/-!
# All or nothing

Up to the check of the magic number `execve` may fail without a trace, later it may not: what follows
either panics or returns with the old address space gone. So it is all or nothing if the arguments can
be copied, and the file is missing, is no ELF file, or can be loaded to the end. Each condition below
is one of the checks of the code, on what the call is given.
-/

namespace SC7.Exec

variable {w : World} {p : Proc} {f g : ElfFile} {path : Str} {argv env : List Str}

/-- The call starts the program, or returns an error with the process as it was. -/
def AllOrNothing (p : Proc) (o : Outcome) : Prop := (∃ p', o = .returns 0 p') ∨ ∃ r, r < 0 ∧ o = .returns r p

/-! ## Conditions -/

/-- A program header is there, and its segment can be loaded. -/
def HeaderOk (w : World) (f : ElfFile) (i : Nat) : Prop :=
  f.complete (f.phAt i) 56 = true ∧ ((f.program i).type = ELF_PROG_LOAD →
    (f.program i).filesz ≤ (f.program i).memsz ∧ (f.program i).vaddr + (f.program i).memsz < 2 ^ 64 ∧
      w.grow i ≠ none ∧ loadseg w f false i (f.program i) = true)

/-- The last program header of type `INTERP`. -/
def lastInterp (f : ElfFile) : Option ProgramHeader :=
  (((List.range f.header.phnum).map f.program).filter fun ph => ph.type = ELF_PROG_INTERP).getLast?

/-- The interpreter that a header names is known, is there, and can be loaded. -/
structure InterpOk (w : World) (f : ElfFile) (path : Str) (ph : ProgramHeader) (g : ElfFile) : Prop where
  filesz : ph.filesz ≤ 256
  known : (interpName w f ph = ldLinuxRiscv ∧ glibcPath path = true) ∨ interpName w f ph ∈ knownInterps
  file : w.file (interpName w f ph) = some g
  complete : g.complete 0 64 = true
  magic : g.header.magic = ELF_MAGIC
  size : ∃ size, getMmapSize g = some size ∧ size ≠ 0 ∧ w.mmap size ≠ none
  segments : ∀ i < g.header.phnum, interpSegment w g i = true

/-- A redirection closes a descriptor that is open, and its file can be opened. -/
def RedirectOk (w : World) (argv : List Str) (p : Proc) : Prop :=
  ∀ r, redirection argv = some r → p.ofile 1 ≠ none ∧ (r = .file → w.redirect ≠ none)

/-- The program can be loaded and started. -/
structure Loads (w : World) (p : Proc) (f : ElfFile) (path : Str) (argv env : List Str) : Prop where
  vmaInit : w.vmaInit = true
  table : w.table ≠ none
  headers : ∀ i < f.header.phnum, HeaderOk w f i
  interp : contains w.cwd (str "basic") = false → contains path (str "basic") = false →
    ∀ ph, lastInterp f = some ph → ∃ g, InterpOk w f path ph g
  stackArea : w.stackArea ≠ none
  args : (argv.takeWhile fun arg => !isRedirection arg).length ≤ 14
  env : env.length ≤ 6
  redirect : RedirectOk w argv p

/-- What `execve` must be given to be all or nothing. -/
def Meets (w : World) (p : Proc) : Prop :=
  w.path = .unreadable ∨ ∃ path, w.path = .ok path ∧
    w.argv.ends = true ∧ w.argv.strs.length < MAXARG ∧ w.ldPage = true ∧
    w.envp.ends = true ∧ (keptEnv w.envp.strs).length < 18 ∧
    (w.file (execPath (userPath path)) = none ∨
      ∃ f, w.file (execPath (userPath path)) = some f ∧ f.complete 0 64 = true ∧
        (f.header.magic ≠ ELF_MAGIC ∨
          Loads w p f (execPath (userPath path)) (execArgs (userPath path) w.argv.strs)
            (ldPath :: keptEnv w.envp.strs)))

/-! ## Arguments -/

section Arguments

theorem argLoop_eq {ends : Bool} {strs : List Str} {i : Nat} :
    argLoop ends strs i = if ends = true ∧ i + strs.length < MAXARG then some strs else none := by
  induction strs generalizing i with
  | nil =>
    rw [argLoop]
    split
    · rename_i hlong
      rw [if_neg fun h => by simp only [List.length_nil] at h; omega]
    · rename_i hlong
      by_cases hends : ends = true
      · rw [if_pos hends, if_pos ⟨hends, by simp only [List.length_nil]; omega⟩]
      · rw [if_neg hends, if_neg fun h => hends h.1]
  | cons s strs ih =>
    rw [argLoop]
    split
    · rename_i hlong
      rw [if_neg fun h => by simp only [List.length_cons] at h; omega]
    · rw [ih, List.length_cons, Nat.add_assoc, Nat.add_comm 1]
      split <;> rfl

theorem envArrayLoop_eq {ends : Bool} {strs : List Str} {n : Nat} :
    envArrayLoop ends strs n =
      if ends = true ∧ n + (keptEnv strs).length < 19 then some (keptEnv strs) else none := by
  induction strs generalizing n with
  | nil =>
    rw [envArrayLoop]
    split
    · rename_i hlong
      rw [if_neg fun h => by have := h.2; omega]
    · rename_i hlong
      by_cases hends : ends = true
      · rw [if_pos hends, if_pos ⟨hends, Nat.not_le.mp hlong⟩]
        rfl
      · rw [if_neg hends, if_neg fun h => hends h.1]
  | cons s strs ih =>
    rw [envArrayLoop, keptEnv_cons]
    split
    · rename_i hlong
      rw [if_neg fun h => by have := h.2; omega]
    · split
      · rw [ih]
      · rw [ih, List.length_cons, Nat.add_assoc, Nat.add_comm 1]
        split <;> rfl

end Arguments

/-! ## Segments -/

section Segments

/-- What a header adds to the search for the interpreter. -/
def nextInterp (ph : ProgramHeader) (interp : Option ProgramHeader) : Option ProgramHeader :=
  if ph.type = ELF_PROG_INTERP then some ph else interp

theorem nextInterp_eq {ph : ProgramHeader} {l : Loaded} :
    (if ph.type = ELF_PROG_INTERP then { l with interp := some ph } else l).interp =
      nextInterp ph l.interp := by
  rw [nextInterp]
  split <;> rfl

theorem loadHeader_some {i : Nat} {l l' : Loaded} (h : loadHeader w f i l = some l') :
    HeaderOk w f i ∧ l'.interp = nextInterp (f.program i) l.interp := by
  rw [loadHeader] at h
  dsimp only at h
  split at h
  · cases h
  rename_i hcomplete
  have hcomplete : f.complete (f.phAt i) 56 = true := Bool.eq_true_of_not_eq_false hcomplete
  split at h
  · rename_i htype
    cases h
    exact ⟨⟨hcomplete, fun hload => absurd hload htype⟩, nextInterp_eq⟩
  split at h
  · cases h
  rename_i hsize
  split at h
  · cases h
  rename_i hwrap
  obtain ⟨sz, hgrow, h⟩ := Option.bind_eq_some_iff.mp h
  split at h
  · rename_i hseg
    cases h
    refine ⟨⟨hcomplete, fun _ => ⟨Nat.not_lt.mp hsize, Nat.not_le.mp hwrap, ?_, hseg⟩⟩, nextInterp_eq⟩
    rw [hgrow]
    nofun
  · cases h

theorem loadHeader_ok {i : Nat} (l : Loaded) (h : HeaderOk w f i) : ∃ l', loadHeader w f i l = some l' := by
  obtain ⟨hcomplete, hload⟩ := h
  rw [loadHeader]
  dsimp only
  rw [if_neg (by rw [hcomplete]; decide)]
  split
  · exact ⟨_, rfl⟩
  · rename_i htype
    obtain ⟨hsize, hwrap, hgrow, hseg⟩ := hload (not_not.mp htype)
    obtain ⟨sz, hsz⟩ := Option.ne_none_iff_exists'.mp hgrow
    rw [if_neg (Nat.not_lt.mpr hsize), if_neg (Nat.not_le.mpr hwrap), hsz, Option.bind_some, if_pos hseg]
    exact ⟨_, rfl⟩

/-- The last `INTERP` header among those from `i` on, or the one before them. -/
def interpFrom (f : ElfFile) (n i : Nat) (interp : Option ProgramHeader) : Option ProgramHeader :=
  ((((List.range' i n).map f.program).filter fun ph => ph.type = ELF_PROG_INTERP).getLast?).or interp

theorem interpFrom_succ {n i : Nat} {interp : Option ProgramHeader} :
    interpFrom f (n + 1) i interp = interpFrom f n (i + 1) (nextInterp (f.program i) interp) := by
  rw [interpFrom, interpFrom, List.range'_succ, List.map_cons, nextInterp]
  by_cases htype : (f.program i).type = ELF_PROG_INTERP
  · rw [List.filter_cons_of_pos (by simpa using htype), if_pos htype, List.getLast?_cons]
    cases (((List.range' (i + 1) n).map f.program).filter fun ph =>
      decide (ph.type = ELF_PROG_INTERP)).getLast? <;> rfl
  · rw [List.filter_cons_of_neg (by simpa using htype), if_neg htype]

theorem loadLoop_some {n i : Nat} {l l' : Loaded} (h : loadLoop w f n i l = some l') :
    (∀ j, i ≤ j → j < i + n → HeaderOk w f j) ∧ l'.interp = interpFrom f n i l.interp := by
  induction n generalizing i l with
  | zero =>
    cases h
    exact ⟨fun j hge hlt => absurd hlt (by omega), rfl⟩
  | succ n ih =>
    obtain ⟨l₁, hheader, hrest⟩ := Option.bind_eq_some_iff.mp h
    obtain ⟨hok, hinterp⟩ := loadHeader_some hheader
    obtain ⟨hoks, hinterps⟩ := ih hrest
    refine ⟨fun j hge hlt => ?_, ?_⟩
    · rcases Nat.eq_or_lt_of_le hge with rfl | hgt
      · exact hok
      · exact hoks j hgt (by omega)
    · rw [hinterps, hinterp, interpFrom_succ]

theorem loadLoop_ok {n i : Nat} (l : Loaded) (h : ∀ j, i ≤ j → j < i + n → HeaderOk w f j) :
    ∃ l', loadLoop w f n i l = some l' := by
  induction n generalizing i l with
  | zero => exact ⟨l, rfl⟩
  | succ n ih =>
    obtain ⟨l₁, hl₁⟩ := loadHeader_ok l (h i le_rfl (by omega))
    rw [loadLoop, hl₁, Option.bind_some]
    exact ih l₁ fun j hge hlt => h j (by omega) (by omega)

theorem interpFrom_all : interpFrom f f.header.phnum 0 none = lastInterp f := by
  rw [interpFrom, lastInterp, Option.or_none, List.range_eq_range']

end Segments

/-! ## The interpreter -/

section Interpreter

variable {ph : ProgramHeader}

theorem findInterp_found {name : Str} : findInterp w path name = .found g ↔
    ((name = ldLinuxRiscv ∧ glibcPath path = true) ∨ name ∈ knownInterps) ∧ w.file name = some g := by
  have hother : ldLinuxRiscv ∉ knownInterps := by decide
  rw [findInterp]
  split
  · rename_i hname
    split
    · rename_i hglibc
      cases hfile : w.file name with
      | none => simp
      | some g' => simp [hname, hglibc]
    · rename_i hglibc
      simp [hname, hglibc, hother]
  · rename_i hname
    split
    · rename_i hknown
      cases hfile : w.file name with
      | none => simp
      | some g' => simp [hname, hknown]
    · rename_i hknown
      simp [hname, hknown]

theorem loadInterpreter_ok : loadInterpreter w g ≠ none ↔
    (∃ size, getMmapSize g = some size ∧ size ≠ 0 ∧ w.mmap size ≠ none) ∧
      ∀ i < g.header.phnum, interpSegment w g i = true := by
  rw [loadInterpreter]
  cases hsize : getMmapSize g with
  | none => simp
  | some size =>
    rw [Option.bind_some]
    by_cases hzero : size = 0
    · simp [hzero]
    rw [if_neg hzero]
    cases hmap : w.mmap size with
    | none => simp [hmap]
    | some r => simp [hmap, hzero]

/-- The dynamic part ends well just if the interpreter is as it should be. -/
theorem dynamic_found : (∃ r, dynamic w f path ph = .found r) ↔ ∃ g, InterpOk w f path ph g := by
  rw [dynamic]
  constructor
  · rintro ⟨r, h⟩
    split at h
    · cases h
    rename_i hfilesz
    split at h
    · cases h
    · cases h
    · rename_i g hfind
      obtain ⟨hknown, hfile⟩ := findInterp_found.mp hfind
      split at h
      · cases h
      rename_i hcomplete
      split at h
      · cases h
      rename_i hmagic
      split at h
      · cases h
      · rename_i base areas hload
        obtain ⟨hsize, hsegs⟩ := loadInterpreter_ok.mp (by rw [hload]; nofun)
        exact ⟨g, Nat.not_lt.mp hfilesz, hknown, hfile, Bool.eq_true_of_not_eq_false hcomplete,
          not_not.mp hmagic, hsize, hsegs⟩
  · rintro ⟨g, hok⟩
    obtain ⟨⟨base, areas⟩, hload⟩ := Option.ne_none_iff_exists'.mp
      (loadInterpreter_ok.mpr ⟨hok.size, hok.segments⟩)
    rw [if_neg (Nat.not_lt.mpr hok.filesz), findInterp_found.mpr ⟨hok.known, hok.file⟩]
    dsimp only
    rw [if_neg (by rw [hok.complete]; decide), if_neg (not_not.mpr hok.magic), hload]
    exact ⟨_, rfl⟩

end Interpreter

/-! ## The end of `exec` -/

section Finish

theorem redirectFiles_ok : redirectFiles w argv p ≠ none ↔ RedirectOk w argv p := by
  rw [redirectFiles, RedirectOk]
  cases redirection argv with
  | none => simp
  | some r =>
    dsimp only
    by_cases hclosed : p.ofile 1 = none
    · simp [hclosed]
    · rw [if_neg hclosed]
      cases r with
      | file => simp [hclosed]
      | pipe => simp [hclosed]

/-- `finish` starts the program or does not come back. -/
theorem finish_cases {base entry : Nat} :
    (∃ p', finish w f argv env base entry p = .returns 0 p') ∨ finish w f argv env base entry p = .stops := by
  rw [finish]
  split
  · exact .inr rfl
  · dsimp only
    split
    · exact .inr rfl
    · split
      · exact .inr rfl
      · exact .inl ⟨_, rfl⟩

theorem finish_returns {base entry : Nat} (hne : env ≠ [])
    (hargs : ∀ a ∈ argv.takeWhile fun arg => !isRedirection arg, UserStr a) (henv : ∀ e ∈ env, UserStr e) :
    (∃ p', finish w f argv env base entry p = .returns 0 p') ↔
      w.stackArea ≠ none ∧ (argv.takeWhile fun arg => !isRedirection arg).length ≤ 14 ∧ env.length ≤ 6 ∧
        RedirectOk w argv p := by
  rw [finish]
  constructor
  · rintro ⟨p', h⟩
    split at h
    · cases h
    rename_i area harea
    dsimp only at h
    split at h
    · cases h
    rename_i image himage
    split at h
    · cases h
    · rename_i ofile hfiles
      obtain ⟨hargc, henvc⟩ := buildStack_bounds himage
      refine ⟨by rw [harea]; nofun, hargc, henvc, redirectFiles_ok.mp ?_⟩
      rw [hfiles]
      nofun
  · rintro ⟨hstack, hargc, henvc, hredirect⟩
    obtain ⟨area, harea⟩ := Option.ne_none_iff_exists'.mp hstack
    obtain ⟨ofile, hfiles⟩ := Option.ne_none_iff_exists'.mp (redirectFiles_ok.mpr hredirect)
    rw [harea]
    dsimp only
    obtain ⟨image, -, -, himage, -⟩ := buildStack_laid ⟨.ofNat f.header.phoff, .ofNat p.virtAddr,
      .ofNat f.header.phentsize, .ofNat f.header.phnum, .ofNat base, .ofNat f.header.entry⟩ hargc henvc hne
      hargs henv
    rw [himage, hfiles]
    exact ⟨_, rfl⟩

/-- What `finish` returns is a start. -/
theorem finish_allOrNothing {p₀ : Proc} {base entry : Nat} :
    AllOrNothing p₀ (finish w f argv env base entry p) ↔
      ∃ p', finish w f argv env base entry p = .returns 0 p' := by
  constructor
  · rintro (hstart | ⟨r, hr, hreturns⟩)
    · exact hstart
    · rcases finish_cases (w := w) (f := f) (p := p) with hstart | hstops
      · exact hstart
      · rw [hstops] at hreturns
        cases hreturns
  · exact .inl

theorem not_allOrNothing_stops : ¬AllOrNothing p .stops := by
  rintro (⟨p', h⟩ | ⟨r, -, h⟩)
  · cases h
  · cases h

/-- An error with another page table is neither. -/
theorem not_allOrNothing_returns {p' : Proc} (hne : p'.pagetable ≠ p.pagetable) :
    ¬AllOrNothing p (.returns (-1) p') := by
  rintro (⟨p'', h⟩ | ⟨r, -, h⟩)
  · cases h
  · cases h
    exact hne rfl

/-- Behind the point of no return, only a start is all or nothing. -/
theorem loadProgram_allOrNothing {table : Nat} (hfresh : table ≠ p.pagetable) (hne : env ≠ [])
    (hargs : ∀ a ∈ argv.takeWhile fun arg => !isRedirection arg, UserStr a) (henv : ∀ e ∈ env, UserStr e) :
    AllOrNothing p (loadProgram w f path argv env table p) ↔
      (∀ i < f.header.phnum, HeaderOk w f i) ∧
      (contains w.cwd (str "basic") = false → contains path (str "basic") = false →
        ∀ ph, lastInterp f = some ph → ∃ g, InterpOk w f path ph g) ∧
      w.stackArea ≠ none ∧ (argv.takeWhile fun arg => !isRedirection arg).length ≤ 14 ∧ env.length ≤ 6 ∧
      RedirectOk w argv p := by
  have hfinish : ∀ (base entry : Nat) (p' : Proc), p'.ofile = p.ofile →
      (AllOrNothing p (finish w f argv env base entry p') ↔
        w.stackArea ≠ none ∧ (argv.takeWhile fun arg => !isRedirection arg).length ≤ 14 ∧ env.length ≤ 6 ∧
          RedirectOk w argv p) := by
    intro base entry p' hfile
    rw [finish_allOrNothing, finish_returns hne hargs henv, RedirectOk, RedirectOk, hfile]
  rw [loadProgram]
  cases hload : loadLoop w f f.header.phnum 0 ⟨2 ^ 64 - 1, 0, none⟩ with
  | none =>
    refine iff_of_false not_allOrNothing_stops fun h => ?_
    obtain ⟨l, hl⟩ := loadLoop_ok (n := f.header.phnum) (i := 0) ⟨2 ^ 64 - 1, 0, none⟩
      fun j _ hlt => h.1 j (by omega)
    rw [hload] at hl
    cases hl
  | some l =>
    obtain ⟨hheaders, hinterp⟩ := loadLoop_some hload
    have hheaders : ∀ i < f.header.phnum, HeaderOk w f i := fun i hlt => hheaders i (Nat.zero_le i) (by omega)
    rw [interpFrom_all] at hinterp
    dsimp only
    split
    · rename_i hbasic
      have hend := hfinish 0 0 ⟨initAreas, table, l.sz, l.low, p.ofile, p.trapframe⟩ rfl
      refine hend.trans ⟨fun h => ⟨hheaders, fun hcwd hpath => ?_, h⟩, fun h => h.2.2⟩
      rw [hcwd, hpath] at hbasic
      cases hbasic
    rename_i hbasic
    rw [Bool.or_eq_true, not_or, Bool.not_eq_true, Bool.not_eq_true] at hbasic
    cases hph : l.interp with
    | none =>
      rw [hph] at hinterp
      dsimp only
      have hend := hfinish 0 0 ⟨initAreas, table, l.sz, l.low, p.ofile, p.trapframe⟩ rfl
      refine hend.trans ⟨fun h => ⟨hheaders, fun _ _ ph hlast => ?_, h⟩, fun h => h.2.2⟩
      rw [← hinterp] at hlast
      cases hlast
    | some ph =>
      rw [hph] at hinterp
      -- if the interpreter cannot be used, neither kind of end is a good one
      have hbad : (∀ r, dynamic w f path ph ≠ .found r) → ¬((∀ i < f.header.phnum, HeaderOk w f i) ∧
          (contains w.cwd (str "basic") = false → contains path (str "basic") = false →
            ∀ ph, lastInterp f = some ph → ∃ g, InterpOk w f path ph g) ∧
          w.stackArea ≠ none ∧ (argv.takeWhile fun arg => !isRedirection arg).length ≤ 14 ∧
          env.length ≤ 6 ∧ RedirectOk w argv p) := by
        rintro hnone ⟨-, hdyn, -⟩
        obtain ⟨r, hr⟩ := dynamic_found.mpr (hdyn hbasic.1 hbasic.2 ph hinterp.symm)
        exact hnone r hr
      dsimp only
      cases hdyn : dynamic w f path ph with
      | stops => exact iff_of_false not_allOrNothing_stops (hbad (by rw [hdyn]; nofun))
      | fails => exact iff_of_false (not_allOrNothing_returns hfresh) (hbad (by rw [hdyn]; nofun))
      | found r =>
        obtain ⟨base, entry, areas⟩ := r
        dsimp only
        have hend := hfinish base entry ⟨areas, table, l.sz, l.low, p.ofile, p.trapframe⟩ rfl
        refine hend.trans ⟨fun h => ⟨hheaders, fun _ _ ph' hlast => ?_, h⟩, fun h => h.2.2⟩
        rw [← hinterp] at hlast
        cases hlast
        exact dynamic_found.mp ⟨_, hdyn⟩

end Finish

/-! ## `execve` -/

theorem userStr_env (h : ∀ e ∈ env, UserStr e) : ∀ e ∈ ldPath :: keptEnv env, UserStr e := by
  intro e he
  rcases List.mem_cons.mp he with rfl | he
  · exact ⟨by decide, by decide⟩
  · exact h e (List.mem_filter.mp he).1

theorem execFile_allOrNothing (hfresh : ∀ table, w.table = some table → table ≠ p.pagetable) (hne : env ≠ [])
    (hargs : ∀ a ∈ argv, UserStr a) (henv : ∀ e ∈ env, UserStr e) :
    AllOrNothing p (execFile w path argv env p) ↔
      (w.file (execPath path) = none ∨
        ∃ f, w.file (execPath path) = some f ∧ f.complete 0 64 = true ∧
          (f.header.magic ≠ ELF_MAGIC ∨ Loads w p f (execPath path) (execArgs path argv) env)) := by
  have hreturns : AllOrNothing p (.returns (-1) p) := .inr ⟨-1, by decide, rfl⟩
  rw [execFile]
  cases hfile : w.file (execPath path) with
  | none => exact iff_of_true hreturns (.inl rfl)
  | some f =>
    dsimp only
    split
    · rename_i hcomplete
      refine iff_of_false not_allOrNothing_stops ?_
      rintro (h | ⟨f', h, hfull, -⟩)
      · cases h
      · cases h
        rw [hcomplete] at hfull
        cases hfull
    rename_i hcomplete
    replace hcomplete := Bool.eq_true_of_not_eq_false hcomplete
    split
    · rename_i hmagic
      exact iff_of_true hreturns (.inr ⟨f, rfl, hcomplete, .inl hmagic⟩)
    rename_i hmagic
    have hloads : (some f = none ∨ ∃ f', some f = some f' ∧ f'.complete 0 64 = true ∧
        (f'.header.magic ≠ ELF_MAGIC ∨ Loads w p f' (execPath path) (execArgs path argv) env)) ↔
          Loads w p f (execPath path) (execArgs path argv) env := by
      constructor
      · rintro (h | ⟨f', h, -, h' | h'⟩)
        · cases h
        · cases h
          exact absurd h' hmagic
        · cases h
          exact h'
      · exact fun h => .inr ⟨f, rfl, hcomplete, .inr h⟩
    rw [hloads]
    split
    · rename_i table hinit htable
      rw [loadProgram_allOrNothing (hfresh table htable) hne
        (fun a ha => userStr_execArgs hargs a ((List.takeWhile_prefix _).subset ha)) henv]
      constructor
      · rintro ⟨hheaders, hinterp, hstack, hargc, henvc, hredirect⟩
        exact ⟨hinit, by rw [htable]; nofun, hheaders, hinterp, hstack, hargc, henvc, hredirect⟩
      · exact fun h => ⟨h.headers, h.interp, h.stackArea, h.args, h.env, h.redirect⟩
    · rename_i hnot
      refine iff_of_false not_allOrNothing_stops fun h => ?_
      obtain ⟨table, htable⟩ := Option.ne_none_iff_exists'.mp h.table
      exact hnot table h.vmaInit htable

/-- A file with these bytes. -/
def ElfFile.ofBytes (bytes : List UInt8) : ElfFile := ⟨fun off n => (bytes.drop off).take n⟩

/-- A world with room for everything, in which every path leads to the file `f`. -/
def oneFile (f : ElfFile) : World where
  path := .ok (str "/a")
  argv := ⟨[], true, by simp⟩
  envp := ⟨[], true, by simp⟩
  cwd := str "/"
  ldPage := true
  file := fun _ => some f
  vmaInit := true
  table := some 2
  grow := fun _ => some 0
  mapped := fun _ _ _ => true
  garbage := []
  mmap := fun _ => some (1, initAreas)
  stackArea := some Vma.zero
  redirect := some fun _ => none

def idleProc : Proc := ⟨[], 1, 0, 0, fun _ => none, ⟨0, 0, 0⟩⟩

/-- An ELF header without program headers. -/
def noSegments : ElfFile := .ofBytes ([0x7F, 0x45, 0x4C, 0x46] ++ List.replicate 60 0)

/-- A file of one program header, of type `INTERP` and without a name in it. -/
def noInterp : ElfFile :=
  .ofBytes ([0x7F, 0x45, 0x4C, 0x46] ++ List.replicate 28 0 ++ [64] ++ List.replicate 23 0 ++ [1] ++
    List.replicate 7 0 ++ [3] ++ List.replicate 55 0)

end SC7.Exec
