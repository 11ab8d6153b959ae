-- SUMMARY: Which argument and environment lists a program reads back from the stack that `execve` built.
import Mathlib.Data.List.TakeWhile
import SC7.Kernel.Exec

/-!
# Reading the start-up stack back

The two pointer arrays are rounded to 16 bytes one by one, so there are 8 bytes between them, or
between the environment and the auxiliary vector, when the number of words of the lower one is odd. The
start-up code of a program takes them for a part of the arrays.
-/

namespace SC7.Exec

open Blocks

theorem stackTop_eq : USER_STACK_TOP = stackBase + 409600 := rfl

theorem stackTop_aligned : USER_STACK_TOP % 16 = 0 := rfl

theorem stackTop_lt : USER_STACK_TOP < 2 ^ 31 := by decide

/-- A string that comes from the user: no zero inside, and at most a page with the zero at its end. -/
def UserStr (s : Str) : Prop := (0 : UInt8) ∉ s ∧ s.length < 4096

/-- The stack pointer is at a multiple of 16, below all blocks. -/
structure Stack.Ok (s : Stack) : Prop where
  descends : Descends USER_STACK_TOP s.blocks
  low : s.sp ≤ Blocks.low USER_STACK_TOP s.blocks
  aligned : s.sp % 16 = 0

/-- The strings are on the stack, at these addresses. -/
def Placed (blocks : List Block) (ptrs : List Nat) (strs : List Str) : Prop :=
  List.Forall₂ (fun p str => (p, str ++ [0]) ∈ blocks ∧ 0 < p ∧ p < 2 ^ 64) ptrs strs

theorem Placed.mono {blocks blocks' : List Block} {ptrs : List Nat} {strs : List Str}
    (h : Placed blocks ptrs strs) (hsub : ∀ b ∈ blocks, b ∈ blocks') : Placed blocks' ptrs strs :=
  List.Forall₂.imp (fun _ _ ⟨hmem, hp⟩ => ⟨hsub _ hmem, hp⟩) h

theorem Stack.Ok.push {s : Stack} (hs : s.Ok) {sp : Nat} {bytes : List UInt8}
    (hend : sp + bytes.length ≤ s.sp) (haligned : sp % 16 = 0) : (s.push sp bytes).Ok where
  descends := ⟨hend.trans hs.low, hs.descends⟩
  low := le_refl sp
  aligned := haligned

/-- Strings of a page each fit if there is room for them. -/
theorem pushStrs_spec (size : Nat) {strs : List Str} {k : Nat} {s : Stack} (hs : s.Ok)
    (htop : s.sp ≤ USER_STACK_TOP) (hstr : ∀ str ∈ strs, UserStr str) (hk : k + strs.length ≤ size)
    (hroom : stackBase + 4112 * strs.length < s.sp) :
    ∃ ptrs s', s.pushStrs size strs k = .ok (ptrs, s') ∧ s'.Ok ∧ s'.sp ≤ s.sp ∧
      s.sp ≤ s'.sp + 4112 * strs.length ∧ (∀ b ∈ s.blocks, b ∈ s'.blocks) ∧
      Placed s'.blocks ptrs strs := by
  induction strs generalizing k s with
  | nil => exact ⟨[], s, rfl, hs, le_refl _, Nat.le_add_right _ _, fun b hb => hb, List.Forall₂.nil⟩
  | cons str strs ih =>
    rw [List.length_cons] at hk hroom
    have hlen := (hstr str List.mem_cons_self).2
    -- Where the string goes.
    obtain ⟨sp, hsp⟩ : ∃ sp, sp = s.sp - (str.length + 1) - (s.sp - (str.length + 1)) % 16 := ⟨_, rfl⟩
    have hpos : stackBase < sp := by omega
    have hend : sp + (str ++ [0]).length ≤ s.sp := by
      rw [List.length_append, List.length_singleton]
      omega
    have hpush : s.pushStr str = .ok (s.push sp (str ++ [0])) := by
      rw [Stack.pushStr, ← hsp, if_pos hpos]
    have hok : (s.push sp (str ++ [0])).Ok := hs.push hend (by omega)
    obtain ⟨ptrs, s', hrest, hok', hle, hroom', hsub, hplaced⟩ :=
      ih (k := k + 1) hok (show sp ≤ USER_STACK_TOP by omega)
        (fun str h => hstr str (List.mem_cons_of_mem _ h)) (by omega)
        (show stackBase + 4112 * strs.length < sp by omega)
    have hle : s'.sp ≤ sp := hle
    have hroom' : sp ≤ s'.sp + 4112 * strs.length := hroom'
    refine ⟨sp :: ptrs, s', ?_, hok', by omega, by rw [List.length_cons]; omega, ?_, ?_⟩
    · rw [Stack.pushStrs, if_pos (by omega), hpush]
      simp only [bind, Except.bind]
      rw [hrest]
      rfl
    · exact fun b hb => hsub b (List.mem_cons_of_mem _ hb)
    · refine List.Forall₂.cons ⟨hsub _ List.mem_cons_self, by omega, ?_⟩ hplaced
      have := stackTop_lt
      omega

theorem pushStrs_length {size : Nat} {strs : List Str} {k : Nat} {s s' : Stack} {ptrs : List Nat}
    (h : s.pushStrs size strs k = .ok (ptrs, s')) : ptrs.length = strs.length := by
  induction strs generalizing k s ptrs with
  | nil =>
    cases h
    rfl
  | cons str strs ih =>
    rw [Stack.pushStrs] at h
    split at h
    · cases hpush : s.pushStr str with
      | error e =>
        rw [hpush] at h
        cases h
      | ok s₁ =>
        rw [hpush] at h
        simp only [bind, Except.bind] at h
        cases hrest : s₁.pushStrs size strs (k + 1) with
        | error e =>
          rw [hrest] at h
          cases h
        | ok r =>
          rw [hrest] at h
          cases h
          rw [List.length_cons, List.length_cons, ih hrest]
    · cases h

/-- The words of an auxiliary vector. -/
def auxWords (aux : List (Nat × Nat)) : List Nat := aux.flatMap (fun (t, v) => [t, v]) ++ [0, 0]

/-- The image that `buildStack` makes: where the three arrays lie. The words that rounding leaves free
are counted by the parities. -/
structure Laid (info : ElfInfo) (args env : List Str) (img : Image) (argv envp : List Nat) : Prop where
  descends : Descends USER_STACK_TOP img.blocks
  aligned : img.sp % 16 = 0
  argc_le : args.length ≤ 14
  envc_le : env.length ≤ 6
  args : Placed img.blocks argv args
  env : Placed img.blocks envp env
  argBlock : (img.sp, wordBytes (argv.length :: argv ++ [0])) ∈ img.blocks
  envBlock : (img.sp + 8 * (argv.length + 2) + 8 * (argv.length % 2), wordBytes (envp ++ [0])) ∈ img.blocks
  auxBlock : (img.sp + 8 * (argv.length + 2) + 8 * (argv.length % 2) + 8 * (envp.length + 1) +
    8 * ((envp.length + 1) % 2), wordBytes (auxWords img.aux)) ∈ img.blocks
  aux : ∃ random < 2 ^ 64, img.aux = auxv info random

theorem buildStack_bounds {info : ElfInfo} {args env : List Str} {img : Image}
    (h : buildStack info args env = .ok img) : args.length ≤ 14 ∧ env.length ≤ 6 := by
  simp only [buildStack, bind, Except.bind] at h
  split at h
  · cases h
  · rename_i r henv
    split at h
    · cases h
    · rename_i r' hargs
      obtain ⟨envp, s₁⟩ := r
      obtain ⟨argv, s₂⟩ := r'
      rw [← pushStrs_length henv, ← pushStrs_length hargs]
      simp only at h
      split at h
      · cases h
      · rename_i hsize
        simp only [NENV, NARG] at hsize
        omega

theorem throughInt_eq {sp : Nat} (h : sp < 2 ^ 31) : throughInt sp = sp := by
  have hmod : sp % 2 ^ 32 = sp := Nat.mod_eq_of_lt (by omega)
  rw [throughInt, hmod, if_pos h]

/-- An array of `n` words that ends below an aligned address, with what aligns its start. -/
theorem array_end {sp n : Nat} (hal : sp % 16 = 0) (hle : n * 8 + 16 ≤ sp) :
    sp - n * 8 - (sp - n * 8) % 16 + 8 * n + 8 * (n % 2) = sp := by
  omega

/-- With up to 14 arguments and 1 to 6 variables the stack is built. -/
theorem buildStack_laid (info : ElfInfo) {args env : List Str} (hargs : args.length ≤ 14)
    (henv : env.length ≤ 6) (hne : env ≠ []) (hastr : ∀ a ∈ args, UserStr a)
    (hestr : ∀ e ∈ env, UserStr e) :
    ∃ img argv envp, buildStack info args env = .ok img ∧ Laid info args env img argv envp := by
  have htop := stackTop_eq
  have hsmall := stackTop_lt
  have hzero : USER_STACK_TOP - USER_STACK_TOP % 16 = USER_STACK_TOP := by
    rw [stackTop_aligned, Nat.sub_zero]
  have hstart : Stack.Ok ⟨USER_STACK_TOP, []⟩ := ⟨trivial, le_refl _, stackTop_aligned⟩
  obtain ⟨envp, s₁, hpush₁, hok₁, hle₁, hroom₁, -, hplaced₁⟩ :=
    pushStrs_spec NENV (k := 0) hstart (le_refl _) hestr (by simp only [NENV]; omega)
      (show stackBase + 4112 * env.length < USER_STACK_TOP by omega)
  have hle₁ : s₁.sp ≤ USER_STACK_TOP := hle₁
  have hroom₁ : USER_STACK_TOP ≤ s₁.sp + 4112 * env.length := hroom₁
  obtain ⟨argv, s₂, hpush₂, hok₂, hle₂, hroom₂, hsub₂, hplaced₂⟩ :=
    pushStrs_spec NARG (k := 0) hok₁ hle₁ hastr (by simp only [NARG]; omega) (by omega)
  have hargc := pushStrs_length hpush₂
  have henvc := pushStrs_length hpush₁
  have henvp : envp.length ≠ 0 := by
    rw [henvc]
    exact fun h => hne (List.eq_nil_of_length_eq_zero h)
  have hal := hok₂.aligned
  -- The random bytes and the auxiliary vector.
  obtain ⟨sp₃, hsp₃⟩ : ∃ sp₃, sp₃ = s₂.sp - 16 := ⟨_, rfl⟩
  obtain ⟨sp₄, hsp₄⟩ : ∃ sp₄, sp₄ = sp₃ - 256 := ⟨_, rfl⟩
  have hok₃ : (s₂.push sp₃ randomBytes).Ok :=
    hok₂.push (by rw [show randomBytes.length = 16 from rfl]; omega) (by omega)
  have hlen : (auxWords (auxv info sp₃)).length = 32 := rfl
  have hok₄ : ((s₂.push sp₃ randomBytes).push sp₄ (wordBytes (auxWords (auxv info sp₃)))).Ok :=
    hok₃.push (by rw [length_wordBytes, hlen]; simp only [Stack.push]; omega) (by omega)
  have haux : loadAux (s₂.push sp₃ randomBytes) (auxv info sp₃) =
      .ok ((s₂.push sp₃ randomBytes).push sp₄ (wordBytes (auxWords (auxv info sp₃)))) := by
    have hdrop : (s₂.push sp₃ randomBytes).sp - (2 * (auxv info sp₃).length + 2) * 8 = sp₄ := hsp₄.symm
    rw [loadAux, hdrop, if_neg (by omega), throughInt_eq (by omega), if_neg (by omega)]
    rfl
  -- The pointer arrays.
  obtain ⟨sp₅, hsp₅⟩ : ∃ sp₅, sp₅ = sp₄ - (envp.length + 1) * 8 - (sp₄ - (envp.length + 1) * 8) % 16 :=
    ⟨_, rfl⟩
  obtain ⟨sp₆, hsp₆⟩ : ∃ sp₆, sp₆ = sp₅ - (argv.length + 2) * 8 - (sp₅ - (argv.length + 2) * 8) % 16 :=
    ⟨_, rfl⟩
  have hroom₃ : stackBase < sp₃ := by omega
  have hroom₄ : stackBase < sp₄ - 512 := by omega
  have hal₄ : sp₄ % 16 = 0 := by omega
  have hal₅ : sp₅ % 16 = 0 := by omega
  have hpos₅ : sp₅ + 8 * (envp.length + 1) + 8 * ((envp.length + 1) % 2) = sp₄ := by
    rw [hsp₅]
    exact array_end hal₄ (by omega)
  have hpos₆ : sp₆ + 8 * (argv.length + 2) + 8 * (argv.length % 2) = sp₅ := by
    rw [hsp₆, ← Nat.add_mod_right argv.length 2]
    exact array_end hal₅ (by omega)
  have hlen₅ : (wordBytes (envp ++ [0])).length = 8 * (envp.length + 1) := by
    rw [length_wordBytes, List.length_append, List.length_singleton]
  have hlen₆ : (wordBytes (argv.length :: argv ++ [0])).length = 8 * (argv.length + 2) := by
    rw [length_wordBytes, List.length_append, List.length_cons, List.length_singleton]
  obtain ⟨s₄, hs₄⟩ : ∃ s₄, s₄ = (s₂.push sp₃ randomBytes).push sp₄ (wordBytes (auxWords (auxv info sp₃))) :=
    ⟨_, rfl⟩
  have hsp : s₄.sp = sp₄ := by rw [hs₄]; rfl
  rw [← hs₄] at hok₄ haux
  have hok₅ : (s₄.push sp₅ (wordBytes (envp ++ [0]))).Ok := hok₄.push (by rw [hlen₅, hsp]; omega) (by omega)
  have hok₆ : ((s₄.push sp₅ (wordBytes (envp ++ [0]))).push sp₆
      (wordBytes (argv.length :: argv ++ [0]))).Ok :=
    hok₅.push (by rw [hlen₆]; show _ ≤ sp₅; omega) (by omega)
  refine ⟨⟨sp₆, (sp₆, wordBytes (argv.length :: argv ++ [0])) :: (sp₅, wordBytes (envp ++ [0])) ::
    s₄.blocks, auxv info sp₃⟩, argv, envp, ?_, ?_⟩
  · simp only [buildStack, bind, Except.bind, hzero, hpush₁, hpush₂]
    rw [if_neg (by simp only [NENV, NARG]; omega)]
    simp only [← hsp₃]
    rw [if_neg (by omega)]
    simp only [Stack.push] at haux ⊢
    rw [haux]
    simp only [if_pos henvp, hsp, ← hsp₅, ← hsp₆]
    rw [if_neg (by omega)]
  · have hin : ∀ b ∈ s₂.blocks, b ∈ (sp₆, wordBytes (argv.length :: argv ++ [0])) ::
        (sp₅, wordBytes (envp ++ [0])) :: s₄.blocks := by
      intro b hb
      rw [hs₄]
      exact List.mem_cons_of_mem _ (List.mem_cons_of_mem _ (List.mem_cons_of_mem _ (List.mem_cons_of_mem _ hb)))
    refine ⟨hok₆.descends, hok₆.aligned, hargs, henv, hplaced₂.mono hin, hplaced₁.mono fun b hb => hin b (hsub₂ b hb),
      List.mem_cons_self, ?_, ?_, sp₃, by omega, rfl⟩
    · rw [hpos₆]
      exact List.mem_cons_of_mem _ List.mem_cons_self
    · rw [hpos₆, hpos₅, hs₄]
      exact List.mem_cons_of_mem _ (List.mem_cons_of_mem _ List.mem_cons_self)

/-! ## Reading -/

variable {m : Nat → UInt8}

theorem readPtrs_eq {a n : Nat} {ptrs : List Nat} (h : WordsAt m a (ptrs ++ [0]))
    (hnz : ∀ p ∈ ptrs, p ≠ 0) (hn : ptrs.length < n) :
    readPtrs m n a = some (ptrs, a + 8 * (ptrs.length + 1)) := by
  induction ptrs generalizing a n with
  | nil =>
    obtain ⟨n, rfl⟩ := Nat.exists_eq_add_of_lt hn
    rw [readPtrs, if_pos h.1]
    rfl
  | cons p ptrs ih =>
    rw [List.length_cons] at hn
    obtain ⟨n, rfl⟩ : ∃ k, n = k + 1 := ⟨n - 1, by omega⟩
    have hp : readWord m a = p := h.1
    have hrest := ih h.2 (fun q hq => hnz q (List.mem_cons_of_mem _ hq)) (Nat.lt_of_succ_lt_succ hn)
    rw [readPtrs, hp, if_neg (hnz p List.mem_cons_self), hrest, Option.map_some, List.length_cons]
    simp only [Option.some.injEq, Prod.mk.injEq, true_and]
    omega

/-- A pair of type `AT_NULL` ends the vector. -/
theorem readPairs_eq {a n v : Nat} {aux : List (Nat × Nat)} {ws : List Nat}
    (h : WordsAt m a (aux.flatMap (fun (t, v) => [t, v]) ++ 0 :: v :: ws)) (hnz : ∀ p ∈ aux, p.1 ≠ 0)
    (hn : aux.length < n) : readPairs m n a = some (aux ++ [(0, v)]) := by
  induction aux generalizing a n with
  | nil =>
    obtain ⟨n, rfl⟩ := Nat.exists_eq_add_of_lt hn
    have htype : readWord m a = 0 := h.1
    have hval : readWord m (a + 8) = v := h.2.1
    rw [readPairs, htype, hval]
    rfl
  | cons p aux ih =>
    rw [List.length_cons] at hn
    obtain ⟨n, rfl⟩ : ∃ k, n = k + 1 := ⟨n - 1, by omega⟩
    have htype : readWord m a = p.1 := h.1
    have hval : readWord m (a + 8) = p.2 := h.2.1
    have hrest := ih h.2.2 (fun q hq => hnz q (List.mem_cons_of_mem _ hq)) (Nat.lt_of_succ_lt_succ hn)
    rw [readPairs, htype, hval]
    simp only
    rw [if_neg (hnz p List.mem_cons_self), hrest]
    rfl

theorem Placed.mapM_readStr {blocks : List Block} {top : Nat} {ptrs : List Nat} {strs : List Str}
    (h : Placed blocks ptrs strs) (hd : Descends top blocks) (hstr : ∀ str ∈ strs, UserStr str) :
    ptrs.mapM (readStr (image m blocks) USER_STACK_SIZE) = some strs := by
  induction h with
  | nil => rfl
  | cons hp hrest ih =>
    have hhead := hstr _ List.mem_cons_self
    have hread := hd.readStr_eq (m := m) hp.1 hhead.1
      (show _ < USER_STACK_SIZE by have := hhead.2; simp only [USER_STACK_SIZE]; omega)
    rw [List.mapM_cons, hread, ih fun str h => hstr str (List.mem_cons_of_mem _ h)]
    rfl

theorem Placed.length_eq {blocks : List Block} {ptrs : List Nat} {strs : List Str}
    (h : Placed blocks ptrs strs) : ptrs.length = strs.length := List.Forall₂.length_eq h

theorem Placed.ptr_pos {blocks : List Block} {ptrs : List Nat} {strs : List Str}
    (h : Placed blocks ptrs strs) {p : Nat} (hp : p ∈ ptrs) : 0 < p ∧ p < 2 ^ 64 := by
  induction h with
  | nil => cases hp
  | cons hhead _ ih =>
    obtain rfl | hp := List.mem_cons.mp hp
    · exact hhead.2
    · exact ih hp

variable {info : ElfInfo} {args env : List Str} {img : Image} {argv envp : List Nat}

/-- The auxiliary vector but for its last pair. -/
def auxvInit (info : ElfInfo) (random : Nat) : List (Nat × Nat) := (auxv info random).dropLast

theorem auxv_eq (info : ElfInfo) (random : Nat) : auxv info random = auxvInit info random ++ [(0, 0)] := rfl

theorem auxWords_auxv (info : ElfInfo) (random : Nat) : auxWords (auxv info random) =
    (auxvInit info random).flatMap (fun (t, v) => [t, v]) ++ [0, 0, 0, 0] := rfl

theorem auxvInit_ne_zero {random : Nat} {p : Nat × Nat} (hp : p ∈ auxvInit info random) : p.1 ≠ 0 := by
  have hall : (auxvInit info random).map Prod.fst = [16, 6, 3, 4, 5, 7, 9, 11, 12, 13, 14, 23, 25, 8] := rfl
  have hmem : p.1 ∈ (auxvInit info random).map Prod.fst := List.mem_map_of_mem hp
  rw [hall] at hmem
  intro hzero
  rw [hzero] at hmem
  revert hmem
  decide

theorem auxWords_lt {random : Nat} (hr : random < 2 ^ 64) {w : Nat} (hw : w ∈ auxWords (auxv info random)) :
    w < 2 ^ 64 := by
  have hword (x : UInt64) : x.toNat < 2 ^ 64 := x.toNat_lt
  simp only [auxWords, auxv, List.flatMap_cons, List.flatMap_nil, List.cons_append, List.nil_append,
    List.append_nil, List.mem_cons, List.not_mem_nil, or_false] at hw
  have h₁ := hword (info.phoff + info.virtAddr)
  have h₂ := hword info.phentsize
  have h₃ := hword info.phnum
  have h₄ := hword info.base
  have h₅ := hword info.entry
  omega

theorem mapM_length {f : Nat → Option Str} {ptrs : List Nat} {strs : List Str}
    (h : ptrs.mapM f = some strs) : strs.length = ptrs.length := by
  induction ptrs generalizing strs with
  | nil =>
    cases h
    rfl
  | cons p ptrs ih =>
    rw [List.mapM_cons] at h
    obtain ⟨str, -, hrest⟩ := Option.bind_eq_some_iff.mp h
    obtain ⟨strs', htail, hret⟩ := Option.bind_eq_some_iff.mp hrest
    rw [← Option.some.inj hret, List.length_cons, List.length_cons, ih htail]

namespace Laid

variable (h : Laid info args env img argv envp)

include h

/-- The count, the argument pointers and the zero behind them. -/
theorem argWords : WordsAt (image m img.blocks) img.sp (argv.length :: (argv ++ [0])) := by
  have hlen := h.args.length_eq
  refine h.descends.wordsAt h.argBlock fun w hw => ?_
  obtain rfl | hw := List.mem_cons.mp hw
  · have hle := h.argc_le
    omega
  · obtain hw | hw := List.mem_append.mp hw
    · exact (h.args.ptr_pos hw).2
    · rw [List.mem_singleton.mp hw]
      exact Nat.two_pow_pos 64

theorem envWords : WordsAt (image m img.blocks)
    (img.sp + 8 * (argv.length + 2) + 8 * (argv.length % 2)) (envp ++ [0]) := by
  refine h.descends.wordsAt h.envBlock fun w hw => ?_
  obtain hw | hw := List.mem_append.mp hw
  · exact (h.env.ptr_pos hw).2
  · rw [List.mem_singleton.mp hw]
    exact Nat.two_pow_pos 64

theorem auxWordsAt : WordsAt (image m img.blocks)
    (img.sp + 8 * (argv.length + 2) + 8 * (argv.length % 2) + 8 * (envp.length + 1) +
      8 * ((envp.length + 1) % 2)) (auxWords img.aux) := by
  refine h.descends.wordsAt h.auxBlock fun w hw => ?_
  obtain ⟨random, hr, haux⟩ := h.aux
  rw [haux] at hw
  exact auxWords_lt hr hw

theorem envp_lt : envp.length + 1 < USER_STACK_SIZE := by
  have hle := h.envc_le
  have hlen := h.env.length_eq
  simp only [USER_STACK_SIZE]
  omega

/-- The reader gets to the environment with the argument pointers. -/
theorem startup_eq :
    startup (image m img.blocks) img.sp = (do
      let (envp, stop) ← readPtrs (image m img.blocks) USER_STACK_SIZE (img.sp + 8 * (argv.length + 2))
      let aux ← readPairs (image m img.blocks) USER_STACK_SIZE stop
      let args ← argv.mapM (readStr (image m img.blocks) USER_STACK_SIZE)
      let env ← envp.mapM (readStr (image m img.blocks) USER_STACK_SIZE)
      some ⟨args, env, aux⟩) := by
  have hwords := h.argWords (m := m)
  have hargc : readWord (image m img.blocks) img.sp = argv.length := hwords.1
  have hargv := (wordsAt_append.mp hwords.2).1.map_range
  have hzero : readWord (image m img.blocks) (img.sp + 8 + 8 * argv.length) = 0 :=
    (wordsAt_append.mp hwords.2).2.1
  have hstop : img.sp + 8 + 8 * argv.length + 8 = img.sp + 8 * (argv.length + 2) := by omega
  simp only [startup, hargc, hargv, hzero, hstop, ne_eq, not_true, if_false]

/-- Without free words between the arrays everything is read back. -/
theorem startup_some (hastr : ∀ a ∈ args, UserStr a)
    (hestr : ∀ e ∈ env, UserStr e) (hargc : argv.length % 2 = 0) (henvc : envp.length % 2 = 1) :
    startup (image m img.blocks) img.sp = some ⟨args, env, img.aux⟩ := by
  have henv := h.envWords (m := m)
  have haux := h.auxWordsAt (m := m)
  rw [hargc, Nat.mul_zero, Nat.add_zero] at henv haux
  rw [show (envp.length + 1) % 2 = 0 by omega, Nat.mul_zero, Nat.add_zero] at haux
  have hptrs := readPtrs_eq henv (fun p hp => (h.env.ptr_pos hp).1.ne') (Nat.lt_of_succ_lt h.envp_lt)
  obtain ⟨random, hr, heq⟩ := h.aux
  rw [heq, auxWords_auxv] at haux
  have hpairs := readPairs_eq haux (fun p hp => auxvInit_ne_zero hp)
    (show (auxvInit info random).length < USER_STACK_SIZE by
      rw [show (auxvInit info random).length = 14 from rfl]; decide)
  rw [h.startup_eq, hptrs]
  simp only [Option.bind_eq_bind, Option.bind_some]
  rw [hpairs, h.args.mapM_readStr h.descends hastr, h.env.mapM_readStr h.descends hestr, heq, auxv_eq]
  rfl

/-- A free word behind the argument pointers is taken for the environment, or for its first entry. -/
theorem startup_argc_odd (hne : env ≠ []) (hargc : argv.length % 2 = 1) {args' : List Str}
    {aux : List (Nat × Nat)} : startup (image m img.blocks) img.sp ≠ some ⟨args', env, aux⟩ := by
  have hlen := h.env.length_eq
  have hpos := List.length_pos_of_ne_nil hne
  have henv := h.envWords (m := m)
  rw [hargc, Nat.mul_one] at henv
  -- The reader does not find as many pointers as there are.
  have hptrs : ∃ ptrs stop, readPtrs (image m img.blocks) USER_STACK_SIZE
      (img.sp + 8 * (argv.length + 2)) = some (ptrs, stop) ∧ ptrs.length ≠ env.length := by
    rw [show USER_STACK_SIZE = (USER_STACK_SIZE - 1) + 1 from rfl, readPtrs]
    by_cases hgap : readWord (image m img.blocks) (img.sp + 8 * (argv.length + 2)) = 0
    · rw [if_pos hgap]
      exact ⟨[], _, rfl, fun h => by rw [List.length_nil] at h; omega⟩
    · rw [if_neg hgap, readPtrs_eq henv (fun p hp => (h.env.ptr_pos hp).1.ne')
        (Nat.lt_sub_of_add_lt h.envp_lt)]
      exact ⟨_, _, rfl, fun h => by rw [List.length_cons] at h; omega⟩
  obtain ⟨ptrs, stop, hptrs, hcount⟩ := hptrs
  intro heq
  rw [h.startup_eq, hptrs] at heq
  simp only [Option.bind_eq_bind, Option.bind_some] at heq
  obtain ⟨aux', -, heq⟩ := Option.bind_eq_some_iff.mp heq
  obtain ⟨args'', -, heq⟩ := Option.bind_eq_some_iff.mp heq
  obtain ⟨env', hread, heq⟩ := Option.bind_eq_some_iff.mp heq
  cases heq
  exact hcount (mapM_length hread).symm

/-- A free word behind the environment pointers shifts the auxiliary vector by one word: the zero that is
the value of `AT_HWCAP` ends it. -/
theorem startup_envc_even (hargc : argv.length % 2 = 0) (henvc : envp.length % 2 = 0) {args' env' : List Str} :
    startup (image m img.blocks) img.sp ≠ some ⟨args', env', img.aux⟩ := by
  have henv := h.envWords (m := m)
  have haux := h.auxWordsAt (m := m)
  rw [hargc, Nat.mul_zero, Nat.add_zero] at henv haux
  rw [show (envp.length + 1) % 2 = 1 by omega, Nat.mul_one] at haux
  obtain ⟨random, -, hauxv⟩ := h.aux
  have hptrs := readPtrs_eq henv (fun p hp => (h.env.ptr_pos hp).1.ne') (Nat.lt_of_succ_lt h.envp_lt)
  obtain ⟨stop, hstop⟩ : ∃ stop, stop = img.sp + 8 * (argv.length + 2) + 8 * (envp.length + 1) := ⟨_, rfl⟩
  rw [← hstop] at hptrs haux
  -- At most two pairs are read.
  have hpairs : ∃ aux, readPairs (image m img.blocks) USER_STACK_SIZE stop = some aux ∧ aux.length ≤ 2 := by
    rw [hauxv] at haux
    have hzero : readWord (image m img.blocks) (stop + 16) = 0 := haux.2.1
    rw [show USER_STACK_SIZE = (USER_STACK_SIZE - 2) + 1 + 1 from rfl, readPairs]
    simp only
    by_cases hgap : readWord (image m img.blocks) stop = 0
    · rw [if_pos hgap]
      exact ⟨_, rfl, by simp only [List.length_singleton]; omega⟩
    · rw [if_neg hgap, readPairs]
      simp only
      rw [if_pos hzero]
      exact ⟨_, rfl, le_refl 2⟩
  obtain ⟨aux, hpairs, hcount⟩ := hpairs
  intro heq
  rw [h.startup_eq, hptrs] at heq
  simp only [Option.bind_eq_bind, Option.bind_some] at heq
  rw [hpairs, Option.bind_some] at heq
  obtain ⟨args'', -, heq⟩ := Option.bind_eq_some_iff.mp heq
  obtain ⟨env'', -, heq⟩ := Option.bind_eq_some_iff.mp heq
  have hsame : aux = img.aux := congrArg Startup.aux (Option.some.inj heq)
  have hfull : img.aux.length = 15 := by
    rw [hauxv]
    rfl
  rw [hsame, hfull] at hcount
  omega

end Laid

/-! ## The result -/

/-- A stack is built and read back just if both arrays leave no word free and fit in the arrays of
`exec` with the zeros behind them. -/
theorem buildStack_starts_iff (info : ElfInfo) {args env : List Str} (hne : env ≠ [])
    (hastr : ∀ a ∈ args, UserStr a) (hestr : ∀ e ∈ env, UserStr e) :
    Starts (buildStack info args env) args env ↔
      args.length % 2 = 0 ∧ env.length % 2 = 1 ∧ args.length ≤ 14 ∧ env.length ≤ 6 := by
  constructor
  · rintro ⟨img, hbuild, hread, -, -⟩
    obtain ⟨hargs, henv⟩ := buildStack_bounds hbuild
    obtain ⟨img', argv, envp, hbuild', hlaid⟩ := buildStack_laid info hargs henv hne hastr hestr
    cases hbuild.symm.trans hbuild'
    have hargc := hlaid.args.length_eq
    have henvc := hlaid.env.length_eq
    have hread := hread fun _ => 0
    have heven : args.length % 2 = 0 := by
      by_contra hodd
      exact hlaid.startup_argc_odd hne (by omega) hread
    have hodd : env.length % 2 = 1 := by
      by_contra heven'
      exact hlaid.startup_envc_even (by omega) (by omega) hread
    exact ⟨heven, hodd, hargs, henv⟩
  · rintro ⟨heven, hodd, hargs, henv⟩
    obtain ⟨img, argv, envp, hbuild, hlaid⟩ := buildStack_laid info hargs henv hne hastr hestr
    refine ⟨img, hbuild, fun m => ?_, hlaid.aligned, hlaid.descends.pairwise⟩
    have hargc := hlaid.args.length_eq
    have henvc := hlaid.env.length_eq
    exact hlaid.startup_some hastr hestr (by omega) (by omega)

theorem keptEnv_cons (e : Str) (envp : List Str) : keptEnv (e :: envp) =
    if (str "LD_LIBRARY_PATH=").isPrefixOf e then keptEnv envp else e :: keptEnv envp := by
  rw [keptEnv, List.filter_cons]
  cases (str "LD_LIBRARY_PATH=").isPrefixOf e <;> rfl

theorem envLoop_eq {envp : List Str} {n : Nat} (h : n + (keptEnv envp).length < 19) :
    envLoop envp n = .ok (keptEnv envp) := by
  induction envp generalizing n with
  | nil =>
    rw [envLoop, if_neg (by omega)]
    rfl
  | cons e envp ih =>
    rw [envLoop, if_neg (by omega)]
    rw [keptEnv_cons] at h ⊢
    by_cases hld : (str "LD_LIBRARY_PATH=").isPrefixOf e
    · rw [if_pos hld] at h ⊢
      rw [if_pos hld, ih h]
    · rw [if_neg hld] at h ⊢
      rw [List.length_cons] at h
      rw [if_neg hld, ih (by omega)]
      rfl

theorem envLoop_ok {envp env : List Str} {n : Nat} (h : envLoop envp n = .ok env) : env = keptEnv envp := by
  induction envp generalizing n env with
  | nil =>
    rw [envLoop] at h
    split at h
    · cases h
    · cases h
      rfl
  | cons e envp ih =>
    rw [envLoop] at h
    rw [keptEnv_cons]
    split at h
    · cases h
    · by_cases hld : (str "LD_LIBRARY_PATH=").isPrefixOf e
      · rw [if_pos hld] at h ⊢
        exact ih h
      · rw [if_neg hld] at h ⊢
        cases hrest : envLoop envp (n + 1) with
        | error stop =>
          rw [hrest] at h
          cases h
        | ok env' =>
          rw [hrest] at h
          cases h
          rw [ih hrest]

theorem userStr_execArgs {path : Str} {uargv : List Str} (h : ∀ a ∈ uargv, UserStr a) :
    ∀ a ∈ execArgs path uargv, UserStr a := by
  intro a ha
  rw [execArgs] at ha
  split at ha
  · obtain rfl | ha := List.mem_cons.mp ha
    · exact ⟨by decide, by decide⟩
    · obtain rfl | ha := List.mem_cons.mp ha
      · exact ⟨by decide, by decide⟩
      · exact h a (List.mem_of_mem_take ha)
  · exact h a ha

/-- Without redirections all arguments are those of the program. -/
theorem exec_eq (info : ElfInfo) {path : Str} {uargv env : List Str}
    (h : ∀ a ∈ uargv, isRedirection a = false) :
    exec info path uargv env = buildStack info (execArgs path uargv) env := by
  have hall : (execArgs path uargv).takeWhile (fun arg => !isRedirection arg) = execArgs path uargv := by
    refine List.takeWhile_eq_self_iff.mpr fun a ha => ?_
    have hplain : isRedirection a = false := by
      rw [execArgs] at ha
      split at ha
      · obtain rfl | ha := List.mem_cons.mp ha
        · decide
        · obtain rfl | ha := List.mem_cons.mp ha
          · decide
          · exact h a (List.mem_of_mem_take ha)
      · exact h a ha
    rw [hplain]
    rfl
  rw [exec, hall]

theorem length_le_execArgs {path : Str} {uargv : List Str} (h : (execArgs path uargv).length ≤ 14) :
    uargv.length < MAXARG := by
  rw [execArgs] at h
  simp only [MAXARG] at h ⊢
  split at h
  · rw [List.length_cons, List.length_cons, List.length_take] at h
    omega
  · omega

theorem sysExecve_eq (info : ElfInfo) {path : Str} {uargv uenvp : List Str}
    (hplain : ∀ a ∈ uargv, isRedirection a = false) (hargc : uargv.length < MAXARG)
    (henvc : 1 + (keptEnv uenvp).length < 19) : sysExecve info path uargv uenvp =
      buildStack info (execArgs path uargv) (ldPath :: keptEnv uenvp) := by
  simp only [sysExecve, bind, Except.bind]
  rw [if_neg (Nat.not_le_of_lt hargc), envLoop_eq henvc]
  exact exec_eq info hplain

end SC7.Exec
