-- SUMMARY: Where `mmap` puts its area, and what a failed `mmap` leaves behind.
import SC7.Mem.Munmap
import SC7.Mem.SpaceSound

/-!
# The place of a new mapping

Without `MAP_FIXED`, `mmap` rounds the hint, or an address of its own choice, up to a page and asks
`alloc_vma` for the area. `alloc_vma` looks for the place in the list, but if an area has the whole
range already, it answers with that area, and `mmap` overwrites it. The hint is never compared with
the break. Once the area is in the list, no error takes it out again.
-/

namespace SC7

open Function (update)

/-- The open files: `file` names the `struct file` behind a descriptor. -/
structure Files where
  file : Int → Nat
  fCount : Nat → Int

/-- `filedup(p->ofile[fd])`. -/
def Files.filedup (fd : Int) (F : Files) : Option Files :=
  if F.fCount (F.file fd) < 1 then none
  else some { F with fCount := update F.fCount (F.file fd) (F.fCount (F.file fd) + 1) }

namespace Space

section Call

variable (arch : Arch)

/-- `mmap` with the reference counts. The mapping of a file takes a reference to it as its last step;
with `PROT_NONE`, `mmap` returns before it gets there. -/
def mmapCall (env : FileEnv) (start : Nat) (len prot : Int) (flags : Nat) (fd : Int) (offset : Nat)
    (s : Space) (F : Files) : Option (Int × Space × Files) :=
  (mmap arch env start len prot flags fd offset s).bind fun (r, s) =>
    (if 0 ≤ r ∧ prot ≠ PROT_NONE ∧ mmapFd flags fd ≠ -1 then F.filedup (mmapFd flags fd)
    else some F).map fun F => (r, s, F)

end Call

/-- The range of the area that `mmap` asks for. -/
def placeStart (start : Nat) (len : Int) (s : Space) : Nat := pgRoundUp (mmapAddr start len s)

def placeEnd (start : Nat) (len : Int) (s : Space) : Nat := pgRoundUp (toU64 (mmapAddr start len s + len))

/-- A successful `mmap`: there is one more area, of whole pages, which shares no address with an area
that was there before (the stack is one of them) or with the heap, and `r` is its start. -/
def PlacesOne (r : Int) (s s' : Space) : Prop :=
  ∃ before w after, s.vmas = before ++ after ∧ s'.vmas = before ++ w :: after ∧ r = w.addr ∧
    w.addr % PGSIZE = 0 ∧ w.end_ % PGSIZE = 0 ∧
    (∀ v ∈ s.vmas, ∀ a, w.Has a → ¬v.Has a) ∧ ∀ a, w.Has a → s.sz ≤ a

/-- A failed `mmap`: nothing has changed. -/
structure Untouched (s s' : Space) (F F' : Files) : Prop where
  vmas : s'.vmas = s.vmas
  leaf : s'.leaf = s.leaf
  fCount : F'.fCount = F.fCount

/-- An area has the whole range already. -/
def Contained (lo hi : Nat) (vs : List Vma) : Prop :=
  ∃ v ∈ vs, v.addr ≤ lo ∧ lo < v.end_ ∧ v.addr < hi ∧ hi ≤ v.end_

instance (lo hi : Nat) (vs : List Vma) : Decidable (Contained lo hi vs) :=
  inferInstanceAs (Decidable (∃ v ∈ vs, _))

/-- The errors that `mmap` finds in its arguments, before it changes anything. -/
def Rejected (len : Int) (flags : Nat) (fd : Int) (s : Space) : Prop :=
  (mmapError len flags (mmapFd flags fd) s).isSome = true

variable {arch : Arch} {env : FileEnv} {start flags offset perm lo hi : Nat} {len prot fd r : Int}
  {s s' t : Space} {F F' : Files} {z : Focus} {v : Vma} {L before b a : List Vma}

/-! ## The search of `alloc_vma` -/

theorem findSlot_clear (hs : Vma.Sorted L) (hbefore : ∀ v ∈ before, v.end_ ≤ lo)
    (h : findSlot lo hi before L = some (.inl (b, a))) :
    (∀ v ∈ b, v.end_ ≤ lo) ∧ ∀ v ∈ a, hi ≤ v.addr := by
  induction L generalizing before with
  | nil =>
    cases h
    exact ⟨hbefore, fun v hv => by cases hv⟩
  | cons v vs ih =>
    rw [findSlot] at h
    split at h
    · rename_i hle
      cases h
      refine ⟨hbefore, ?_⟩
      intro w hw
      rcases List.mem_cons.mp hw with rfl | hw
      · exact hle
      · have hvw := (List.pairwise_cons.mp hs.1).1 w hw
        exact hle.trans ((hs.2 v List.mem_cons_self).le.trans hvw)
    split at h
    · rename_i hge
      refine ih hs.tail ?_ h
      intro w hw
      rcases List.mem_append.mp hw with hw | hw
      · exact hbefore w hw
      · rw [List.mem_singleton.mp hw]
        exact hge
    split at h <;> cases h

theorem findSlot_put (h : findSlot lo hi before L = some (.inr z)) : z.put z.vma = before ++ L := by
  induction L generalizing before with
  | nil => cases h
  | cons v vs ih =>
    rw [findSlot] at h
    split at h
    · cases h
    split at h
    · rw [ih h, List.append_assoc, List.singleton_append]
    split at h
    · cases h
      rfl
    · cases h

/-- What `alloc_mmap_vma` answers with: an area of its own between the others, or, if one has the
range already, that one. -/
inductive Answer (lo hi : Nat) (s : Space) (z : Focus) : Prop
  | new (free : ¬Contained lo hi s.vmas) (list : z.before ++ z.after = s.vmas)
      (addr : z.vma.addr = lo) (end_ : z.vma.end_ = hi)
      (before : ∀ v ∈ z.before, v.end_ ≤ lo) (after : ∀ v ∈ z.after, hi ≤ v.addr)
  | old (contained : Contained lo hi s.vmas) (length : (z.put z.vma).length = s.vmas.length)

theorem allocVma_answer {addr : Nat} {alloc : Bool} (hs : Vma.Sorted s.vmas)
    (h : allocVma arch addr len perm alloc s = some (z, t)) :
    Answer (pgRoundUp addr) (pgRoundUp (toU64 (addr + len))) s z := by
  rw [allocVma] at h
  split at h
  · cases h
  · rename_i z' hslot
    cases h
    obtain ⟨hmem, hin⟩ := findSlot_inr hslot
    exact .old ⟨z.vma, hmem, hin⟩ (congrArg List.length (findSlot_put hslot))
  · rename_i b a hslot
    obtain ⟨s₁, -, h⟩ := Option.bind_eq_some_iff.mp h
    obtain ⟨s₂, -, heq⟩ := Option.map_eq_some_iff.mp h
    cases heq
    have hlist : b ++ a = s.vmas := findSlot_inl hslot
    obtain ⟨hb, ha⟩ := findSlot_clear hs (fun v hv => by cases hv) hslot
    have hclear : ∀ v ∈ s.vmas, v.end_ ≤ pgRoundUp addr ∨ pgRoundUp (toU64 (addr + len)) ≤ v.addr := by
      intro v hv
      rw [← hlist] at hv
      exact (List.mem_append.mp hv).imp (hb v) (ha v)
    refine .new ?_ hlist rfl rfl hb ha
    rintro ⟨v, hv, -, hlt, hgt, -⟩
    rcases hclear v hv with hle | hle
    · exact absurd hlt hle.not_gt
    · exact absurd hgt hle.not_gt

theorem allocMmapVma_answer (hs : Vma.Sorted s.vmas)
    (h : allocMmapVma arch flags start len perm fd offset s = some (z, t)) :
    Answer (placeStart start len s) (placeEnd start len s) s z := by
  obtain ⟨addr, s₀, hstart⟩ : ∃ addr s₀, (if start = 0 then s.chooseStart len else (start, s)) = (addr, s₀) :=
    ⟨_, _, rfl⟩
  have hvmas : s₀.vmas = s.vmas := by
    split at hstart
    · have hs₀ : (s.chooseStart len).2 = s₀ := by rw [hstart]
      rw [← hs₀]
      exact chooseStart_same.1
    · cases hstart
      rfl
  have haddr : mmapAddr start len s = addr := by
    unfold mmapAddr
    split at hstart
    · rw [if_pos ‹_›, hstart]
    · rw [if_neg ‹_›]
      cases hstart
      rfl
  rw [allocMmapVma, hstart] at h
  obtain ⟨⟨z', s₁⟩, halloc, heq⟩ := Option.map_eq_some_iff.mp h
  cases heq
  have hanswer := allocVma_answer (by rwa [hvmas]) halloc
  unfold placeStart placeEnd
  rw [haddr]
  cases hanswer with
  | new free list addr end_ before after =>
    rw [hvmas] at free list
    exact .new free list addr end_ before after
  | old contained length =>
    rw [hvmas] at contained length
    refine .old contained ?_
    rw [← length]
    simp [Focus.put]

/-! ## After the area is there -/

/-- The rest of `mmap` changes neither the place of the area nor the other areas. -/
structure Puts (z : Focus) (v : Vma) (start : Nat) (r : Int) (s' : Space) : Prop where
  vmas : ∃ w, s'.vmas = z.put w ∧ w.addr = v.addr ∧ w.end_ = v.end_
  result : r = start ∨ r < 0

theorem sharedMap_puts {f : Option File} {fsize : Int} {shp : Nat}
    (h : sharedMap arch env start len perm f fsize shp z v s = some (r, s')) : Puts z v start r s' := by
  rw [sharedMap] at h
  split at h
  · rename_i hstat
    cases h
    exact ⟨⟨v, rfl, rfl, rfl⟩, .inr hstat.2⟩
  generalize (if f.isSome = true then min fsize len else len) = len' at h
  generalize hv' : (if f.isSome = true then { v with fsize := toU64 fsize } else v) = v' at h
  have hplace : v'.addr = v.addr ∧ v'.end_ = v.end_ := by
    rw [← hv']
    split <;> exact ⟨rfl, rfl⟩
  obtain ⟨⟨ok, s₁⟩, hloop, hrest⟩ := Option.bind_eq_some_iff.mp h
  have hs₁ : s₁.vmas = z.put v' := sharedLoop_vmas hloop
  dsimp only at hrest
  split at hrest
  · cases hrest
    exact ⟨⟨v', hs₁, hplace⟩, .inr (by decide)⟩
  split at hrest
  · cases hrest
    exact ⟨⟨v', hs₁, hplace⟩, .inl rfl⟩
  split at hrest
  · rename_i hseek
    cases hrest
    exact ⟨⟨v', hs₁, hplace⟩, .inr hseek⟩
  · cases hrest
    refine ⟨⟨v', sharedRead_vmas.trans hs₁, hplace⟩, ?_⟩
    split
    · exact .inl rfl
    · exact .inr (by decide)

theorem mmapPages_puts (h : mmapPages arch env start len prot perm flags fd z v s = some (r, s')) :
    Puts z v start r s' := by
  rw [mmapPages] at h
  dsimp only at h
  split at h
  · cases h
    exact ⟨⟨v, rfl, rfl, rfl⟩, .inl rfl⟩
  split at h
  · obtain ⟨⟨shp, s₁⟩, -, h⟩ := Option.bind_eq_some_iff.mp h
    obtain ⟨hvmas, hr⟩ := sharedMap_puts h
    exact ⟨hvmas, hr⟩
  split at h
  · obtain ⟨⟨ok, w, s₁⟩, hloop, heq⟩ := Option.map_eq_some_iff.mp h
    cases heq
    have harea := anonLoop_area hloop
    refine ⟨⟨w, rfl, harea.addr, harea.end_⟩, ?_⟩
    split
    · exact .inl rfl
    · exact .inr (by decide)
  split at h
  · rename_i hseek
    cases h
    exact ⟨⟨v, rfl, rfl, rfl⟩, .inr hseek⟩
  · obtain ⟨⟨w, s₁⟩, hloop, heq⟩ := Option.map_eq_some_iff.mp h
    cases heq
    have harea := fileLoop_area hloop
    exact ⟨⟨w, rfl, harea.addr, harea.end_⟩, .inl rfl⟩

theorem mmapRange_puts (hs : Vma.Sorted s.vmas) (hfixed : Bits.has flags MAP_FIXED = false)
    (h : mmapRange arch env start len prot flags fd offset s = some (r, s')) :
    ∃ z, Answer (placeStart start len s) (placeEnd start len s) s z ∧ Puts z z.vma z.vma.addr r s' := by
  rw [mmapRange] at h
  simp only [hfixed, Bool.false_eq_true, if_false, Option.bind_some] at h
  obtain ⟨⟨z, s₁⟩, halloc, h⟩ := Option.bind_eq_some_iff.mp h
  obtain ⟨hvmas, hr⟩ := mmapPages_puts h
  exact ⟨z, allocMmapVma_answer hs halloc, hvmas, hr⟩

theorem mmapError_neg {e : Int} (h : mmapError len flags fd s = some e) : e < 0 := by
  unfold mmapError mmapFileError at h
  split at h
  · cases h
    decide
  split at h
  · cases h
    decide
  split at h
  · cases h
    decide
  split at h
  · split at h
    · cases h
      decide
    split at h
    · cases h
      decide
    split at h
    · cases h
      decide
    · cases h
  · cases h

theorem mmap_rejected (h : mmap arch env start len prot flags fd offset s = some (r, s'))
    (hrej : Rejected len flags fd s) : r < 0 ∧ s' = s := by
  obtain ⟨e, he⟩ := Option.isSome_iff_exists.mp hrej
  rw [mmap, he] at h
  cases h
  exact ⟨mmapError_neg he, rfl⟩

theorem mmap_accepted (h : mmap arch env start len prot flags fd offset s = some (r, s'))
    (hrej : ¬Rejected len flags fd s) :
    mmapRange arch env start len prot flags (mmapFd flags fd) offset s = some (r, s') := by
  have he : mmapError len flags (mmapFd flags fd) s = none := by
    unfold Rejected at hrej
    simpa using hrej
  rwa [mmap, he] at h

theorem mmapCall_mmap (h : mmapCall arch env start len prot flags fd offset s F = some (r, s', F')) :
    mmap arch env start len prot flags fd offset s = some (r, s') ∧ (r < 0 → F' = F) := by
  rw [mmapCall] at h
  obtain ⟨⟨r', t⟩, hmmap, h⟩ := Option.bind_eq_some_iff.mp h
  obtain ⟨F'', hdup, heq⟩ := Option.map_eq_some_iff.mp h
  cases heq
  refine ⟨hmmap, fun hneg => ?_⟩
  rw [if_neg (fun hc => absurd hc.1 hneg.not_ge)] at hdup
  cases hdup
  rfl

/-! ## Success and failure -/

theorem Focus.length_put (z : Focus) (v w : Vma) : (z.put v).length = (z.put w).length := by
  simp [Focus.put]

/-- Of two areas that make one list out of another, both are the same. -/
theorem inserted_unique {before after before' after' : List Vma} {v w : Vma}
    (hlist : before ++ after = before' ++ after')
    (h : before ++ v :: after = before' ++ w :: after') : v = w := by
  have hperm : (v :: (before ++ after)).Perm (w :: (before ++ after)) := by
    have hl : (before ++ v :: after).Perm (v :: (before ++ after)) := List.perm_middle
    have hr : (before' ++ w :: after').Perm (w :: (before' ++ after')) := List.perm_middle
    rw [← hlist, ← h] at hr
    exact hl.symm.trans hr
  exact (Multiset.cons_inj_left (s := ((before ++ after : List Vma) : Multiset Vma))).mp
    (Multiset.coe_eq_coe.mpr hperm)

/-- The only area that a call can have put into the list. -/
theorem PlacesOne.area (h : PlacesOne r s s') (hlist : z.before ++ z.after = s.vmas) {w : Vma}
    (hput : s'.vmas = z.put w) :
    (∀ v ∈ s.vmas, ∀ a, w.Has a → ¬v.Has a) ∧ ∀ a, w.Has a → s.sz ≤ a := by
  obtain ⟨before, x, after, hold, hnew, -, -, -, hclear, hheap⟩ := h
  obtain rfl : w = x := by
    refine inserted_unique (hlist.trans hold) ?_
    rw [← hnew, hput]
    rfl
  exact ⟨hclear, hheap⟩

theorem PlacesOne.length (h : PlacesOne r s s') : s'.vmas.length = s.vmas.length + 1 := by
  obtain ⟨before, w, after, hold, hnew, -⟩ := h
  rw [hold, hnew]
  simp only [List.length_append, List.length_cons]
  omega

theorem placesOne_iff (ha : Answer lo hi s z) (hp : Puts z z.vma z.vma.addr r s') (hr : 0 ≤ r)
    (hlo : lo % PGSIZE = 0) (hhi : hi % PGSIZE = 0) :
    PlacesOne r s s' ↔ ¬Contained lo hi s.vmas ∧ (lo < hi → s.sz ≤ lo) := by
  obtain ⟨⟨w, hput, haddr, hend⟩, hres⟩ := hp
  cases ha with
  | new free list addr end_ before after =>
    rw [addr] at haddr
    rw [end_] at hend
    constructor
    · intro hone
      obtain ⟨-, hheap⟩ := hone.area list hput
      refine ⟨free, fun hlt => hheap lo ?_⟩
      rw [Vma.Has, haddr, hend]
      exact ⟨le_rfl, hlt⟩
    · rintro ⟨-, hheap⟩
      have hstart : r = w.addr := by
        rcases hres with hres | hneg
        · rw [hres, haddr, addr]
        · exact absurd hr hneg.not_ge
      refine ⟨z.before, w, z.after, list.symm, hput, hstart, ?_, ?_, ?_, ?_⟩
      · rwa [haddr]
      · rwa [hend]
      · rintro v hv a ⟨hle, hlt⟩ ⟨hvle, hvlt⟩
        rw [haddr] at hle
        rw [hend] at hlt
        rw [← list] at hv
        rcases (List.mem_append.mp hv).imp (before v) (after v) with hb | hb
        · exact absurd (hvlt.trans_le (hb.trans hle)) (lt_irrefl a)
        · exact absurd (hlt.trans_le (hb.trans hvle)) (lt_irrefl a)
      · rintro a ⟨hle, hlt⟩
        rw [haddr] at hle
        rw [hend] at hlt
        exact (hheap (hle.trans_lt hlt)).trans hle
  | old contained length =>
    refine ⟨fun hone => ?_, fun h => absurd contained h.1⟩
    have hlen := hone.length
    rw [hput, z.length_put w z.vma, length] at hlen
    omega

/-- A new area stays in the list whatever happens after. -/
theorem Puts.changed (hp : Puts z v start r s') (hlist : z.before ++ z.after = s.vmas) :
    s'.vmas ≠ s.vmas := by
  obtain ⟨⟨w, hput, -⟩, -⟩ := hp
  intro heq
  have hlen := congrArg List.length heq
  rw [hput, ← hlist, Focus.put] at hlen
  simp only [List.length_append, List.length_cons] at hlen
  omega

/-- No descriptor is open. -/
def noFiles : Files := ⟨fun _ => 0, fun _ => 0⟩

/-- A file system that is not asked. -/
def idleEnv : FileEnv := ⟨0, 0, 0, fun _ => 0⟩

end Space

end SC7
