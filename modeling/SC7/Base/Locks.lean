-- SUMMARY: Code that takes and drops spinlocks on one CPU, and when it leaves the locks as it found them.
import Mathlib.Data.List.Perm.Basic

/-!
# Spinlocks on one CPU

What a piece of code does to the locks of the CPU that runs it. A lock that
another CPU holds is waited for and is invisible here; a lock that this CPU
holds already is a panic of `acquire`, one that it does not hold a panic of
`release`. `Keeps` is the discipline: whatever the code computes does not
depend on the locks, and it returns with the ones it was called with.
-/

namespace Locks

/-- The locks held by a CPU and the nesting depth of its `push_off`s. -/
structure Cpu (L : Type) where
  held : List L
  noff : Nat
  deriving DecidableEq, Repr

/-- Why a lock operation panics. -/
inductive Fault (L : Type) where
  | doubleAcquire (l : L)
  | notHeld (l : L)
  | popOff
  deriving DecidableEq, Repr

/-- How a piece of code ends: it returns, a lock operation panics, or something else does. -/
inductive Result (L α : Type) where
  | returned (a : α) (cpu : Cpu L)
  | fault (f : Fault L)
  | died
  deriving DecidableEq, Repr

/-- Code that runs on a CPU. -/
def Act (L α : Type) : Type := Cpu L → Result L α

variable {L α β : Type}

namespace Act

def pure (a : α) : Act L α := fun c => .returned a c

def bind (m : Act L α) (f : α → Act L β) : Act L β := fun c =>
  match m c with
  | .returned a c => f a c
  | .fault e => .fault e
  | .died => .died

/-- A panic that is not about a lock, or a failed assertion. -/
def die : Act L α := fun _ => .died

/-- Code that touches no lock. -/
def lift : Option α → Act L α
  | none => die
  | some a => pure a

end Act

instance : Monad (Act L) where
  pure := Act.pure
  bind := Act.bind

variable [DecidableEq L]

def pushOff : Act L Unit := fun c => .returned () { c with noff := c.noff + 1 }

def popOff : Act L Unit := fun c =>
  if c.noff < 1 then .fault .popOff else .returned () { c with noff := c.noff - 1 }

/-- The part of `acquire` between `push_off` and its return: `holding` is checked, and the lock is
this CPU's once the loop on it ends. -/
def take (l : L) : Act L Unit := fun c =>
  if l ∈ c.held then .fault (.doubleAcquire l) else .returned () { c with held := l :: c.held }

/-- The part of `release` before `pop_off`. -/
def drop (l : L) : Act L Unit := fun c =>
  if l ∈ c.held then .returned () { c with held := c.held.erase l } else .fault (.notHeld l)

/-- `acquire(&l)`. -/
def acquire (l : L) : Act L Unit := do
  pushOff
  take l

/-- `release(&l)`. -/
def release (l : L) : Act L Unit := do
  drop l
  popOff

/-- `acquire(&l)`, some code, `release(&l)`. -/
def locked (l : L) (m : Act L α) : Act L α := do
  acquire l
  let a ← m
  release l
  return a

/-! ## Running -/

section Running

variable {m : Act L α} {f : α → Act L β} {c c' : Cpu L} {a : α} {l : L}

omit [DecidableEq L]

@[simp] theorem pure_apply : (pure a : Act L α) c = .returned a c := rfl

@[simp] theorem die_apply : (Act.die : Act L α) c = .died := rfl

@[simp] theorem lift_none : (Act.lift none : Act L α) c = .died := rfl

@[simp] theorem lift_some : (Act.lift (some a) : Act L α) c = .returned a c := rfl

theorem bind_returned (h : m c = .returned a c') : (m >>= f) c = f a c' := by
  change Act.bind m f c = _
  simp only [Act.bind, h]

theorem bind_died (h : m c = .died) : (m >>= f) c = .died := by
  change Act.bind m f c = _
  simp only [Act.bind, h]

theorem bind_fault {e : Fault L} (h : m c = .fault e) : (m >>= f) c = .fault e := by
  change Act.bind m f c = _
  simp only [Act.bind, h]

variable [DecidableEq L]

theorem acquire_apply (h : l ∉ c.held) : acquire l c = .returned () ⟨l :: c.held, c.noff + 1⟩ := by
  rw [acquire, bind_returned (show pushOff c = .returned () ⟨c.held, c.noff + 1⟩ from rfl)]
  exact if_neg h

theorem acquire_held (h : l ∈ c.held) : acquire l c = .fault (.doubleAcquire l) := by
  rw [acquire, bind_returned (show pushOff c = .returned () ⟨c.held, c.noff + 1⟩ from rfl)]
  exact if_pos h

theorem release_not_held (h : l ∉ c.held) : release l c = .fault (.notHeld l) := by
  rw [release]
  exact bind_fault (if_neg h)

theorem release_apply (h : l ∈ c.held) (hoff : 0 < c.noff) :
    release l c = .returned () ⟨c.held.erase l, c.noff - 1⟩ := by
  rw [release, bind_returned (show drop l c = _ from if_pos h)]
  exact if_neg (Nat.not_lt.mpr hoff)

/-- Dropping the lock taken last. -/
theorem release_head : release l ⟨l :: c.held, c.noff + 1⟩ = .returned () c := by
  rw [release_apply (List.mem_cons_self ..) (Nat.succ_pos _)]
  simp

/-- Dropping a lock never leaves the locks as they were. -/
theorem release_changes (c : Cpu L) : ∀ a c', release l c = .returned a c' → ¬c'.held.Perm c.held := by
  intro a c' h hperm
  by_cases hl : l ∈ c.held
  · have hlen := hperm.length_eq
    by_cases hoff : 0 < c.noff
    · rw [release_apply hl hoff] at h
      cases h
      have hpos : 0 < c.held.length := List.length_pos_of_mem hl
      rw [List.length_erase_of_mem hl] at hlen
      omega
    · have hfault : release l c = .fault .popOff := by
        rw [release, bind_returned (show drop l c = _ from if_pos hl)]
        exact if_pos (Nat.lt_one_iff.mpr (Nat.eq_zero_of_not_pos hoff))
      rw [hfault] at h
      cases h
  · rw [release_not_held hl] at h
    cases h

end Running

/-! ## Keeping the locks -/

/-- The CPU holds none of the locks in `S`. -/
def Cpu.Avoids (S : L → Prop) (c : Cpu L) : Prop := ∀ l, S l → l ∉ c.held

/-- Code that may take the locks in `S` and returns with the locks it was called with. -/
def Keeps (S : L → Prop) (m : Act L α) : Prop := ∃ r : Option α, ∀ c : Cpu L, c.Avoids S → m c = Act.lift r c

/-- What the code returns when it is called with no lock held. -/
def outcome (m : Act L α) : Option α :=
  match m ⟨[], 0⟩ with
  | .returned a _ => some a
  | _ => none

section Keeping

variable {S T : L → Prop} {m : Act L α} {f : α → Act L β} {c : Cpu L} {a : α} {l : L}

omit [DecidableEq L]

theorem Keeps.apply (h : Keeps S m) (hc : c.Avoids S) : m c = Act.lift (outcome m) c := by
  obtain ⟨r, hr⟩ := h
  have hout : outcome m = r := by
    rw [outcome, hr ⟨[], 0⟩ (fun _ _ h => by cases h)]
    cases r with
    | none => rfl
    | some a => rfl
  rw [hout]
  exact hr c hc

theorem Keeps.returned (h : Keeps S m) (hc : c.Avoids S) (ho : outcome m = some a) : m c = .returned a c := by
  rw [h.apply hc, ho, lift_some]

theorem Keeps.died (h : Keeps S m) (hc : c.Avoids S) (ho : outcome m = none) : m c = .died := by
  rw [h.apply hc, ho, lift_none]

theorem keeps_pure : Keeps S (pure a : Act L α) := ⟨some a, fun _ _ => rfl⟩

theorem keeps_die : Keeps S (Act.die : Act L α) := ⟨none, fun _ _ => rfl⟩

theorem keeps_lift {r : Option α} : Keeps S (Act.lift r : Act L α) := ⟨r, fun _ _ => rfl⟩

theorem Keeps.mono (h : Keeps S m) (hST : ∀ l, S l → T l) : Keeps T m := by
  obtain ⟨r, hr⟩ := h
  exact ⟨r, fun c hc => hr c fun l hl => hc l (hST l hl)⟩

theorem Keeps.bind (hm : Keeps S m) (hf : ∀ a, Keeps S (f a)) : Keeps S (m >>= f) := by
  cases ho : outcome m with
  | none => exact ⟨none, fun c hc => bind_died (hm.died hc ho)⟩
  | some a =>
    refine ⟨outcome (f a), fun c hc => ?_⟩
    rw [bind_returned (hm.returned hc ho)]
    exact (hf a).apply hc

variable [DecidableEq L]

/-- A critical section: what runs inside must not take the lock again. -/
theorem Keeps.locked (hm : Keeps S m) (hl : ¬S l) (hST : ∀ l, S l → T l) (hT : T l) :
    Keeps T (locked l m) := by
  have hinside : ∀ c : Cpu L, c.Avoids T → Cpu.Avoids S ⟨l :: c.held, c.noff + 1⟩ := by
    intro c hc k hk hmem
    rcases List.mem_cons.mp hmem with rfl | hmem
    · exact hl hk
    · exact hc k (hST k hk) hmem
  refine ⟨outcome m, fun c hc => ?_⟩
  rw [Locks.locked, bind_returned (acquire_apply (hc l hT))]
  cases ho : outcome m with
  | none => rw [bind_died (hm.died (hinside c hc) ho), lift_none]
  | some a => rw [bind_returned (hm.returned (hinside c hc) ho), bind_returned release_head, lift_some,
      pure_apply]

end Keeping

/-! ## The discipline -/

/-- An end with no panic of a lock operation, where a return holds what `c` held and the locks in
`gives`, which go with the value that is returned. -/
def Result.Kept (gives : α → List L) (c : Cpu L) : Result L α → Prop
  | .returned a c' => c'.held.Perm (gives a ++ c.held) ∧ c'.noff = (gives a).length + c.noff
  | .fault _ => False
  | .died => True

/-- Called on `c`, the code keeps the locks of `c`. -/
def Disciplined (gives : α → List L) (m : Act L α) (c : Cpu L) : Prop := (m c).Kept gives c

/-- Nothing is held on top of what was held at the call. -/
def noLocks : α → List L := fun _ => []

section Discipline

variable {S : L → Prop} {gives : α → List L} {m : Act L α} {c : Cpu L} {a : α}

omit [DecidableEq L]

theorem kept_same {r : Result L α} (h : r = .returned a c) : r.Kept noLocks c := by
  rw [h]
  exact ⟨.refl _, (Nat.zero_add _).symm⟩

theorem kept_died {r : Result L α} (h : r = .died) : r.Kept gives c := by
  rw [h]
  trivial

theorem not_kept_fault {r : Result L α} {e : Fault L} (h : r = .fault e) : ¬r.Kept gives c := by
  rw [h]
  exact id

theorem Keeps.disciplined (h : Keeps S m) (hc : c.Avoids S) : Disciplined noLocks m c := by
  cases ho : outcome m with
  | none => exact kept_died (h.died hc ho)
  | some a => exact kept_same (h.returned hc ho)

end Discipline

end Locks
