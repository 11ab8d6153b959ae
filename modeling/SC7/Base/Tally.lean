-- SUMMARY: Counting how often a value occurs in a finite table, when one entry of the table changes.
import Mathlib.Algebra.Order.BigOperators.Group.Finset
import Mathlib.Data.Fintype.BigOperators

/-!
# Tallies

A table refers to objects; the tally of an object is the number of entries that
refer to it. The tallies are integers, so that a change is a difference.
-/

namespace Tally

open Function (update update_of_ne update_self)

variable {ι α β : Type*}

/-- One if the entry refers to the object, else zero. -/
def one [DecidableEq α] (entry : Option α) (a : α) : Int := if entry = some a then 1 else 0

section One

variable [DecidableEq α] {entry : Option α} {a b : α}

@[simp] theorem one_none : one (none : Option α) a = 0 := rfl

theorem one_nonneg : 0 ≤ one entry a := by
  rw [one]
  split <;> decide

theorem one_self : one (some a) a = 1 := if_pos rfl

theorem one_of_ne (h : a ≠ b) : one (some a) b = 0 := if_neg fun heq => h (Option.some.inj heq)

/-- Raising the counter of one object, as an indicator. -/
theorem update_add (count : α → Int) (d : Int) :
    update count a (count a + d) b = count b + d * one (some a) b := by
  by_cases h : a = b
  · subst h
    rw [update_self, one_self, Int.mul_one]
  · rw [update_of_ne (Ne.symm h), one_of_ne h, Int.mul_zero, Int.add_zero]

end One

/-- Changing one entry of a table changes a sum over it by the difference of the two. -/
theorem sum_update [Fintype ι] [DecidableEq ι] (w : β → Int) (table : ι → β) (i : ι) (b : β) :
    ∑ j, w (update table i b j) = ∑ j, w (table j) - w (table i) + w b := by
  have hself : ∑ j, w (update table i b j) = w b + ∑ j ∈ Finset.univ.erase i, w (table j) := by
    rw [← Finset.add_sum_erase _ _ (Finset.mem_univ i), update_self]
    congr 1
    apply Finset.sum_congr rfl
    intro j hj
    rw [update_of_ne (Finset.ne_of_mem_erase hj)]
  rw [hself, ← Finset.add_sum_erase _ (fun j => w (table j)) (Finset.mem_univ i)]
  omega

/-- An entry that refers to an object is part of its tally. -/
theorem le_sum [Fintype ι] {w : ι → Int} (hw : ∀ j, 0 ≤ w j) (i : ι) : w i ≤ ∑ j, w j :=
  Finset.single_le_sum (fun j _ => hw j) (Finset.mem_univ i)

end Tally
