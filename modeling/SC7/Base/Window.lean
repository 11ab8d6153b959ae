-- SUMMARY: Functions on 64-bit positions that are replaced on a window: a window behind another one, and when a window reaches a position.
import Mathlib.Algebra.Group.Nat.Defs

/-!
# Windows of a function

A function on 64-bit positions, such as the bytes of a file, is replaced on `w` positions from `p` on. Positions
are counted modulo the word size, so a window may come around to zero.
-/

namespace SC7

variable {α : Type} {f : UInt64 → α} {p v w q : UInt64} {data : UInt64 → α}

/-- The function `f` with `data` on the window of `w` positions from `p` on. -/
def overlay (f : UInt64 → α) (p w : UInt64) (data : UInt64 → α) : UInt64 → α :=
  fun q => if q - p < w then data (q - p) else f q

theorem overlay_of_lt (h : q - p < w) : overlay f p w data q = data (q - p) := if_pos h

theorem overlay_of_not_lt (h : ¬q - p < w) : overlay f p w data q = f q := if_neg h

@[simp] theorem overlay_zero : overlay f p 0 data = f := by
  funext q
  apply overlay_of_not_lt
  exact UInt64.not_lt_zero

/-- Windows of data that is the same inside of them. -/
theorem overlay_congr {g : UInt64 → α} {data' : UInt64 → α} (hf : ∀ q, ¬q - p < w → f q = g q)
    (hdata : ∀ k, k < w → data k = data' k) : overlay f p w data = overlay g p w data' := by
  funext q
  by_cases hq : q - p < w
  · rw [overlay_of_lt hq, overlay_of_lt hq]
    exact hdata _ hq
  · rw [overlay_of_not_lt hq, overlay_of_not_lt hq]
    exact hf q hq

/-- A window of `v + w` positions is one of `v` positions and one of `w` behind it. -/
theorem sub_lt_add_iff (h : v.toNat + w.toNat < 2 ^ 64) : q - p < v + w ↔ q - p < v ∨ q - (p + v) < w := by
  have hsub : q - (p + v) = q - p - v := by grind
  rw [hsub]
  generalize q - p = x
  rw [UInt64.lt_iff_toNat_lt, UInt64.lt_iff_toNat_lt, UInt64.lt_iff_toNat_lt, UInt64.toNat_add, UInt64.toNat_sub]
  have := x.toNat_lt
  omega

theorem forall_lt_add_iff {P : UInt64 → Prop} (h : v.toNat + w.toNat < 2 ^ 64) :
    (∀ k, k < v + w → P k) ↔ (∀ k, k < v → P k) ∧ ∀ k, k < w → P (v + k) := by
  constructor
  · intro hall
    constructor
    · intro k hk
      apply hall
      have := (sub_lt_add_iff (q := k) (p := 0) h).mpr (.inl (by simpa using hk))
      simpa using this
    · intro k hk
      apply hall
      have hback : v + k - (0 + v) = k := by grind
      have := (sub_lt_add_iff (q := v + k) (p := 0) h).mpr (.inr (by rwa [hback]))
      simpa using this
  · rintro ⟨hv, hw⟩ k hk
    obtain hlt | hlt := (sub_lt_add_iff (q := k) (p := 0) h).mp (by simpa using hk)
    · exact hv k (by simpa using hlt)
    · have hk' := hw _ hlt
      have hback : v + (k - (0 + v)) = k := by grind
      rwa [hback] at hk'

/-- Two windows, the second one behind the first. -/
theorem overlay_overlay (h : v.toNat + w.toNat < 2 ^ 64) (data : UInt64 → α) :
    overlay (overlay f p v data) (p + v) w (fun k => data (v + k)) = overlay f p (v + w) data := by
  funext q
  have hiff := sub_lt_add_iff (p := p) (q := q) h
  by_cases hw : q - (p + v) < w
  · have hback : v + (q - (p + v)) = q - p := by grind
    rw [overlay_of_lt hw, overlay_of_lt (hiff.mpr (.inr hw)), hback]
  · rw [overlay_of_not_lt hw]
    by_cases hv : q - p < v
    · rw [overlay_of_lt hv, overlay_of_lt (hiff.mpr (.inl hv))]
    · rw [overlay_of_not_lt hv, overlay_of_not_lt (mt hiff.mp (by simp [hv, hw]))]

/-- A window that is cut short, where the rest is there already. -/
theorem overlay_short_iff (h : w ≤ v) (data : UInt64 → α) :
    overlay f p w data = overlay f p v data ↔ ∀ k, w ≤ k → k < v → f (p + k) = data k := by
  constructor
  · intro heq k hle hlt
    have hback : p + k - p = k := by grind
    have hbyte := congrFun heq (p + k)
    rwa [overlay_of_not_lt (by rw [hback]; exact UInt64.not_lt.mpr hle), overlay_of_lt (by rwa [hback]), hback] at hbyte
  · intro hrest
    funext q
    by_cases hw : q - p < w
    · rw [overlay_of_lt hw, overlay_of_lt (UInt64.lt_of_lt_of_le hw h)]
    · rw [overlay_of_not_lt hw]
      by_cases hv : q - p < v
      · have hback : p + (q - p) = q := by grind
        rw [overlay_of_lt hv, ← hrest (q - p) (UInt64.not_lt.mp hw) hv, hback]
      · rw [overlay_of_not_lt hv]

/-- A window that is laid in two parts: a function `g` behind the first one, and `g'` behind the second. -/
theorem overlay_behind_iff {g g' : UInt64 → α} (h : v.toNat + w.toNat < 2 ^ 64) (hfirst : ∀ q, ¬q - p < v → g q = f q)
    (hsecond : ∀ q, ¬q - (p + v) < w → g' q = g q) (data : UInt64 → α) :
    g' = overlay f p (v + w) data ↔ g = overlay f p v data ∧ g' = overlay g (p + v) w fun k => data (v + k) := by
  constructor
  · rintro rfl
    have hg : g = overlay f p v data := by
      funext q
      by_cases hv : q - p < v
      · have hapart : ¬q - (p + v) < w := by
          have hsub : q - (p + v) = q - p - v := by grind
          rw [hsub]
          rw [UInt64.lt_iff_toNat_lt] at hv ⊢
          rw [UInt64.toNat_sub]
          have := (q - p).toNat_lt
          have := v.toNat_lt
          omega
        rw [← hsecond q hapart, overlay_of_lt ((sub_lt_add_iff h).mpr (.inl hv)), overlay_of_lt hv]
      · rw [hfirst q hv, overlay_of_not_lt hv]
    refine ⟨hg, ?_⟩
    rw [hg, overlay_overlay h]
  · rintro ⟨rfl, rfl⟩
    exact overlay_overlay h data

end SC7
