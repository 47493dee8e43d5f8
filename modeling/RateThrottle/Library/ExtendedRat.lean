/-
  RateThrottle.Library.ExtendedRat

  Floating-point results with the rounding left out.

  A floating-point operation on finite numbers may leave them: dividing by zero
  gives an infinity, or no number at all.  `ExtendedRat` has these outcomes
  beside the rationals, so that a division by zero stays visible and is not
  absorbed by the convention `x / 0 = 0`.  Comparisons with a number behave like
  the IEEE ones; every comparison with `nan` is false.
-/

import Mathlib.Algebra.Field.Rat
import Mathlib.Algebra.Order.Field.Basic
import Mathlib.Algebra.Order.Ring.Rat

/-- A rational number, an infinity, or not a number. -/
inductive ExtendedRat where
  | finite (q : ℚ)
  | posInf
  | negInf
  | nan
deriving DecidableEq

namespace ExtendedRat

/-- The quotient of two numbers. -/
def div (a b : ℚ) : ExtendedRat :=
  if b = 0 then
    if 0 < a then posInf else if a < 0 then negInf else nan
  else finite (a / b)

/-- A product with a positive number. -/
def scale (c : ℚ) : ExtendedRat → ExtendedRat
  | finite q => finite (q * c)
  | posInf => posInf
  | negInf => negInf
  | nan => nan

/-- `|x| < bound`. -/
def absLt (bound : ℚ) : ExtendedRat → Bool
  | finite q => decide (|q| < bound)
  | _ => false

/-- `x > bound`. -/
def gt (bound : ℚ) : ExtendedRat → Bool
  | finite q => decide (bound < q)
  | posInf => true
  | negInf => false
  | nan => false

/-- `x < bound`. -/
def lt (bound : ℚ) : ExtendedRat → Bool
  | finite q => decide (q < bound)
  | posInf => false
  | negInf => true
  | nan => false

/-- Whether a result is a number. -/
def IsFinite : ExtendedRat → Prop
  | finite _ => True
  | _ => False

@[simp] theorem isFinite_finite (q : ℚ) : (finite q).IsFinite := trivial

@[simp] theorem not_isFinite_posInf : ¬ posInf.IsFinite := id

theorem div_of_ne {b : ℚ} (hb : b ≠ 0) (a : ℚ) : div a b = finite (a / b) := if_neg hb

/-- A positive number divided by zero. -/
theorem div_zero_of_pos {a : ℚ} (ha : 0 < a) : div a 0 = posInf := by
  rw [div, if_pos rfl, if_pos ha]

/-- A scaled quotient by a number that is not negative has the sign of its
    numerator. -/
theorem gt_zero_scale_div {b c : ℚ} (hb : 0 ≤ b) (hc : 0 < c) (a : ℚ) :
    ((div a b).scale c).gt 0 = true ↔ 0 < a := by
  by_cases hzero : b = 0
  · rw [div, if_pos hzero]
    split
    · next ha => exact iff_of_true rfl ha
    · next ha => split <;> exact iff_of_false Bool.false_ne_true ha
  · have hpos : 0 < b := lt_of_le_of_ne hb (Ne.symm hzero)
    rw [div_of_ne hzero]
    simp only [scale, gt, decide_eq_true_eq]
    rw [mul_pos_iff_of_pos_right hc, div_pos_iff_of_pos_right hpos]

theorem lt_zero_scale_div {b c : ℚ} (hb : 0 ≤ b) (hc : 0 < c) (a : ℚ) :
    ((div a b).scale c).lt 0 = true ↔ a < 0 := by
  by_cases hzero : b = 0
  · rw [div, if_pos hzero]
    split
    · next ha => exact iff_of_false Bool.false_ne_true ha.not_gt
    · split
      · next ha => exact iff_of_true rfl ha
      · next ha => exact iff_of_false Bool.false_ne_true ha
  · have hpos : 0 < b := lt_of_le_of_ne hb (Ne.symm hzero)
    rw [div_of_ne hzero]
    simp only [scale, lt, decide_eq_true_eq]
    rw [← neg_pos, ← neg_mul, ← neg_div, mul_pos_iff_of_pos_right hc,
      div_pos_iff_of_pos_right hpos, neg_pos]

end ExtendedRat
