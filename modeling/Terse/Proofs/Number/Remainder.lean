import Mathlib.Data.Rat.Floor
import Terse.Literal.Evaluate

/-! The remainder of a division. The quotient is rounded down, so the remainder lies between zero and the
divisor, on the divisor's side of zero, and may be zero but not the divisor. That leaves one number for
each class of dividends which differ by multiples of the divisor. -/
namespace Terse

/-- What is left of a number when a multiple of the divisor is taken away, between zero, which it may
be, and the divisor, which it is not. -/
structure IsRemainder (a b r : Rat) : Prop where
  multiple : ∃ k : Int, a - r = k * b
  of_pos : 0 < b → 0 ≤ r ∧ r < b
  of_neg : b < 0 → b < r ∧ r ≤ 0

namespace IsRemainder

variable {a b r s : Rat}

/-- In units of the divisor a remainder is a proper fraction, whatever the sign. -/
theorem ratio (remainder : IsRemainder a b r) (nonzero : b ≠ 0) : 0 ≤ r / b ∧ r / b < 1 := by
  rcases lt_or_gt_of_ne nonzero with negative | positive
  · obtain ⟨above, nonpos⟩ := remainder.of_neg negative
    exact ⟨div_nonneg_of_nonpos nonpos negative.le, (div_lt_one_of_neg negative).mpr above⟩
  · obtain ⟨nonneg, below⟩ := remainder.of_pos positive
    exact ⟨div_nonneg nonneg positive.le, (div_lt_one positive).mpr below⟩

theorem of_ratio (multiple : ∃ k : Int, a - r = k * b) (nonneg : 0 ≤ r / b) (below : r / b < 1) :
    IsRemainder a b r where
  multiple := multiple
  of_pos positive := by
    refine ⟨?_, (div_lt_one positive).mp below⟩
    rw [← div_mul_cancel₀ r positive.ne']
    exact mul_nonneg nonneg positive.le
  of_neg negative := by
    refine ⟨(div_lt_one_of_neg negative).mp below, ?_⟩
    rw [← div_mul_cancel₀ r negative.ne]
    exact mul_nonpos_of_nonneg_of_nonpos nonneg negative.le

/-- Two remainders differ by less than the divisor and by a multiple of it, so by nothing. -/
theorem unique (one : IsRemainder a b r) (other : IsRemainder a b s) (nonzero : b ≠ 0) : r = s := by
  obtain ⟨k, first⟩ := one.multiple
  obtain ⟨l, second⟩ := other.multiple
  obtain ⟨nonneg, below⟩ := one.ratio nonzero
  obtain ⟨nonneg', below'⟩ := other.ratio nonzero
  have apart : r / b - s / b = (l - k : Int) := by
    rw [← sub_div, div_eq_iff nonzero]
    push_cast
    linarith
  have above : (-1 : Rat) < (l - k : Int) := by linarith
  have under : ((l - k : Int) : Rat) < 1 := by linarith
  have none : l - k = 0 := by
    have : -1 < l - k := by exact_mod_cast above
    have : l - k < 1 := by exact_mod_cast under
    omega
  rw [none, Int.cast_zero, sub_eq_zero] at apart
  exact (div_left_inj' nonzero).mp apart

theorem shifted (remainder : IsRemainder a b r) (k : Int) : IsRemainder (a + k * b) b r where
  multiple := by
    obtain ⟨l, whole⟩ := remainder.multiple
    exact ⟨l + k, by push_cast; linarith⟩
  of_pos := remainder.of_pos
  of_neg := remainder.of_neg

theorem itself (remainder : IsRemainder a b r) : IsRemainder r b r where
  multiple := ⟨0, by simp⟩
  of_pos := remainder.of_pos
  of_neg := remainder.of_neg

end IsRemainder

namespace Operator

variable {a b r : Rat}

theorem isRemainder_floor (a : Rat) (nonzero : b ≠ 0) :
    IsRemainder a b (a - b * (a / b).floor) := by
  have ratio : (a - b * (a / b).floor) / b = Int.fract (a / b) := by
    rw [sub_div, mul_div_cancel_left₀ _ nonzero]
    rfl
  refine .of_ratio ⟨(a / b).floor, by ring⟩ ?_ ?_
  · rw [ratio]
    exact Int.fract_nonneg _
  · rw [ratio]
    exact Int.fract_lt_one _

theorem mod_onNumbers (nonzero : b ≠ 0) : mod.onNumbers a b = .ok r ↔ IsRemainder a b r := by
  have found := isRemainder_floor a nonzero
  rw [onNumbers, if_neg nonzero, Except.ok.injEq]
  exact ⟨fun same => same ▸ found, fun remainder => found.unique remainder nonzero⟩

theorem onNumbers_zero {op : Operator} (divides : op = div ∨ op = mod) (a : Rat) :
    op.onNumbers a 0 = .error .divisionByZero := by
  rcases divides with rfl | rfl <;> rw [onNumbers, if_pos rfl]

end Operator

theorem Expr.evaluate_numbers {α : Type} {note : α} {op : Operator} {left right : Expr α} {a b : Rat}
    (first : left.evaluate = .ok (.number a)) (second : right.evaluate = .ok (.number b)) :
    (binary note op left right).evaluate = (op.onNumbers a b).map .number := by
  simp only [evaluate, first, second, bind, Except.bind, Operator.onValues]

/-- The remainder of two numbers is the one number that is a remainder of them; multiples of the divisor
do not change it, nor does taking it again. Without a divisor there is neither quotient nor remainder. -/
theorem remainder_floored {α : Type} (note : α) {left right : Expr α} {a b : Rat}
    (first : left.evaluate = .ok (.number a)) (second : right.evaluate = .ok (.number b)) :
    (b ≠ 0 → ∃ r, (Expr.binary note .mod left right).evaluate = .ok (.number r) ∧
      (∀ s, IsRemainder a b s ↔ s = r) ∧
      (∀ (k : Int) (more : Expr α), more.evaluate = .ok (.number (a + k * b)) →
        (Expr.binary note .mod more right).evaluate = .ok (.number r)) ∧
      (Expr.binary note .mod (.binary note .mod left right) right).evaluate = .ok (.number r)) ∧
    (b = 0 → ∀ op, op = .div ∨ op = .mod → ∃ failure,
      (Expr.binary note op left right).evaluate = .error failure ∧ failure.kind = .domain) := by
  constructor
  · intro nonzero
    have remainder := Operator.isRemainder_floor a nonzero
    have gives {dividend : Expr α} {c : Rat} (is : dividend.evaluate = .ok (.number c))
        (leaves : IsRemainder c b (a - b * (a / b).floor)) :
        (Expr.binary note .mod dividend right).evaluate =
          .ok (.number (a - b * (a / b).floor)) := by
      rw [Expr.evaluate_numbers is second, (Operator.mod_onNumbers nonzero).mpr leaves]
      rfl
    have result := gives first remainder
    refine ⟨_, result, fun s => ⟨fun other => other.unique remainder nonzero, ?_⟩,
      fun k more is => gives is (remainder.shifted k), gives result remainder.itself⟩
    rintro rfl
    exact remainder
  · rintro rfl op divides
    refine ⟨.divisionByZero, ?_, rfl⟩
    rw [Expr.evaluate_numbers first second, Operator.onNumbers_zero divides]
    rfl

/-- Seven halves and minus two: the remainder is minus one half, not three halves. -/
theorem remainder_floored_negative :
    (Expr.number () (7 / 2)).evaluate = .ok (.number (7 / 2)) ∧
    (Expr.number () (-2)).evaluate = .ok (.number (-2)) ∧
    (Expr.binary () .mod (.number () (7 / 2)) (.number () (-2))).evaluate =
      .ok (.number (-1 / 2)) ∧
    (Expr.binary () .mod (.number () (-1 / 2)) (.number () (-2))).evaluate =
      .ok (.number (-1 / 2)) := by
  have first : (Expr.number () (7 / 2)).evaluate = .ok (.number (7 / 2)) := rfl
  have second : (Expr.number () (-2)).evaluate = .ok (.number (-2)) := rfl
  obtain ⟨r, result, only, shifted, -⟩ := (remainder_floored () first second).1 (by norm_num)
  obtain rfl : -1 / 2 = r := (only _).mp ⟨⟨-2, by norm_num⟩, by norm_num, by norm_num⟩
  exact ⟨first, second, result, shifted 2 (.number () (-1 / 2)) (by norm_num [Expr.evaluate])⟩

end Terse
