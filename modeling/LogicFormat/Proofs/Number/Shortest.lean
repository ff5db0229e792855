import LogicFormat.Number.Numeral
import Mathlib.Data.Nat.Notation

/-!
# Decimals found in a rounding interval

The search for a decimal goes from coarse grids to finer ones. Of an interval above zero it finds no
zero, unless it comes to its end on the finest grid.
-/

namespace LogicFormat

namespace RoundingInterval

variable {interval : RoundingInterval} {n : Nat}

theorem pos_of_contains (low : 0 < interval.low) (inside : interval.contains n = true) : 0 < n := by
  have reached : interval.low ≤ n * interval.unit := by
    unfold contains at inside
    split at inside
    · exact of_decide_eq_true (Bool.and_eq_true_iff.mp inside).1
    · exact Nat.le_of_lt (of_decide_eq_true (Bool.and_eq_true_iff.mp inside).1)
  exact Nat.pos_of_mul_pos_right (Nat.lt_of_lt_of_le low reached)

theorem nearer_eq (interval : RoundingInterval) (below : Nat) :
    interval.nearer below = below ∨ interval.nearer below = below + 1 := by
  unfold nearer
  dsimp only
  split
  · exact .inl rfl
  · split
    · exact .inr rfl
    · omega

theorem contains_of_nearest? (found : interval.nearest? = some n) : interval.contains n = true := by
  unfold nearest? at found
  dsimp only at found
  split at found
  · next below above =>
      obtain rfl := Option.some.inj found
      rcases interval.nearer_eq (interval.centre / interval.unit) with same | next
      · rwa [same]
      · rwa [next]
  · next below _ =>
      obtain rfl := Option.some.inj found
      exact below
  · next _ above =>
      obtain rfl := Option.some.inj found
      exact above
  · cases found

theorem low_onGrid (low : 0 < interval.low) (exponent : Int) : 0 < (interval.onGrid exponent).low :=
  Nat.mul_pos low (Nat.pow_pos (by decide))

/-- A zero is only found when all steps are done. -/
theorem exponent_firstDecimal (low : 0 < interval.low) (steps : Nat) (exponent : Int)
    (zero : (interval.firstDecimal steps exponent).significand = 0) :
    (interval.firstDecimal steps exponent).exponent = exponent - steps := by
  induction steps generalizing exponent with
  | zero => exact (Int.sub_zero exponent).symm
  | succ steps ih =>
      rw [firstDecimal] at zero ⊢
      cases found : (interval.onGrid exponent).nearest? with
      | some n =>
          rw [found] at zero
          have positive := pos_of_contains (low_onGrid low exponent) (contains_of_nearest? found)
          exact absurd zero (Nat.ne_of_gt positive)
      | none =>
          rw [found] at zero
          rw [ih (exponent - 1) zero]
          omega

theorem low_ofDouble {significand : Nat} (positive : significand ≠ 0) (exponent : Int) :
    0 < (ofDouble significand exponent).low := by
  unfold ofDouble
  dsimp only
  refine Nat.mul_pos ?_ (Nat.pow_pos (by decide))
  split <;> omega

end RoundingInterval

theorem Decimal.exponent_ofDouble {significand : Nat} {exponent : Int}
    (zero : (ofDouble significand exponent).significand = 0) :
    (ofDouble significand exponent).exponent ≤ 0 := by
  unfold ofDouble at zero ⊢
  split
  · exact Int.le_refl 0
  · next positive =>
      rw [if_neg positive] at zero
      rw [RoundingInterval.shortest] at zero ⊢
      have low := RoundingInterval.low_ofDouble positive exponent
      rw [RoundingInterval.exponent_firstDecimal low _ _ zero]
      omega

end LogicFormat
