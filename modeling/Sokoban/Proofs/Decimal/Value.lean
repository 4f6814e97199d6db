import Mathlib.Data.Rat.Cast.Order
import Mathlib.Tactic.FieldSimp
import Mathlib.Tactic.Linarith
import Mathlib.Tactic.Ring
import Sokoban.Decimal

/-! # The number that a decimal stands for

A decimal is a sign, a mantissa and a scale; `Decimal.value` is the rational number that it stands
for.  Many decimals stand for one number:  `0.5` and `0.50` are different values of the type, and so
are `0` and `-0`.  Everything that is proved about probabilities is said of the number, and this
module turns what the operations ask of the parts into what they ask of the number.

Comparisons shift both operands to a common scale and compare whole numbers.  As the common scale is
at least that of either, nothing is lost by shifting (`shifted_eq`), so the comparison is one of the
numbers (`same_iff`, `lt_iff`).  The tests for nought and for a sign look at one operand only
(`isZero_iff`, `isNegative_iff`): a nought with a minus is not negative.

A decimal is printed after its zeros at the end are dropped, which keeps the number and its sign
(`value_normalize`, `isNegative_normalize`).
-/

namespace Sokoban

/-- A shift by two numbers of places is one shift after the other.  This is what lets a mantissa be
brought to a larger scale without a division. -/
theorem tenPow_add (m n : Nat) : tenPow (m + n) = tenPow m * tenPow n := by
  induction n with
  | zero => simp
  | succ n ih => rw [← Nat.add_assoc, tenPow_succ, tenPow_succ, ih, Nat.mul_assoc]

namespace Decimal

/-- The rational number that a decimal stands for. -/
def value (d : Decimal) : ℚ :=
  (if d.negative then -(d.mantissa : ℚ) else d.mantissa) / tenPow d.scale

/-- A decimal is not negative, and at most a whole number.  Shares and weights are carried about
with such a bound, for it is what says that they can be added up without rounding. -/
structure Within (d : Decimal) (n : Nat) : Prop where
  nonneg : 0 ≤ d.value
  le : d.value ≤ n

/-- A power of ten is not nought, so the division in `value` loses nothing and may be multiplied
out. -/
theorem tenPow_cast_pos (n : Nat) : (0 : ℚ) < tenPow n :=
  Nat.cast_pos.mpr (tenPow_pos n)

/-- Shifting by at least as many places as there are gives a whole number: the number that the
decimal stands for, counted in units of the last of these places. -/
theorem shifted_eq {d : Decimal} {places : Nat} (h : d.scale ≤ places) :
    (d.shifted places : ℚ) = d.value * tenPow places := by
  obtain ⟨more, rfl⟩ := Nat.exists_eq_add_of_le h
  have hscale := (tenPow_cast_pos d.scale).ne'
  rw [shifted, value, Nat.add_sub_cancel_left, tenPow_add]
  split <;> push_cast <;> field_simp

/-- **Equality** of decimals is equality of the numbers, whatever their scales and also where one is
a nought with a minus. -/
theorem same_iff {a b : Decimal} : a.same b ↔ a.value = b.value := by
  rw [same, beq_iff_eq, ← @Int.cast_inj ℚ, shifted_eq a.scale_le, shifted_eq b.scale_le,
    mul_left_inj' (tenPow_cast_pos 28).ne']

/-- **The order** of decimals is the order of the numbers.  Both sides are shifted to the larger of
the two scales, which is positive as a factor and so keeps the order. -/
theorem lt_iff {a b : Decimal} : a.lt b ↔ a.value < b.value := by
  rw [lt, decide_eq_true_iff, ← @Int.cast_lt ℚ, shifted_eq a.scale_le, shifted_eq b.scale_le,
    mul_lt_mul_iff_left₀ (tenPow_cast_pos 28)]

/-- The test for nought looks at the mantissa only.  It is right because neither the sign nor the
places can make another number of it. -/
theorem isZero_iff {d : Decimal} : d.isZero ↔ d.value = 0 := by
  have hscale := (tenPow_cast_pos d.scale).ne'
  rw [isZero, beq_iff_eq, value, div_eq_zero_iff]
  split <;> simp [hscale]

/-- A decimal below nought has a minus and a mantissa that is not nought.  The second half matters:
rounding can leave a nought with a minus, which is not refused as a negative weight. -/
theorem isNegative_iff {d : Decimal} : d.isNegative ↔ d.value < 0 := by
  have hscale := tenPow_cast_pos d.scale
  cases hneg : d.negative with
  | true =>
      simp [isNegative, value, isZero, hneg, div_lt_iff₀ hscale, Nat.pos_iff_ne_zero]
  | false =>
      have hnonneg : 0 ≤ d.value := by
        rw [value, hneg]
        exact div_nonneg (Nat.cast_nonneg _) hscale.le
      simp [isNegative, hneg, hnonneg]

/-- What passes the test for negative weights is at least nought; this is the form in which entries
of a map are known to be good. -/
theorem isNegative_eq_false_iff {d : Decimal} : d.isNegative = false ↔ 0 ≤ d.value := by
  rw [← Bool.not_eq_true, isNegative_iff, not_lt]

/-! ## Zeros at the end -/

/-- Dropping zeros at the end of a mantissa, one place for each of them, keeps the number.  The
equation is the one between the two fractions, multiplied out. -/
theorem dropZeros_eq (mantissa scale : Nat) :
    (dropZeros mantissa scale).1 * tenPow scale =
      mantissa * tenPow (dropZeros mantissa scale).2 := by
  induction scale generalizing mantissa with
  | zero => simp [dropZeros]
  | succ scale ih =>
      unfold dropZeros
      split
      next hzero =>
        have htens : mantissa = mantissa / 10 * 10 := by omega
        have hrest := ih (mantissa / 10)
        rw [tenPow_succ, ← Nat.mul_assoc, hrest, Nat.mul_right_comm, ← htens]
      next => rfl

/-- **Normalizing** keeps the number.  Nought becomes the one nought without places, and of any
other decimal the zeros at the end are dropped. -/
theorem value_normalize (d : Decimal) : d.normalize.value = d.value := by
  have hzeros := congrArg (Nat.cast : Nat → ℚ) (dropZeros_eq d.mantissa d.scale)
  push_cast at hzeros
  have hscale := (tenPow_cast_pos d.scale).ne'
  have hrest := (tenPow_cast_pos d.normalize.scale).ne'
  have hmagnitude : (d.normalize.mantissa : ℚ) / tenPow d.normalize.scale =
      d.mantissa / tenPow d.scale := by
    rw [div_eq_div_iff hrest hscale]
    exact hzeros
  by_cases hzero : d.isZero
  · have hnought : d.normalize.isZero := by
      have hle := (dropZeros_le d.mantissa d.scale).1
      rw [isZero, beq_iff_eq] at hzero ⊢
      exact Nat.le_zero.mp (hzero ▸ hle)
    rw [isZero_iff.mp hzero, isZero_iff.mp hnought]
  · have hsign : d.normalize.negative = d.negative := by simp [normalize, isNegative, hzero]
    rw [value, value, hsign]
    split
    · rw [neg_div, neg_div, hmagnitude]
    · exact hmagnitude

/-- Normalizing keeps the sign of the number, so what is printed has a minus exactly if the number
is negative. -/
theorem isNegative_normalize (d : Decimal) : d.normalize.isNegative = d.isNegative := by
  rw [Bool.eq_iff_iff, isNegative_iff, isNegative_iff, value_normalize]

end Decimal

end Sokoban
