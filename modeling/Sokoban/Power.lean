/-! # Powers

Powers of ten and of two.  Decimal places are counted in the first and binary digits in the second.

Both are names of their own for powers of a fixed base.  A bound such as `twoPow 96` then stays as
it is written in the course of a proof, and is computed only where a proof asks for the number.
-/

namespace Sokoban

/-- The number `10 ^ n`. -/
def tenPow (n : Nat) : Nat :=
  Nat.pow 10 n

/-- The number `2 ^ n`, with the same equations as the powers of ten. -/
def twoPow (n : Nat) : Nat :=
  Nat.pow 2 n

/-- A number without decimal places is counted in ones. -/
@[simp] theorem tenPow_zero : tenPow 0 = 1 := rfl

/-- One more place is worth ten times as much. -/
theorem tenPow_succ (n : Nat) : tenPow (n + 1) = tenPow n * 10 := rfl

/-- A power of ten can be divided by. -/
theorem tenPow_pos (n : Nat) : 0 < tenPow n := by
  induction n with
  | zero => decide
  | succ n ih => rw [tenPow_succ]; omega

@[simp] theorem twoPow_zero : twoPow 0 = 1 := rfl

theorem twoPow_succ (n : Nat) : twoPow (n + 1) = twoPow n * 2 := rfl

theorem twoPow_pos (n : Nat) : 0 < twoPow n := by
  induction n with
  | zero => decide
  | succ n ih => rw [twoPow_succ]; omega

end Sokoban
