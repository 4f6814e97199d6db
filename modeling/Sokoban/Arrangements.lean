/-! # Arrangements

The ordered choices of a number of different items from a list, in lexicographic order of the
positions they are taken from.

The goal of a model whose boxes have positions asks whether some choice of boxes stands on the
goals, box by box.  Items are different if they come from different positions; nothing is compared,
so the items may be of any type.
-/

namespace Sokoban

variable {α : Type}

/-- Every way to take one item out of a list: the item and the others. -/
def picks : List α → List (α × List α)
  | [] => []
  | x :: xs => (x, xs) :: (picks xs).map fun (y, others) => (y, x :: others)

/-- Every ordered choice of `k` items.  With `k` the number of items these are the permutations. -/
def arrangements : Nat → List α → List (List α)
  | 0, _ => [[]]
  | k + 1, xs => (picks xs).flatMap fun (x, others) => (arrangements k others).map (x :: ·)

end Sokoban
