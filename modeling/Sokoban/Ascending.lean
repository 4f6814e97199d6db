/-! # Ascending lists

A finite set of numbers has one ascending list without repetitions.  `Ascending.ofList` finds it,
whatever the order and the repetitions of the list it starts from.

Such lists are what the goals of a level are kept in, so that two levels with the same goals are the
same however the goals were given.  That nothing is lost (`mem_ofList`) and that the result ascends
(`pairwise_ofList`) are proved item by item, for one insertion first.
-/

namespace Sokoban.Ascending

/-- Puts `x` at its place in an ascending list, once. -/
def insert (x : Nat) : List Nat → List Nat
  | [] => [x]
  | y :: rest =>
    if x < y then x :: y :: rest
    else if x = y then y :: rest
    else y :: insert x rest

/-- The members of a list in ascending order, each once. -/
def ofList (xs : List Nat) : List Nat :=
  xs.foldr insert []

/-- Inserting adds the item and leaves all others in, also where the item was there before. -/
theorem mem_insert {x z : Nat} {xs : List Nat} : z ∈ insert x xs ↔ z = x ∨ z ∈ xs := by
  fun_induction insert x xs <;> grind

/-- Inserting keeps a list ascending.  The item goes in front of the first that is larger, and it is
left out where it is there already. -/
theorem pairwise_insert {x : Nat} {xs : List Nat} (h : xs.Pairwise (· < ·)) :
    (insert x xs).Pairwise (· < ·) := by
  fun_induction insert x xs with
  | case1 => simp
  | case2 y rest lt => grind [List.pairwise_cons]
  | case3 => exact h
  | case4 y rest not_lt ne ih => grind [List.pairwise_cons, mem_insert]

/-- Nothing is lost and nothing is added. -/
theorem mem_ofList {z : Nat} {xs : List Nat} : z ∈ ofList xs ↔ z ∈ xs := by
  induction xs with
  | nil => simp [ofList]
  | cons x xs ih => rw [List.mem_cons, ← ih]; exact mem_insert

/-- The result ascends strictly. -/
theorem pairwise_ofList (xs : List Nat) : (ofList xs).Pairwise (· < ·) := by
  induction xs with
  | nil => simp [ofList]
  | cons x xs ih => exact pairwise_insert ih

end Sokoban.Ascending
