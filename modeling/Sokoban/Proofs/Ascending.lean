import Mathlib.Order.Bounds.Basic

/-! # The ends of an ascending list

A strictly ascending list is told by its members alone, and they can be looked for at its ends: the
first item is the smallest of them and the last item is the largest.

Sets of cells and goals are kept in such lists.  So two of them are equal as soon as they have the
same members (`eq_of_pairwise_lt`), and the first and the last reachable cell bound all others.
-/

namespace Sokoban.Ascending

variable {xs ys : List Nat} {m : Nat}

/-- **A set of numbers has one ascending list**: lists without repetitions that have the same
members are rearrangements of each other, and of those only one ascends. -/
theorem eq_of_pairwise_lt (hxs : xs.Pairwise (· < ·)) (hys : ys.Pairwise (· < ·))
    (h : ∀ n, n ∈ xs ↔ n ∈ ys) : xs = ys := by
  have hperm : xs.Perm ys := (List.perm_ext_iff_of_nodup (hxs.imp Nat.ne_of_lt)
    (hys.imp Nat.ne_of_lt)).mpr h
  exact hperm.eq_of_pairwise (fun a b _ _ hab hba => absurd hab (Nat.lt_asymm hba)) hxs hys

/-- The first item of an ascending list is the smallest of its members.  So the smallest of a set
can be read off such a list without comparing anything. -/
theorem head?_eq_some_iff (h : xs.Pairwise (· < ·)) :
    xs.head? = some m ↔ IsLeast {n | n ∈ xs} m := by
  cases xs with
  | nil => simp [IsLeast]
  | cons x xs =>
      have hleast : IsLeast {n | n ∈ x :: xs} x := by
        refine ⟨List.mem_cons_self, fun n hn => ?_⟩
        rcases List.mem_cons.mp hn with rfl | hn
        · exact Nat.le_refl n
        · exact Nat.le_of_lt ((List.pairwise_cons.mp h).1 n hn)
      rw [List.head?_cons, Option.some.injEq]
      constructor
      · rintro rfl
        exact hleast
      · exact hleast.unique

/-- The last item of an ascending list is the largest of its members.  The list is split at its end,
since that is where the item is. -/
theorem getLast?_eq_some_iff (h : xs.Pairwise (· < ·)) :
    xs.getLast? = some m ↔ IsGreatest {n | n ∈ xs} m := by
  rcases List.eq_nil_or_concat xs with rfl | ⟨front, x, rfl⟩
  · simp [IsGreatest]
  · rw [List.concat_eq_append] at h ⊢
    have hgreatest : IsGreatest {n | n ∈ front ++ [x]} x := by
      refine ⟨List.mem_concat_self, fun n hn => ?_⟩
      rcases List.mem_append.mp hn with hn | hn
      · exact Nat.le_of_lt ((List.pairwise_append.mp h).2.2 n hn x List.mem_cons_self)
      · exact Nat.le_of_eq (List.mem_singleton.mp hn)
    rw [List.getLast?_concat, Option.some.injEq]
    constructor
    · rintro rfl
      exact hgreatest
    · exact hgreatest.unique

end Sokoban.Ascending
