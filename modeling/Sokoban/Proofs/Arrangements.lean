import Mathlib.Data.List.Nodup
import Mathlib.Data.Nat.Factorial.Basic
import Sokoban.Arrangements

/-! # The ordered choices of a list

Choosing takes one item out of the list and goes on with the others.  What is chosen depends only on
the places of the items, so the order of the choices is that of lists of places.

* `mem_arrangements`: from a list without repetitions, the choices of `k` items are the lists of `k`
  different items;
* `arrangements_map`: the choices of a renamed list are the renamed choices;
* `pairwise_arrangements`: from an ascending list they ascend lexicographically;
* `length_arrangements`: their number is a falling factorial;
* `arrangements_ordered`: all of this for a list without repetitions, whose items are renamed to the
  places `0, 1, …` that they stand at.
-/

namespace Sokoban

variable {α β : Type}

/-! ## Taking one item -/

/-- A pick splits its list at the item that it takes: what is left are the items in front of it and
those behind it, in their order.  By induction on the list, where an item is taken first or kept. -/
theorem exists_append_of_mem_picks {xs others : List α} {x : α} (h : (x, others) ∈ picks xs) :
    ∃ front back, xs = front ++ x :: back ∧ others = front ++ back := by
  induction xs generalizing others with
  | nil => cases h
  | cons y ys ih =>
      rcases List.mem_cons.mp h with heq | hmap
      · obtain ⟨rfl, rfl⟩ := Prod.mk.inj heq
        exact ⟨[], others, rfl, rfl⟩
      · obtain ⟨⟨z, rest⟩, hrest, heq⟩ := List.mem_map.mp hmap
        obtain ⟨rfl, rfl⟩ := Prod.mk.inj heq
        obtain ⟨front, back, rfl, rfl⟩ := ih hrest
        exact ⟨y :: front, back, rfl, rfl⟩

/-- Every item is picked once, in the order of the list. -/
theorem map_fst_picks (xs : List α) : (picks xs).map Prod.fst = xs := by
  induction xs with
  | nil => rfl
  | cons x xs ih =>
      rw [picks, List.map_cons, List.map_map]
      exact congrArg (x :: ·) ih

/-- Picks do not look at the items: from a renamed list they take the renamed items, and leave the
renamed others. -/
theorem picks_map (f : α → β) (xs : List α) :
    picks (xs.map f) = (picks xs).map fun (x, others) => (f x, others.map f) := by
  induction xs with
  | nil => rfl
  | cons x xs ih => simp [picks, ih]

/-- Taking an item out of a list without repetitions leaves the others.  With repetitions another
copy would be left, and the equation would fail. -/
theorem picks_eq [DecidableEq α] {xs : List α} (h : xs.Nodup) :
    picks xs = xs.map fun x => (x, xs.erase x) := by
  induction xs with
  | nil => rfl
  | cons x xs ih =>
      obtain ⟨hx, hxs⟩ := List.nodup_cons.mp h
      rw [picks, ih hxs, List.map_cons, List.erase_cons_head, List.map_map]
      congr 1
      refine List.map_congr_left fun y hy => ?_
      have hne : x ≠ y := fun heq => hx (heq ▸ hy)
      rw [Function.comp_apply, List.erase_cons_tail (by simpa using hne)]

/-! ## Choosing several -/

/-- **The ordered choices** of `k` items from a list without repetitions are the lists of `k`
different items of it. -/
theorem mem_arrangements [DecidableEq α] {k : Nat} {xs ys : List α} (h : xs.Nodup) :
    ys ∈ arrangements k xs ↔ ys.length = k ∧ ys.Nodup ∧ ∀ y ∈ ys, y ∈ xs := by
  induction k generalizing xs ys with
  | zero =>
      rw [arrangements, List.mem_singleton, List.length_eq_zero_iff]
      constructor
      · intro hys
        subst hys
        exact ⟨rfl, List.nodup_nil, nofun⟩
      · exact fun hys => hys.1
  | succ k ih =>
      rw [arrangements, picks_eq h]
      simp only [List.flatMap_map, List.mem_flatMap, List.mem_map]
      constructor
      · intro hys
        obtain ⟨x, hx, rest, hrest, rfl⟩ := hys
        obtain ⟨hlength, hnodup, hsub⟩ := (ih (h.erase x)).mp hrest
        refine ⟨by simp [hlength], List.nodup_cons.mpr ⟨?_, hnodup⟩, ?_⟩
        · intro hmem
          exact (h.mem_erase_iff.mp (hsub x hmem)).1 rfl
        · intro y hy
          rcases List.mem_cons.mp hy with rfl | hy
          · exact hx
          · exact List.mem_of_mem_erase (hsub y hy)
      · intro hys
        obtain ⟨hlength, hnodup, hsub⟩ := hys
        cases ys with
        | nil => simp at hlength
        | cons x rest =>
            obtain ⟨hx, hrest⟩ := List.nodup_cons.mp hnodup
            refine ⟨x, hsub x List.mem_cons_self, rest, (ih (h.erase x)).mpr ⟨?_, hrest, ?_⟩, rfl⟩
            · simpa using hlength
            · intro y hy
              have hne : y ≠ x := fun heq => hx (heq ▸ hy)
              exact h.mem_erase_iff.mpr ⟨hne, hsub y (List.mem_cons_of_mem x hy)⟩

/-- **The choices of a renamed list** are the renamed choices, in the same order.  This brings
statements about places back to items. -/
theorem arrangements_map (f : α → β) (k : Nat) (xs : List α) :
    arrangements k (xs.map f) = (arrangements k xs).map (List.map f) := by
  induction k generalizing xs with
  | zero => rfl
  | succ k ih =>
      simp [arrangements, picks_map, List.flatMap_map, List.map_flatMap, ih, Function.comp_def]

/-- There are as many choices of `k` items as the falling factorial says, whether or not items are
repeated. -/
theorem length_arrangements (k : Nat) (xs : List α) :
    (arrangements k xs).length = xs.length.descFactorial k := by
  induction k generalizing xs with
  | zero => rfl
  | succ k ih =>
      have hfirst : ∀ pick ∈ picks xs, ((arrangements k pick.2).map (pick.1 :: ·)).length =
          (xs.length - 1).descFactorial k := by
        intro (x, others) hpick
        obtain ⟨front, back, rfl, rfl⟩ := exists_append_of_mem_picks hpick
        rw [List.length_map, ih]
        simp
      have hpicks : (picks xs).length = xs.length := by
        rw [← List.length_map Prod.fst, map_fst_picks]
      rw [arrangements, List.length_flatMap, List.map_congr_left hfirst, List.map_const',
        List.sum_replicate_nat, hpicks]
      cases xs with
      | nil => simp
      | cons x xs => rw [List.length_cons, Nat.add_sub_cancel, Nat.succ_descFactorial_succ]

/-- The choices from an ascending list ascend: those with the same first item by the rest, which is
chosen from an ascending list again, and the others by their first items. -/
theorem pairwise_arrangements {xs : List Nat} (h : xs.Pairwise (· < ·)) (k : Nat) :
    (arrangements k xs).Pairwise (List.Lex (· < ·)) := by
  induction k generalizing xs with
  | zero => exact List.pairwise_singleton _ _
  | succ k ih =>
      refine List.pairwise_flatMap.mpr ⟨?_, ?_⟩
      · intro (x, others) hpick
        obtain ⟨front, back, rfl, rfl⟩ := exists_append_of_mem_picks hpick
        have hothers : (front ++ back).Sublist (front ++ x :: back) :=
          (List.sublist_cons_self x back).append_left front
        exact (ih (h.sublist hothers)).map _ fun a b hab => List.Lex.cons hab
      · have hheads : (picks xs).Pairwise fun a b => a.1 < b.1 := by
          rw [← List.pairwise_map, map_fst_picks]
          exact h
        refine hheads.imp fun hlt ys hys zs hzs => ?_
        obtain ⟨ys, -, rfl⟩ := List.mem_map.mp hys
        obtain ⟨zs, -, rfl⟩ := List.mem_map.mp hzs
        exact List.Lex.rel hlt

/-- The places of the items of a list without repetitions, item by item. -/
theorem map_idxOf [DecidableEq α] {items : List α} (h : items.Nodup) :
    items.map (items.idxOf ·) = List.range items.length := by
  refine List.ext_getElem (by simp) fun i hi _ => ?_
  rw [List.getElem_map, List.getElem_range]
  exact h.idxOf_getElem i _

/-- **The ordered choices** of `k` of `n` different items are found each exactly once, in the
lexicographic order of the places that their items are taken from.  So there are `n! / (n - k)!` of
them, and none if `k` is larger than `n`. -/
theorem arrangements_ordered [DecidableEq α] {items : List α} (h : items.Nodup) (k : Nat) :
    (∀ choice, choice ∈ arrangements k items ↔
      choice.length = k ∧ choice.Nodup ∧ ∀ x ∈ choice, x ∈ items) ∧
    (arrangements k items).Nodup ∧
    ((arrangements k items).Pairwise fun earlier later =>
      List.Lex (· < ·) (earlier.map (items.idxOf ·)) (later.map (items.idxOf ·))) ∧
    (k ≤ items.length → (arrangements k items).length =
      items.length.factorial / (items.length - k).factorial) ∧
    (items.length < k → arrangements k items = []) := by
  have hordered : (arrangements k items).Pairwise fun earlier later =>
      List.Lex (· < ·) (earlier.map (items.idxOf ·)) (later.map (items.idxOf ·)) := by
    rw [← List.pairwise_map, ← arrangements_map, map_idxOf h]
    exact pairwise_arrangements List.pairwise_lt_range k
  refine ⟨fun choice => mem_arrangements h, ?_, hordered, ?_, ?_⟩
  · refine hordered.imp fun hlex heq => ?_
    subst heq
    exact List.lex_irrefl Nat.lt_irrefl _ hlex
  · intro hk
    rw [length_arrangements, Nat.descFactorial_eq_div hk]
  · intro hk
    rw [← List.length_eq_zero_iff, length_arrangements, Nat.descFactorial_eq_zero_iff_lt]
    exact hk

/-- Two of three items are chosen in six ways, by their places and not by their sizes, and four of
them in none. -/
theorem arrangements_ordered_descending :
    [30, 20, 10].Nodup ∧ [10, 30] ∈ arrangements 2 [30, 20, 10] ∧
      (arrangements 2 [30, 20, 10]).Nodup ∧
      ((arrangements 2 [30, 20, 10]).Pairwise fun earlier later =>
        List.Lex (· < ·) (earlier.map ([30, 20, 10].idxOf ·)) (later.map ([30, 20, 10].idxOf ·))) ∧
      (arrangements 2 [30, 20, 10]).length = 6 ∧ arrangements 4 [30, 20, 10] = [] := by
  have hitems : [30, 20, 10].Nodup := by decide
  obtain ⟨hmem, honce, hlex, hcount, -⟩ := arrangements_ordered hitems 2
  obtain ⟨-, -, -, -, hnone⟩ := arrangements_ordered hitems 4
  exact ⟨hitems, (hmem [10, 30]).mpr (by decide), honce, hlex, hcount (by decide),
    hnone (by decide)⟩

end Sokoban
