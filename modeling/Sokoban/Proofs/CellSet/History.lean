import Mathlib.Data.Finset.Card
import Sokoban.Proofs.CellSet.Cursor

/-! # Sets of cells as finite sets of numbers

A set is made empty, with room for some cells, or of listed cells, and then it is given cells one
at a time.  Whatever is done to it, its words and its counter stand for a finite set of numbers, and
this fixes all that can be asked of it.  It even fixes the words: there are as few of them as make up
the room and hold all the numbers.

`Represents` is that invariant.  Adding a cell keeps it (`Represents.insert`), so every set with a
history has it (`Gathered.represents`).  The answers follow from it (`Gathered.refines_finset`), and
so does the equality of sets (`Gathered.eq_iff_same_cells`), which compares words and counters:
`Represents.unique` says that no two sets represent the same numbers with the same room.
-/

namespace Sokoban.CellSet

variable {s t : CellSet} {room : Nat} {members : Finset Nat} {cells xs ys : List Nat}

/-- A history: `s` was made with `room` words, and it has been given `cells`, in this order. -/
inductive Gathered : Nat → List Nat → CellSet → Prop
  | empty : Gathered 0 [] empty
  | withCapacity (capacity : Nat) :
      Gathered ((capacity + 63) / 64) [] (withCapacity capacity)
  | ofList (cells : List Nat) : Gathered 0 cells (ofList cells)
  | add {room : Nat} {cells : List Nat} {s : CellSet} (h : Gathered room cells s) (cell : Nat) :
      Gathered room (cells ++ [cell]) (s.add cell).2

/-- The set `s`, made with `room` words, stands for `members`: its bits are theirs, its counter is
their number, and it has as few words as make up the room and hold all of them. -/
structure Represents (s : CellSet) (room : Nat) (members : Finset Nat) : Prop where
  contains_iff (n : Nat) : s.contains n ↔ n ∈ members
  size_eq : s.size = members.card
  isLeast_words : IsLeast {count | room ≤ count ∧ ∀ n ∈ members, n / 64 < count} s.words.size

/-- What can be asked of the set `s` is answered as it is for the finite set `members`. -/
structure Refines (s : CellSet) (members : Finset Nat) : Prop where
  contains_iff (n : Nat) : s.contains n ↔ n ∈ members
  /-- Adding a cell tells whether it was absent. -/
  add_iff (n : Nat) : (s.add n).1 ↔ n ∉ members
  size_eq : s.size = members.card
  isEmpty_iff : s.isEmpty ↔ members = ∅
  mem_toList_iff (n : Nat) : n ∈ s.toList ↔ n ∈ members
  ascends : s.toList.Pairwise (· < ·)
  /-- Reading the words with a cursor gives that list, and nothing once it has ended. -/
  answer_eq (n : Nat) : s.cursor.answer n = s.toList[n]?
  first?_iff (m : Nat) : s.first? = some m ↔ IsLeast (members : Set Nat) m
  first?_none_iff : s.first? = none ↔ members = ∅
  last?_iff (m : Nat) : s.last? = some m ↔ IsGreatest (members : Set Nat) m
  last?_none_iff : s.last? = none ↔ members = ∅
  /-- The ends of the list are the cursor's first member and the one found by leading zeros. -/
  ends_eq : s.cursor.next.1 = s.first? ∧ s.highest? = s.last?

/-! ## The invariant -/

/-- The counter counts a new member. -/
theorem size_insert {cell : Nat} (h : ¬s.contains cell) : (s.insert cell).size = s.size + 1 := by
  simp [insert, add, h]

/-- A set grows to the word of a new member. -/
theorem size_words_insert {cell : Nat} (h : ¬s.contains cell) :
    (s.insert cell).words.size = max s.words.size (cell / 64 + 1) := by
  simp only [insert, add, h, Bool.false_eq_true, ↓reduceIte, Array.size_modify, padded,
    Array.size_append, Array.size_replicate]
  omega

/-- Room for cells is no member: a set that is made with room stands for no numbers, and has just
the words of its room. -/
theorem represents_withCapacity (capacity : Nat) :
    Represents (withCapacity capacity) ((capacity + 63) / 64) ∅ where
  contains_iff n := by simp
  size_eq := rfl
  isLeast_words := by
    rw [withCapacity, Array.size_replicate]
    exact ⟨⟨Nat.le_refl _, by simp⟩, fun count hcount => hcount.1⟩

/-- A new set without room stands for no numbers, and has no words. -/
theorem represents_empty : Represents empty 0 ∅ :=
  represents_withCapacity 0

/-- With a cell more to hold, the fewest words are those up to the word of that cell, if there are not
so many anyway. -/
theorem Represents.isLeast_words_insert (h : Represents s room members) (cell : Nat) :
    IsLeast {count | room ≤ count ∧ ∀ n ∈ Insert.insert cell members, n / 64 < count}
      (max s.words.size (cell / 64 + 1)) := by
  obtain ⟨⟨hroom, hold⟩, hleast⟩ := h.isLeast_words
  refine ⟨⟨Nat.le_trans hroom (Nat.le_max_left _ _), fun n hn => ?_⟩, fun count hcount => ?_⟩
  · rcases Finset.mem_insert.mp hn with rfl | hn
    · exact Nat.le_max_right _ _
    · exact Nat.lt_of_lt_of_le (hold n hn) (Nat.le_max_left _ _)
  · have hsize : s.words.size ≤ count :=
      hleast ⟨hcount.1, fun n hn => hcount.2 n (Finset.mem_insert_of_mem hn)⟩
    exact Nat.max_le.mpr ⟨hsize, hcount.2 cell (Finset.mem_insert_self cell members)⟩

/-- **Adding a cell** adds it to the numbers that are represented.  If it was there already neither
the words nor the counter change, which is why the counter remains the number of members. -/
theorem Represents.insert (h : Represents s room members) (cell : Nat) :
    Represents (s.insert cell) room (Insert.insert cell members) := by
  by_cases hcell : s.contains cell
  · rw [insert_of_contains hcell, Finset.insert_eq_of_mem ((h.contains_iff cell).mp hcell)]
    exact h
  · have hnew : cell ∉ members := fun hmem => hcell ((h.contains_iff cell).mpr hmem)
    refine ⟨fun n => ?_, ?_, ?_⟩
    · rw [contains_insert, h.contains_iff, Finset.mem_insert]
    · rw [size_insert hcell, h.size_eq, Finset.card_insert_of_notMem hnew]
    · rw [size_words_insert hcell]
      exact h.isLeast_words_insert cell

/-- Cells that are added one after the other are added to the numbers that are represented, whatever
their order. -/
theorem Represents.foldl_insert (h : Represents s room members) (cells : List Nat) :
    Represents (cells.foldl CellSet.insert s) room (members ∪ cells.toFinset) := by
  induction cells generalizing s members with
  | nil => simpa using h
  | cons cell cells ih =>
      rw [List.foldl_cons, List.toFinset_cons, Finset.union_insert, ← Finset.insert_union]
      exact ih (h.insert cell)

/-- **Every history** leads to a set that represents what it was given.  By induction on the
history, with one of the facts above for each way to begin and to go on. -/
theorem Gathered.represents (h : Gathered room cells s) : Represents s room cells.toFinset := by
  induction h with
  | empty => exact represents_empty
  | withCapacity capacity => exact represents_withCapacity capacity
  | ofList cells =>
      have hcells := represents_empty.foldl_insert cells
      rw [Finset.empty_union] at hcells
      exact hcells
  | add _ cell ih =>
      rw [List.toFinset_append, List.toFinset_cons, List.toFinset_nil, Finset.union_insert,
        Finset.union_empty]
      exact ih.insert cell

/-! ## What the invariant fixes -/

/-- The members of a set, as a set of numbers. -/
theorem Represents.members_eq (h : Represents s room members) :
    {n | s.contains n} = (members : Set Nat) :=
  Set.ext h.contains_iff

/-- A set whose list is empty stands for no numbers, and the other way round. -/
theorem Represents.toList_eq_nil_iff (h : Represents s room members) :
    s.toList = [] ↔ members = ∅ := by
  rw [List.eq_nil_iff_forall_not_mem, Finset.eq_empty_iff_forall_notMem]
  simp only [mem_toList, h.contains_iff]

/-- A set is fixed by the numbers that it represents and by the room that it was made with: these
give the number of its words, and membership gives their bits. -/
theorem Represents.unique (hs : Represents s room members) (ht : Represents t room members) :
    s = t := by
  have hsize : s.words.size = t.words.size := hs.isLeast_words.unique ht.isLeast_words
  have hwords : s.words = t.words := by
    refine Array.ext hsize fun index hi hj => BitVec.eq_of_getLsbD_eq fun bit hbit => ?_
    have hcell : s.contains (64 * index + bit) = t.contains (64 * index + bit) :=
      Bool.eq_iff_iff.mpr ((hs.contains_iff _).trans (ht.contains_iff _).symm)
    have hword : (64 * index + bit) / 64 = index := by omega
    have hplace : (64 * index + bit) % 64 = bit := by omega
    simpa [contains, hword, hplace, hi, hj] using hcell
  have hcount : s.size = t.size := hs.size_eq.trans ht.size_eq.symm
  cases s
  cases t
  cases hwords
  cases hcount
  rfl

/-- **A set of cells is a finite set of numbers**: however it was made, and whatever cells it has
been given, it answers as the set of these cells does.  The answers are read off the words, the
counter and the cursor, and none of them depends on the order in which cells were added. -/
theorem Gathered.refines_finset (h : Gathered room cells s) : Refines s cells.toFinset where
  contains_iff := h.represents.contains_iff
  add_iff n := by
    rw [fst_add, Bool.not_eq_true', ← Bool.not_eq_true, h.represents.contains_iff]
  size_eq := h.represents.size_eq
  isEmpty_iff := by rw [isEmpty, beq_iff_eq, h.represents.size_eq, Finset.card_eq_zero]
  mem_toList_iff n := by rw [mem_toList, h.represents.contains_iff]
  ascends := pairwise_toList s
  answer_eq := answer_cursor s
  first?_iff m := by
    rw [first?_eq_some_iff, h.represents.members_eq]
  first?_none_iff := by
    rw [first?_eq, List.head?_eq_none_iff, h.represents.toList_eq_nil_iff]
  last?_iff m := by
    rw [last?_eq_some_iff, h.represents.members_eq]
  last?_none_iff := by
    rw [last?_eq, List.getLast?_eq_none_iff, h.represents.toList_eq_nil_iff]
  ends_eq := ⟨next_cursor s, highest?_eq s⟩

/-- Room for seventy cells is two words.  The cell 130 needs a third one, and a repeated cell changes
nothing. -/
theorem refines_finset_scattered :
    ∃ s, Gathered 2 [130, 0, 63, 0] s ∧ Refines s {0, 63, 130} ∧ s.words.size = 3 ∧
      s.toList = [0, 63, 130] ∧ s.cursor.answer 2 = some 130 ∧ s.cursor.answer 3 = none := by
  have hroom : Gathered 2 [] (withCapacity 70) := .withCapacity 70
  have hgathered : Gathered 2 [130, 0, 63, 0] _ := (((hroom.add 130).add 0).add 63).add 0
  have hcells : [130, 0, 63, 0].toFinset = {0, 63, 130} := by decide
  have hrefines := hgathered.refines_finset
  rw [hcells] at hrefines
  have hlist : (((((withCapacity 70).add 130).2.add 0).2.add 63).2.add 0).2.toList = [0, 63, 130] := by
    decide +kernel
  refine ⟨_, hgathered, hrefines, by decide +kernel, hlist, ?_, ?_⟩
  · rw [hrefines.answer_eq, hlist]
    rfl
  · rw [hrefines.answer_eq, hlist]
    rfl

/-- **Equality of sets** compares their words, and yet two sets that were made with the same room,
such as none at all, are equal if and only if they have been given the same cells, in whatever order
and however often. -/
theorem Gathered.eq_iff_same_cells (hs : Gathered room xs s) (ht : Gathered room ys t) :
    s = t ↔ ∀ n, n ∈ xs ↔ n ∈ ys := by
  constructor
  · rintro rfl n
    rw [← List.mem_toFinset, ← List.mem_toFinset, ← hs.represents.contains_iff,
      ← ht.represents.contains_iff]
  · intro hsame
    have hmembers : xs.toFinset = ys.toFinset := Finset.ext fun n => by simp [hsame n]
    exact hs.represents.unique (hmembers ▸ ht.represents)

/-- One set is listed with a repetition, the other is given its cells one by one in another order. -/
theorem eq_iff_same_cells_reordered :
    Gathered 0 [130, 0, 63, 0] (ofList [130, 0, 63, 0]) ∧
      Gathered 0 [63, 130, 0] (((empty.add 63).2.add 130).2.add 0).2 ∧
      ofList [130, 0, 63, 0] = (((empty.add 63).2.add 130).2.add 0).2 := by
  have hlisted : Gathered 0 [130, 0, 63, 0] (ofList [130, 0, 63, 0]) := .ofList _
  have hadded : Gathered 0 [63, 130, 0] (((empty.add 63).2.add 130).2.add 0).2 :=
    ((Gathered.empty.add 63).add 130).add 0
  have hsame : ∀ n, n ∈ [130, 0, 63, 0] ↔ n ∈ [63, 130, 0] := by
    intro n
    simp only [List.mem_cons, List.not_mem_nil, or_false]
    omega
  exact ⟨hlisted, hadded, (hlisted.eq_iff_same_cells hadded).mpr hsame⟩

/-- The room matters: words that are made ahead stay, whether or not they are needed. -/
example : (withCapacity 70).insert 5 ≠ empty.insert 5 := by decide

end Sokoban.CellSet
