import Sokoban.CellSet
import Sokoban.Proofs.Ascending

/-! # Membership in sets of cells

A `CellSet` is a finite set of numbers, whatever words it is kept in.  This file reads its
operations as operations on that set.

* `contains_insert` and `contains_withCapacity` say which cells a set has that was built up cell by
  cell;
* `mem_toList` and `pairwise_toList` say that `toList` is the one ascending list of the members;
* `first?_eq_some_iff` and `last?_eq_some_iff` find the smallest and the largest of them.

A cell is bit `cell % 64` of word `cell / 64`.  Everything below rests on two facts about words: the
padding that makes room for a cell is empty (`getLsbD_padded`), and setting a bit changes one place
of one word (`getLsbD_modify`).  Beyond this file no proof looks at words, except where the words
themselves are the subject.
-/

namespace Sokoban.CellSet

/-- Words that are missing hold no members.  So a set that has room for fewer cells can be read as
if it had room for more. -/
theorem getLsbD_padded (words : Array (BitVec 64)) (count index bit : Nat) :
    ((padded words count).getD index 0).getLsbD bit = (words.getD index 0).getLsbD bit := by
  by_cases h : index < words.size
  · simp [padded, Array.getD_eq_getD_getElem?, Array.getElem?_append_left h]
  · have hnone : words[index]? = none := Array.getElem?_eq_none (by omega)
    have happ : (padded words count)[index]? =
        (Array.replicate (count - words.size) (0 : BitVec 64))[index - words.size]? :=
      Array.getElem?_append_right (by omega)
    rw [Array.getD_eq_getD_getElem?, Array.getD_eq_getD_getElem?, happ, hnone,
      Array.getElem?_replicate]
    split <;> rfl

/-- Setting the bit of a cell in its word adds that cell and touches no other one: a cell is told by
its word and its place there, and two cells with the same of both are one. -/
theorem getLsbD_modify (words : Array (BitVec 64)) {cell : Nat}
    (h : cell / 64 < words.size) (n : Nat) :
    ((words.modify (cell / 64) (· ||| BitVec.twoPow 64 (cell % 64))).getD (n / 64) 0).getLsbD
        (n % 64) =
      (decide (n = cell) || (words.getD (n / 64) 0).getLsbD (n % 64)) := by
  simp only [Array.getD_eq_getD_getElem?, Array.getElem?_modify]
  split
  next hword =>
    have hbit : cell % 64 = n % 64 ↔ n = cell := by omega
    have hlt : cell % 64 < 64 := by omega
    rw [← hword, Array.getElem?_eq_getElem h]
    simp only [Option.map_some, Option.getD_some, BitVec.getLsbD_or, BitVec.getLsbD_twoPow, hlt,
      hbit, decide_true, Bool.true_and, Bool.or_comm]
  next hword =>
    have hne : n ≠ cell := by omega
    simp [hne]

/-- Adding a cell tells whether it is new, which is the same as whether it was absent before. -/
theorem fst_add (s : CellSet) (cell : Nat) : (s.add cell).1 = !s.contains cell := by
  cases h : s.contains cell <;> simp [add, h]

/-- A cell that is there already is not added again, and the counter does not move. -/
theorem insert_of_contains {s : CellSet} {cell : Nat} (h : s.contains cell) :
    s.insert cell = s := by
  simp [insert, add, h]

/-- **A set with a cell more** has that cell and those that it had before.  Between the two stands
the padding of the words, which has no members. -/
theorem contains_insert {s : CellSet} {cell n : Nat} :
    (s.insert cell).contains n ↔ n = cell ∨ s.contains n := by
  by_cases h : s.contains cell
  · rw [insert_of_contains h]
    grind
  · have hsize : cell / 64 < (padded s.words (cell / 64 + 1)).size := by
      simp only [padded, Array.size_append, Array.size_replicate]
      omega
    simp only [insert, add, h, Bool.false_eq_true, ↓reduceIte]
    simp only [contains, getLsbD_modify _ hsize, getLsbD_padded, Bool.or_eq_true,
      decide_eq_true_eq]

/-- Room for cells is no member. -/
@[simp] theorem contains_withCapacity (cells n : Nat) :
    (withCapacity cells).contains n = false := by
  simp only [contains, withCapacity, Array.getD_eq_getD_getElem?, Array.getElem?_replicate]
  split <;> simp

/-- The bits of a word are the places where it is set. -/
theorem mem_bits {word : BitVec 64} {n : Nat} : n ∈ bits word ↔ word.getLsbD n := by
  rw [bits, List.mem_filter, List.mem_range]
  exact ⟨fun h => h.2, fun h => ⟨BitVec.lt_of_getLsbD h, h⟩⟩

/-- The places of a word are looked at from the lowest to the highest. -/
theorem pairwise_bits (word : BitVec 64) : (bits word).Pairwise (· < ·) :=
  List.pairwise_lt_range.filter _

/-- The cells of a word are the numbers of its set bits, counted from its first cell.  The word's
own bits are listed by the cursor, so this is where a list of cells comes from. -/
theorem mem_cellsOfWord {word : BitVec 64} {index n : Nat} :
    n ∈ cellsOfWord word index ↔ n / 64 = index ∧ word.getLsbD (n % 64) := by
  simp only [cellsOfWord, List.mem_map, mem_bits]
  constructor
  · intro h
    obtain ⟨bit, hbit, rfl⟩ := h
    have hlt : bit < 64 := BitVec.lt_of_getLsbD hbit
    have hmod : (64 * index + bit) % 64 = bit := by omega
    refine ⟨by omega, ?_⟩
    rw [hmod]
    exact hbit
  · intro h
    obtain ⟨rfl, hbit⟩ := h
    exact ⟨n % 64, hbit, by omega⟩

/-- **The list of a set** has its members and no others: the cells of a word are those that the word
says, and a word that is missing has none. -/
@[simp] theorem mem_toList {s : CellSet} {n : Nat} : n ∈ s.toList ↔ s.contains n := by
  simp only [toList, List.mem_flatMap, List.mem_zipIdx_iff_getElem?, mem_cellsOfWord, contains,
    Array.getD_eq_getD_getElem?, Array.getElem?_toList, Prod.exists]
  constructor
  · intro h
    obtain ⟨word, index, hword, rfl, hbit⟩ := h
    rw [hword]
    exact hbit
  · intro h
    cases hword : s.words[n / 64]? with
    -- A set has no members beyond its last word.
    | none => simp [hword] at h
    | some word => exact ⟨word, n / 64, hword, rfl, by simpa [hword] using h⟩

/-- The cells of a word ascend as its places do, since they are counted from the first cell of the
word. -/
theorem pairwise_cellsOfWord (word : BitVec 64) (index : Nat) :
    (cellsOfWord word index).Pairwise (· < ·) :=
  (pairwise_bits word).map _ fun a b hab => by omega

/-- The list of a set ascends: within a word by its bits, and from word to word. -/
theorem pairwise_toList (s : CellSet) : s.toList.Pairwise (· < ·) := by
  refine List.pairwise_flatMap.mpr ⟨fun _ _ => pairwise_cellsOfWord _ _, ?_⟩
  rw [List.pairwise_iff_getElem]
  intro i j hi hj hij x hx y hy
  simp only [List.getElem_zipIdx, mem_cellsOfWord] at hx hy
  omega

/-- The list of a set names every member once. -/
theorem nodup_toList (s : CellSet) : s.toList.Nodup :=
  (pairwise_toList s).imp fun h => Nat.ne_of_lt h

/-- Looking for the first member word by word finds the first item of the list. -/
theorem first?_eq (s : CellSet) : s.first? = s.toList.head? :=
  List.head?_flatMap.symm

/-- Looking for the last member word by word, from the end, finds the last item of the list. -/
theorem last?_eq (s : CellSet) : s.last? = s.toList.getLast? :=
  List.getLast?_flatMap.symm

/-- **The first member** is the smallest one, as the list ascends.  The search stops at the first
word that is not empty, so this also says that no later word is needed. -/
theorem first?_eq_some_iff {s : CellSet} {m : Nat} :
    s.first? = some m ↔ IsLeast {n | s.contains n} m := by
  rw [first?_eq, Ascending.head?_eq_some_iff (pairwise_toList s)]
  simp only [mem_toList]

/-- **The last member** is the largest one, as the list ascends.  The words that are empty at the
end are only padding, and the search passes over them. -/
theorem last?_eq_some_iff {s : CellSet} {m : Nat} :
    s.last? = some m ↔ IsGreatest {n | s.contains n} m := by
  rw [last?_eq, Ascending.getLast?_eq_some_iff (pairwise_toList s)]
  simp only [mem_toList]

/-- A set with members has a first one, and no member is smaller. -/
theorem exists_first? {s : CellSet} {n : Nat} (h : s.contains n) :
    ∃ m, s.first? = some m ∧ IsLeast {k | s.contains k} m := by
  have hne : s.toList ≠ [] := List.ne_nil_of_mem (mem_toList.mpr h)
  have hfirst : s.first? = some (s.toList.head hne) := by
    rw [first?_eq, List.head?_eq_some_head hne]
  exact ⟨_, hfirst, first?_eq_some_iff.mp hfirst⟩

/-- A set with members has a last one, and no member is larger. -/
theorem exists_last? {s : CellSet} {n : Nat} (h : s.contains n) :
    ∃ m, s.last? = some m ∧ IsGreatest {k | s.contains k} m := by
  have hne : s.toList ≠ [] := List.ne_nil_of_mem (mem_toList.mpr h)
  have hlast : s.last? = some (s.toList.getLast hne) := by
    rw [last?_eq, List.getLast?_eq_some_getLast hne]
  exact ⟨_, hlast, last?_eq_some_iff.mp hlast⟩

end Sokoban.CellSet
