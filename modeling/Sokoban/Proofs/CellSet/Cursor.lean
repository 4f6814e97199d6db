import Mathlib.Algebra.Order.Ring.Nat
import Mathlib.Tactic.ByContra
import Sokoban.Proofs.CellSet

/-! # Reading a set off its words

`CellSet.toList` looks at all sixty-four places of every word.  The members can be had for less.  A
cursor keeps what is left of the word that it reads: the place of the lowest bit that is set is the
next member, `word &&& (word - 1)` is the word without that bit, and when no bit is left the cursor
goes on to the next word that has one.  From the other end, the largest member is found by the
leading zeros of the last word that has a bit.

* `bits_eq_cons`: the bits of a word are its lowest one and those of the word without it;
* `next_spec`: one call hands out the first of the members that are still to come, and the others
  are to come then;
* `answer_cursor`: so the calls hand out the list of the set item by item, and then nothing for ever;
* `highest?_eq`: the leading zeros lead to the last item of that list.
-/

namespace Sokoban.CellSet

/-! ## The lowest and the highest bit of a word -/

/-- A word without bits has no members to be read off. -/
@[simp] theorem bits_zero : bits 0 = [] := rfl

/-- A word ends in its lowest bit and the zeros below it.  As a number it therefore is an odd number
times the power of two that the zeros make. -/
theorem exists_toNat_eq {word : BitVec 64} (h : word ≠ 0) :
    ∃ high, word.toNat = 2 ^ (word.ctz.toNat + 1) * high + 2 ^ word.ctz.toNat := by
  have hends : word.toNat % 2 ^ (word.ctz.toNat + 1) = 2 ^ word.ctz.toNat := by
    refine Nat.eq_of_testBit_eq fun n => ?_
    rw [Nat.testBit_mod_two_pow, Nat.testBit_two_pow]
    rcases Nat.lt_trichotomy n word.ctz.toNat with hlt | rfl | hgt
    · have hclear : word.toNat.testBit n = false := BitVec.getLsbD_false_of_lt_ctz hlt
      simp [hclear, hlt.ne']
    · have hset : word.toNat.testBit word.ctz.toNat = true :=
        BitVec.getLsbD_true_ctz_of_ne_zero h
      simp [hset]
    · have habove : ¬n < word.ctz.toNat + 1 := by omega
      simp [habove, hgt.ne]
  refine ⟨word.toNat / 2 ^ (word.ctz.toNat + 1), ?_⟩
  rw [← hends]
  exact (Nat.div_add_mod _ _).symm

/-- Taking one off a word clears its lowest bit and sets those below, which the word itself does not
have. -/
theorem getLsbD_and_sub_one {word : BitVec 64} (h : word ≠ 0) (n : Nat) :
    (word &&& (word - 1)).getLsbD n = (word.getLsbD n && decide (n ≠ word.ctz.toNat)) := by
  obtain ⟨high, hword⟩ := exists_toNat_eq h
  generalize word.ctz.toNat = low at hword ⊢
  have hpos : 0 < 2 ^ low := Nat.two_pow_pos low
  have hlt : 2 ^ low < 2 ^ (low + 1) := Nat.pow_lt_pow_succ (by decide)
  have hless : (word - 1).toNat = 2 ^ (low + 1) * high + (2 ^ low - 1) := by
    rw [BitVec.toNat_sub_of_le (by rw [BitVec.le_def, hword]; exact Nat.le_add_left_of_le hpos),
      hword]
    exact Nat.add_sub_assoc hpos _
  rw [BitVec.getLsbD_and, BitVec.getLsbD, BitVec.getLsbD, hless, hword,
    Nat.testBit_two_pow_mul_add _ hlt, Nat.testBit_two_pow_mul_add _ (by omega),
    Nat.testBit_two_pow, Nat.testBit_two_pow_sub_one]
  rcases Nat.lt_trichotomy n low with hn | rfl | hn
  · simp [hn.ne', Nat.lt_succ_of_lt hn]
  · simp
  · have habove : ¬n < low + 1 := by omega
    simp [habove, hn.ne']

/-- **The bits of a word** are the lowest one and those of the word without it.  Taking the lowest
bit away is what the cursor does to go on, so this is one turn of its loop. -/
theorem bits_eq_cons {word : BitVec 64} (h : word ≠ 0) :
    bits word = word.ctz.toNat :: bits (word &&& (word - 1)) := by
  have hlowest : ∀ n ∈ bits (word &&& (word - 1)), word.ctz.toNat < n := by
    intro n hn
    simp only [mem_bits, getLsbD_and_sub_one h, Bool.and_eq_true, decide_eq_true_eq] at hn
    refine Nat.lt_of_le_of_ne (Nat.le_of_not_lt fun hlt => ?_) hn.2.symm
    rw [BitVec.getLsbD_false_of_lt_ctz hlt] at hn
    exact absurd hn.1 (by decide)
  refine Ascending.eq_of_pairwise_lt (pairwise_bits word)
    (List.pairwise_cons.mpr ⟨hlowest, pairwise_bits _⟩) fun n => ?_
  simp only [List.mem_cons, mem_bits, getLsbD_and_sub_one h, Bool.and_eq_true, decide_eq_true_eq]
  by_cases hn : n = word.ctz.toNat
  · subst hn
    simp [BitVec.getLsbD_true_ctz_of_ne_zero h]
  · simp [hn]

/-- The bits of a word end at the one behind its leading zeros, so the largest cell of a word is
found without going through the others. -/
theorem getLast?_bits {word : BitVec 64} (h : word ≠ 0) :
    (bits word).getLast? = some (63 - word.clz.toNat) := by
  refine (Ascending.getLast?_eq_some_iff (pairwise_bits word)).mpr ⟨?_, fun n hn => ?_⟩
  · exact mem_bits.mpr (BitVec.getLsbD_true_clz_of_ne_zero (by decide) h)
  · by_contra hlt
    have hhigh : word.toNat < 2 ^ n :=
      Nat.lt_of_lt_of_le BitVec.toNat_lt_two_pow_sub_clz
        (Nat.pow_le_pow_right (by decide) (by omega))
    have hclear : word.getLsbD n = false := Nat.testBit_lt_two_pow hhigh
    exact absurd (mem_bits.mp hn) (by rw [hclear]; decide)

@[simp] theorem cellsOfWord_zero (index : Nat) : cellsOfWord 0 index = [] := rfl

/-- The cells of a word are that of its lowest bit and those of the word without it, counted from
the first cell of the word.  This is what one call of a cursor does. -/
theorem cellsOfWord_eq_cons {word : BitVec 64} (h : word ≠ 0) (index : Nat) :
    cellsOfWord word index =
      (index * 64 + word.ctz.toNat) :: cellsOfWord (word &&& (word - 1)) index := by
  rw [cellsOfWord, bits_eq_cons h, List.map_cons, Nat.mul_comm index]
  rfl

/-- The last cell of a word is found by its leading zeros, without looking at its bits one by one.
-/
theorem getLast?_cellsOfWord {word : BitVec 64} (h : word ≠ 0) (index : Nat) :
    (cellsOfWord word index).getLast? = some (index * 64 + 63 - word.clz.toNat) := by
  have hclz : word.clz < 64 := BitVec.clz_lt_iff_ne_zero.mpr h
  have hlt : word.clz.toNat < 64 := BitVec.lt_def.mp hclz
  rw [cellsOfWord, List.getLast?_map, getLast?_bits h, Option.map_some, Option.some.injEq]
  omega

/-! ## The cursor -/

/-- A place in the reading of a set. -/
structure Cursor where
  /-- The words of the set. -/
  words : Array (BitVec 64)
  /-- The number of the word that is being read. -/
  index : Nat
  /-- What is left of that word. -/
  left : BitVec 64

/-- The cursor that no member has been taken from. -/
def cursor (s : CellSet) : Cursor := ⟨s.words, 0, s.words.getD 0 0⟩

namespace Cursor

/-- The next member, if there is one, and where the cursor is then. -/
def next (c : Cursor) : Option Nat × Cursor :=
  if c.left ≠ 0 then
    (some (c.index * 64 + c.left.ctz.toNat), { c with left := c.left &&& (c.left - 1) })
  else if h : c.index + 1 < c.words.size then
    next { c with index := c.index + 1, left := c.words[c.index + 1] }
  else
    (none, { c with index := c.index + 1 })
termination_by c.words.size - c.index

/-- What call number `n` of `next` hands out, counted from zero. -/
def answer (c : Cursor) : Nat → Option Nat
  | 0 => c.next.1
  | n + 1 => c.next.2.answer n

/-- The members of the words behind the one that is being read. -/
def behind (c : Cursor) : List Nat :=
  (c.words.toList.zipIdx.drop (c.index + 1)).flatMap fun (word, index) => cellsOfWord word index

/-- The members that are still to come. -/
def rest (c : Cursor) : List Nat :=
  cellsOfWord c.left c.index ++ c.behind

/-- A cursor with something left of its word is about to hand out the lowest bit of it. -/
theorem rest_of_left {c : Cursor} (h : c.left ≠ 0) :
    c.rest = (c.index * 64 + c.left.ctz.toNat) :: rest { c with left := c.left &&& (c.left - 1) } := by
  rw [rest, cellsOfWord_eq_cons h]
  rfl

/-- With nothing left in its word, a cursor might as well stand at the next one. -/
theorem rest_of_more {c : Cursor} (h : c.left = 0) (hmore : c.index + 1 < c.words.size) :
    c.rest = rest { c with index := c.index + 1, left := c.words[c.index + 1] } := by
  have hlength : c.index + 1 < c.words.toList.zipIdx.length := by simpa using hmore
  rw [rest, behind, h, cellsOfWord_zero, List.nil_append, List.drop_eq_getElem_cons hlength,
    List.flatMap_cons, List.getElem_zipIdx]
  simp [rest, behind]

/-- A cursor with nothing left, and no word behind, has handed out everything. -/
theorem rest_of_end {c : Cursor} (h : c.left = 0) (hend : c.words.size ≤ c.index + 1) :
    c.rest = [] := by
  rw [rest, behind, h, List.drop_eq_nil_of_le (by simpa using hend)]
  rfl

/-- **One call** hands out the first of the members that are still to come and leaves the others.
If the word at hand is used up, the words that follow are looked through for one that is not empty.
-/
theorem next_spec (c : Cursor) : c.next.1 = c.rest.head? ∧ c.next.2.rest = c.rest.tail := by
  fun_induction next c with
  | case1 c hleft =>
      rw [rest_of_left hleft]
      exact ⟨rfl, rfl⟩
  | case2 c hleft hmore ih =>
      rw [rest_of_more (not_not.mp hleft) hmore]
      exact ih
  | case3 c hleft hend =>
      have hzero : c.left = 0 := not_not.mp hleft
      have hpast : rest { c with index := c.index + 1 } = [] :=
        rest_of_end hzero (Nat.le_succ_of_le (Nat.le_of_not_lt hend))
      rw [rest_of_end hzero (Nat.le_of_not_lt hend), hpast]
      exact ⟨rfl, rfl⟩

/-- Call number `n` hands out item number `n` of those that are still to come. -/
theorem answer_eq (c : Cursor) (n : Nat) : c.answer n = c.rest[n]? := by
  induction n generalizing c with
  | zero => rw [answer, (next_spec c).1, List.head?_eq_getElem?]
  | succ n ih => rw [answer, ih, (next_spec c).2, List.getElem?_tail]

end Cursor

/-- All members are still to come from a new cursor. -/
theorem rest_cursor (s : CellSet) : s.cursor.rest = s.toList := by
  obtain ⟨⟨words⟩, size⟩ := s
  cases words with
  | nil => exact Cursor.rest_of_end (by simp [cursor]) (Nat.zero_le _)
  | cons word words => rfl

/-- **The calls** of a new cursor hand out the list of the set, item by item, and nothing once it
has ended. -/
theorem answer_cursor (s : CellSet) (n : Nat) : s.cursor.answer n = s.toList[n]? := by
  rw [Cursor.answer_eq, rest_cursor]

/-- The first call of a new cursor hands out the first member, and so the cursor finds it as
`first?` does. -/
theorem next_cursor (s : CellSet) : s.cursor.next.1 = s.first? := by
  rw [(Cursor.next_spec s.cursor).1, rest_cursor, first?_eq]

/-! ## From the end -/

/-- The largest member, by the leading zeros of the last word that is not empty. -/
def highest? (s : CellSet) : Option Nat :=
  (s.words.toList.zipIdx.reverse.find? fun (word, _) => word != 0).map fun (word, index) =>
    index * 64 + 63 - word.clz.toNat

/-- Looking for the last item of a list of words is looking for a word that is not empty, from the
end, and taking its last item. -/
theorem findSome?_getLast? (words : List (BitVec 64 × Nat)) :
    (words.findSome? fun (word, index) => (cellsOfWord word index).getLast?) =
      (words.find? fun (word, _) => word != 0).map fun (word, index) =>
        index * 64 + 63 - word.clz.toNat := by
  induction words with
  | nil => rfl
  | cons pair words ih =>
      obtain ⟨word, index⟩ := pair
      by_cases h : word = 0
      · subst h
        exact ih
      · have hword : (word != 0) = true := bne_iff_ne.mpr h
        simp only [List.findSome?_cons, List.find?_cons, getLast?_cellsOfWord h, hword,
          Option.map_some]

/-- **The leading zeros** of the last word that is not empty lead to the last member.  Searching
from the end and reading the list to its end are two ways to the same cell, and only the first is
taken by the program. -/
theorem highest?_eq (s : CellSet) : s.highest? = s.last? :=
  (findSome?_getLast? _).symm

end Sokoban.CellSet
