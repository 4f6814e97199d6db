import Mathlib.Data.List.TakeWhile
import Sokoban.Proofs.RunLength.Sequence

/-! # Brackets

The brackets of a text balance just if it is the text of a sequence (`balanced_iff_exists`).  Other
texts go wrong in one of two ways (`pending_or_stray`).  Behind a sequence there may be a bracket
that closes none, which is then the first such bracket (`bracketFault_stray`).  Or the text can be
completed: it consists of sequences, each inside a group that is opened behind the one before.  Then
the bracket of the innermost group is the last that is never closed (`Pending.bracketFault_inside`).

Balancing is counting, and says nothing of sequences or of the decoder.  Partners are told by it: a
bracket closes another one if the brackets between them balance (`Closes`).  Which brackets are
stray or never closed is then a matter of the text alone, and that no bracket of a sequence is
either (`Sequence.matched_text`) follows its items: putting texts together takes no partner away,
and wrapping a text in brackets makes partners of these.
-/

namespace Sokoban.RunLength

/-- A text whose brackets balance: no part of it from the beginning closes more brackets than it
opens, and the whole of it closes as many. -/
structure Balanced (text : List Char) : Prop where
  closed_le : ∀ n, (text.take n).count ')' ≤ (text.take n).count '('
  closed_eq : text.count ')' = text.count '('

/-- The bracket in one column is closed by the one in another: the brackets between them balance. -/
def Closes (text : List Char) (opening closing : Nat) : Prop :=
  ∃ before inner after, text = before ++ '(' :: (inner ++ ')' :: after) ∧ Balanced inner ∧
    opening = before.length ∧ closing = before.length + inner.length + 1

/-- A closing bracket in this column that closes none. -/
def IsStray (text : List Char) (column : Nat) : Prop :=
  text[column]? = some ')' ∧ ∀ opening, ¬Closes text opening column

/-- An opening bracket in this column that is never closed. -/
def IsUnclosed (text : List Char) (column : Nat) : Prop :=
  text[column]? = some '(' ∧ ∀ closing, ¬Closes text column closing

/-- What is wrong with the brackets of a text, and how many characters have been read before it
turns out: the first stray bracket, or else, at the end, the last one that is never closed. -/
inductive BracketFault (text : List Char) : Fault → Nat → Prop
  | stray {column : Nat} (hstray : IsStray text column)
      (hfirst : ∀ other < column, ¬IsStray text other) :
      BracketFault text (.unexpectedClose column) column
  | unclosed {column : Nat} (hopened : ∀ other, ¬IsStray text other)
      (hunclosed : IsUnclosed text column) (hlast : ∀ other > column, ¬IsUnclosed text other) :
      BracketFault text (.unbalancedGroup column) text.length

/-- A text in which all brackets balance and have partners. -/
structure Matched (text : List Char) : Prop where
  balanced : Balanced text
  not_isStray : ∀ column, ¬IsStray text column
  not_isUnclosed : ∀ column, ¬IsUnclosed text column

/-- A text that can be completed: sequences, each inside a group that the one before has opened. -/
inductive Pending : List Char → Prop
  | whole (q : Sequence) : Pending q.text
  | inside {outer : List Char} (h : Pending outer) (q : Sequence) :
      Pending (outer ++ '(' :: q.text)

variable {text a b inner tail : List Char} {column opening closing : Nat} {c : Char}

/-! ## Texts that balance -/

/-- Texts that balance do so together.  A part of the second is preceded by as many closing as
opening brackets. -/
theorem Balanced.append (ha : Balanced a) (hb : Balanced b) : Balanced (a ++ b) where
  closed_le := by
    intro n
    have hla := ha.closed_le n
    have hlb := hb.closed_le (n - a.length)
    rw [List.take_append, List.count_append, List.count_append]
    omega
  closed_eq := by
    rw [List.count_append, List.count_append, ha.closed_eq, hb.closed_eq]

/-- **A group balances** if what is in it does: the bracket in front makes up for the one at the
end. -/
theorem Balanced.wrap (h : Balanced inner) : Balanced ('(' :: (inner ++ [')'])) where
  closed_le := by
    intro n
    cases n with
    | zero => simp
    | succ n =>
        have hinner := h.closed_le n
        have hlast : (([')'] : List Char).take (n - inner.length)).count ')' ≤ 1 :=
          (List.take_sublist _ _).count_le ')'
        rw [List.take_succ_cons, List.take_append, List.count_cons, List.count_cons,
          List.count_append, List.count_append]
        simp only [beq_iff_eq, Char.reduceEq, if_false, if_true]
        omega
  closed_eq := by
    have heq := h.closed_eq
    simp only [List.count_cons, List.count_append, List.count_nil, beq_iff_eq, Char.reduceEq,
      if_false, if_true]
    omega

/-- A closing bracket in a text that balances has more opening than closing ones before it.  So it
closes one of them. -/
theorem Balanced.closed_lt (h : Balanced (a ++ ')' :: b)) : a.count ')' < a.count '(' := by
  have hle := h.closed_le (a.length + 1)
  have htake : (a ++ ')' :: b).take (a.length + 1) = a ++ [')'] := by
    simp [List.take_append, List.take_of_length_le]
  rw [htake] at hle
  simp only [List.count_append, List.count_cons, List.count_nil, beq_iff_eq, Char.reduceEq, if_false,
    if_true] at hle
  omega

/-- An opening bracket counts for itself. -/
theorem count_append_open (a b : List Char) :
    (a ++ '(' :: b).count '(' = a.count '(' + b.count '(' + 1 ∧
      (a ++ '(' :: b).count ')' = a.count ')' + b.count ')' := by
  rw [List.count_append, List.count_append, List.count_cons_self,
    List.count_cons_of_ne (by decide), Nat.add_assoc]
  exact ⟨rfl, rfl⟩

/-- A text without brackets has none to count. -/
theorem count_eq_zero_of_plain (h : ∀ c ∈ text, c ≠ '(' ∧ c ≠ ')') :
    text.count '(' = 0 ∧ text.count ')' = 0 := by
  rw [List.count_eq_zero, List.count_eq_zero]
  exact ⟨fun hmem => (h _ hmem).1 rfl, fun hmem => (h _ hmem).2 rfl⟩

/-- A text without brackets balances. -/
theorem Balanced.of_plain (h : ∀ c ∈ text, c ≠ '(' ∧ c ≠ ')') : Balanced text where
  closed_le := by
    intro n
    have hplain : ∀ c ∈ text.take n, c ≠ '(' ∧ c ≠ ')' := fun c hc => h c (List.mem_of_mem_take hc)
    have hcount := count_eq_zero_of_plain hplain
    omega
  closed_eq := by
    have hcount := count_eq_zero_of_plain h
    omega

/-! ## Partners -/

/-- Partners stay partners when more is written behind them. -/
theorem Closes.append (h : Closes a opening closing) (b : List Char) :
    Closes (a ++ b) opening closing := by
  obtain ⟨before, inner, after, rfl, hinner, hopening, hclosing⟩ := h
  exact ⟨before, inner, after ++ b, by simp, hinner, hopening, hclosing⟩

/-- Partners stay partners when more is written before them, in columns further down. -/
theorem Closes.prepend (h : Closes b opening closing) (a : List Char) :
    Closes (a ++ b) (a.length + opening) (a.length + closing) := by
  obtain ⟨before, inner, after, rfl, hinner, rfl, rfl⟩ := h
  refine ⟨a ++ before, inner, after, by simp, hinner, by simp, ?_⟩
  rw [List.length_append]
  omega

/-- A bracket of two texts, one behind the other, is one of the first or of the second. -/
theorem IsStray.of_append (h : IsStray (a ++ b) column) :
    IsStray a column ∨ ∃ i, column = a.length + i ∧ IsStray b i := by
  obtain ⟨hclose, hlone⟩ := h
  rw [List.getElem?_append] at hclose
  split at hclose
  next => exact .inl ⟨hclose, fun opening hcloses => hlone opening (hcloses.append b)⟩
  next hge =>
    obtain ⟨i, rfl⟩ := Nat.exists_eq_add_of_le (Nat.le_of_not_lt hge)
    rw [Nat.add_sub_cancel_left] at hclose
    exact .inr ⟨i, rfl, hclose, fun opening hcloses => hlone _ (hcloses.prepend a)⟩

/-- The same holds of brackets that are never closed: one that is not closed in the whole is not
closed in its part. -/
theorem IsUnclosed.of_append (h : IsUnclosed (a ++ b) column) :
    IsUnclosed a column ∨ ∃ i, column = a.length + i ∧ IsUnclosed b i := by
  obtain ⟨hopen, hlone⟩ := h
  rw [List.getElem?_append] at hopen
  split at hopen
  next => exact .inl ⟨hopen, fun closing hcloses => hlone closing (hcloses.append b)⟩
  next hge =>
    obtain ⟨i, rfl⟩ := Nat.exists_eq_add_of_le (Nat.le_of_not_lt hge)
    rw [Nat.add_sub_cancel_left] at hopen
    exact .inr ⟨i, rfl, hopen, fun closing hcloses => hlone _ (hcloses.prepend a)⟩

/-- One character has no partner, so it is a lone bracket only if it is a bracket. -/
theorem isStray_singleton (h : IsStray [c] column) : column = 0 ∧ c = ')' := by
  obtain ⟨hclose, -⟩ := h
  cases column <;> simp_all

/-- A lone bracket that is never closed is an opening one. -/
theorem isUnclosed_singleton (h : IsUnclosed [c] column) : column = 0 ∧ c = '(' := by
  obtain ⟨hopen, -⟩ := h
  cases column <;> simp_all

/-- The brackets around a text that balances are each other's partners. -/
theorem closes_wrap (h : Balanced inner) : Closes ('(' :: (inner ++ [')'])) 0 (inner.length + 1) :=
  ⟨[], inner, [], rfl, h, rfl, by simp⟩

namespace Matched

/-- Without brackets there is none without a partner. -/
theorem of_plain (h : ∀ c ∈ text, c ≠ '(' ∧ c ≠ ')') : Matched text where
  balanced := .of_plain h
  not_isStray := fun _ hstray => (h _ (List.mem_of_getElem? hstray.1)).2 rfl
  not_isUnclosed := fun _ hunclosed => (h _ (List.mem_of_getElem? hunclosed.1)).1 rfl

/-- **Texts in which all brackets have partners** can be put together, as no partner is lost.  The
counts in the second begin where those of the first have come back to nought. -/
theorem append (ha : Matched a) (hb : Matched b) : Matched (a ++ b) where
  balanced := ha.balanced.append hb.balanced
  not_isStray := by
    intro column h
    rcases h.of_append with h | ⟨i, -, h⟩
    · exact ha.not_isStray column h
    · exact hb.not_isStray i h
  not_isUnclosed := by
    intro column h
    rcases h.of_append with h | ⟨i, -, h⟩
    · exact ha.not_isUnclosed column h
    · exact hb.not_isUnclosed i h

/-- **Brackets around a text** are each other's partners, and those inside keep theirs.  The counts
in front of any place inside go up by one, and those behind it are not changed. -/
theorem wrap (h : Matched inner) : Matched ('(' :: (inner ++ [')'])) where
  balanced := h.balanced.wrap
  not_isStray := by
    intro column hstray
    have hends : IsStray (['('] ++ (inner ++ [')'])) column := hstray
    rcases hends.of_append with hopen | ⟨i, rfl, htail⟩
    · exact absurd (isStray_singleton hopen).2 (by decide)
    · rcases htail.of_append with hinner | ⟨j, rfl, hclose⟩
      · exact h.not_isStray i hinner
      · obtain ⟨rfl, -⟩ := isStray_singleton hclose
        refine hstray.2 0 ?_
        rw [List.length_singleton, Nat.add_zero, Nat.add_comm]
        exact closes_wrap h.balanced
  not_isUnclosed := by
    intro column hunclosed
    have hends : IsUnclosed (['('] ++ (inner ++ [')'])) column := hunclosed
    rcases hends.of_append with hopen | ⟨i, rfl, htail⟩
    · obtain ⟨rfl, -⟩ := isUnclosed_singleton hopen
      exact hunclosed.2 _ (closes_wrap h.balanced)
    · rcases htail.of_append with hinner | ⟨j, rfl, hclose⟩
      · exact h.not_isUnclosed i hinner
      · exact absurd (isUnclosed_singleton hclose).2 (by decide)

end Matched

/-- Digits are no brackets. -/
theorem plain_digitsOf (count? : Option Numeral) : ∀ c ∈ digitsOf count?, c ≠ '(' ∧ c ≠ ')' := by
  intro c hc
  have hdigit := isSome_of_mem_digitsOf hc
  constructor <;>
  · rintro rfl
    contradiction

/-- **The brackets of a sequence** have partners: along the items, counts and characters have no
brackets, and a group has those around its own sequence. -/
theorem Sequence.matched_text (q : Sequence) : Matched q.text := by
  induction q with
  | done dangling? => exact .of_plain (plain_digitsOf dangling?)
  | char count? c rest ih =>
      have hc : ∀ d ∈ [c.val], d ≠ '(' ∧ d ≠ ')' := by
        intro d hd
        obtain rfl := List.mem_singleton.mp hd
        exact ⟨c.ne_open, c.ne_close⟩
      exact (Matched.of_plain (plain_digitsOf count?)).append ((Matched.of_plain hc).append ih)
  | group count? body rest ihb ihr =>
      have htext : (group count? body rest).text =
          digitsOf count? ++ ('(' :: (body.text ++ [')']) ++ rest.text) := by simp [text]
      rw [htext]
      exact (Matched.of_plain (plain_digitsOf count?)).append (ihb.wrap.append ihr)

/-! ## Lone brackets -/

/-- A bracket behind the text of a sequence closes none: that text balances, so none is open in
front of the bracket. -/
theorem isStray_text (q : Sequence) (rest : List Char) :
    IsStray (q.text ++ ')' :: rest) q.text.length := by
  refine ⟨by simp, fun opening hcloses => ?_⟩
  obtain ⟨before, inner, after, htext, hinner, -, hlength⟩ := hcloses
  have hcut : q.text = before ++ '(' :: inner := by
    have hassoc : q.text ++ ')' :: rest = (before ++ '(' :: inner) ++ ')' :: after := by
      simpa using htext
    refine (List.append_inj hassoc ?_).1
    rw [List.length_append, List.length_cons]
    omega
  -- What is before the opening bracket would have to close one bracket more than it opens.
  have hle := q.matched_text.balanced.closed_le before.length
  have heq := q.matched_text.balanced.closed_eq
  have hinnereq := hinner.closed_eq
  have hcount := count_append_open before inner
  rw [hcut] at hle heq
  rw [List.take_left] at hle
  omega

/-- A bracket with a sequence behind it is not closed there.  The brackets of the sequence are each
other's partners, so none is left for it. -/
theorem isUnclosed_text (outer : List Char) (q : Sequence) :
    IsUnclosed (outer ++ '(' :: q.text) outer.length := by
  refine ⟨by simp, fun closing hcloses => ?_⟩
  obtain ⟨before, inner, after, htext, hinner, hlength, -⟩ := hcloses
  have hcut : q.text = inner ++ ')' :: after := by
    obtain ⟨-, htail⟩ := List.append_inj htext hlength
    exact (List.cons.inj htail).2
  have hbalanced := q.matched_text.balanced
  rw [hcut] at hbalanced
  have hlt := hbalanced.closed_lt
  have heq := hinner.closed_eq
  omega

namespace Pending

/-- All closing brackets of such a text close one, namely a bracket of their own sequence.  By
induction on the groups that are open. -/
theorem not_isStray (h : Pending text) : ∀ column, ¬IsStray text column := by
  induction h with
  | whole q => exact q.matched_text.not_isStray
  | @inside outer _ q ih =>
      intro column hstray
      have hends : IsStray (outer ++ (['('] ++ q.text)) column := hstray
      rcases hends.of_append with houter | ⟨i, -, htail⟩
      · exact ih column houter
      · rcases htail.of_append with hopen | ⟨j, -, hinner⟩
        · exact absurd (isStray_singleton hopen).2 (by decide)
        · exact q.matched_text.not_isStray j hinner

/-- In such a text no more brackets have been closed than opened. -/
theorem closed_le (h : Pending text) : text.count ')' ≤ text.count '(' := by
  induction h with
  | whole q => exact Nat.le_of_eq q.matched_text.balanced.closed_eq
  | @inside outer _ q ih =>
      have heq := q.matched_text.balanced.closed_eq
      have hcount := count_append_open outer q.text
      omega

/-- A character, with or without a count, can be put before such a text. -/
theorem char (h : Pending text) (count? : Option Numeral) (c : Literal) :
    Pending (digitsOf count? ++ c.val :: text) := by
  induction h with
  | whole q => exact .whole (.char count? c q)
  | inside _ q ih =>
      have hinside := ih.inside q
      simpa using hinside

/-- A group that is closed can be put before such a text. -/
theorem group (h : Pending text) (count? : Option Numeral) (body : Sequence) :
    Pending (digitsOf count? ++ '(' :: (body.text ++ ')' :: text)) := by
  induction h with
  | whole q => exact .whole (.group count? body q)
  | inside _ q ih =>
      have hinside := ih.inside q
      simpa using hinside

/-- **A group that is left open** can be opened before such a text, which is inside it then.  The
bracket that is never closed moves on with the text before it. -/
theorem nested (h : Pending text) (count? : Option Numeral) :
    Pending (digitsOf count? ++ '(' :: text) := by
  induction h with
  | whole q => exact (Pending.whole (.done count?)).inside q
  | inside _ q ih =>
      have hinside := ih.inside q
      simpa using hinside

end Pending

/-! ## Every text -/

/-- A text begins with a count, or with none, and what follows begins with no digit.  So the count
of an item can be told from the item. -/
theorem exists_digitsOf (text : List Char) :
    ∃ count? tail, text = digitsOf count? ++ tail ∧ NoDigit tail := by
  have hall : ∀ c ∈ text.takeWhile (fun c => (digit? c).isSome), (digit? c).isSome := by
    intro c hc
    have hdigit := List.mem_takeWhile_imp hc
    exact hdigit
  have hrest : NoDigit (text.dropWhile fun c => (digit? c).isSome) := by
    intro c hc
    have hstop := List.head?_dropWhile_not (fun c => (digit? c).isSome) text
    rw [hc] at hstop
    simpa using hstop
  obtain ⟨count?, hcount⟩ :
      ∃ count?, digitsOf count? = text.takeWhile fun c => (digit? c).isSome := by
    by_cases hnil : (text.takeWhile fun c => (digit? c).isSome) = []
    · exact ⟨none, hnil.symm⟩
    · exact ⟨some ⟨_, hnil, hall⟩, rfl⟩
  exact ⟨count?, _, by rw [hcount, List.takeWhile_append_dropWhile], hrest⟩

/-- **Reading brackets.** A text can be completed, or a sequence in it is followed by a stray
bracket.  The induction is on length, as what follows a group is read in a second step. -/
theorem pending_or_stray (text : List Char) :
    Pending text ∨ ∃ (q : Sequence) (rest : List Char), text = q.text ++ ')' :: rest := by
  induction hlength : text.length using Nat.strong_induction_on generalizing text with
  | _ length ih =>
      obtain ⟨count?, tail, rfl, hdigit⟩ := exists_digitsOf text
      rw [List.length_append] at hlength
      have hlater : ∀ later : List Char, later.length < tail.length →
          Pending later ∨ ∃ (q : Sequence) (rest : List Char), later = q.text ++ ')' :: rest :=
        fun later hlt => ih later.length (by omega) later rfl
      cases tail with
      | nil =>
          rw [List.append_nil]
          exact .inl (.whole (.done count?))
      | cons c rest =>
          by_cases hclose : c = ')'
          · subst hclose
            exact .inr ⟨.done count?, rest, rfl⟩
          by_cases hopen : c = '('
          · -- The group is closed by the first stray bracket behind its opening one.
            subst hopen
            rcases hlater rest (by simp) with hpending | ⟨body, behind, rfl⟩
            · exact .inl (hpending.nested count?)
            · rcases hlater behind (by simp; omega) with hpending | ⟨q, last, rfl⟩
              · exact .inl (hpending.group count? body)
              · exact .inr ⟨.group count? body q, last, by simp [Sequence.text]⟩
          · have hliteral : isLiteral c := by simp [isLiteral, hopen, hclose, hdigit c rfl]
            rcases hlater rest (by simp) with hpending | ⟨q, last, rfl⟩
            · exact .inl (hpending.char count? ⟨c, hliteral⟩)
            · exact .inr ⟨.char count? ⟨c, hliteral⟩ q, last, by simp [Sequence.text]⟩

/-- A text in which a sequence is followed by a stray bracket does not balance: up to the bracket,
one more is closed than is opened. -/
theorem not_balanced_stray (q : Sequence) (rest : List Char) : ¬Balanced (q.text ++ ')' :: rest) := by
  intro h
  have hlt := h.closed_lt
  have heq := q.matched_text.balanced.closed_eq
  omega

/-- A text that ends inside a group does not balance. -/
theorem Pending.not_balanced_inside (h : Pending text) (q : Sequence) :
    ¬Balanced (text ++ '(' :: q.text) := by
  intro hbalanced
  have hle := h.closed_le
  have heq := hbalanced.closed_eq
  have hq := q.matched_text.balanced.closed_eq
  have hcount := count_append_open text q.text
  omega

/-- **Texts that balance** are those of sequences.  Of the ways that a text can be, only one
balances. -/
theorem balanced_iff_exists : Balanced text ↔ ∃ q : Sequence, q.text = text := by
  constructor
  · intro h
    rcases pending_or_stray text with hpending | ⟨q, rest, rfl⟩
    · cases hpending with
      | whole q => exact ⟨q, rfl⟩
      | inside houter q => exact absurd h (houter.not_balanced_inside q)
    · exact absurd h (not_balanced_stray q rest)
  · rintro ⟨q, rfl⟩
    exact q.matched_text.balanced

/-! ## What is wrong with brackets -/

/-- **A bracket behind a sequence** that closes none is the fault of its text, since no bracket
before it is stray. -/
theorem bracketFault_stray (q : Sequence) (rest : List Char) :
    BracketFault (q.text ++ ')' :: rest) (.unexpectedClose q.text.length) q.text.length := by
  refine .stray (isStray_text q rest) fun other hlt hstray => ?_
  rcases hstray.of_append with hstray | ⟨i, hi, -⟩
  · exact q.matched_text.not_isStray other hstray
  · omega

/-- **A group that is not closed** is the fault of its text when no bracket is stray.  Its bracket
is the last that is never closed, as those inside it have partners. -/
theorem Pending.bracketFault_inside (h : Pending text) (q : Sequence) :
    BracketFault (text ++ '(' :: q.text) (.unbalancedGroup text.length)
      (text ++ '(' :: q.text).length := by
  refine .unclosed (h.inside q).not_isStray (isUnclosed_text text q) fun other hgt hunclosed => ?_
  have hends : IsUnclosed ((text ++ ['(']) ++ q.text) other := by simpa using hunclosed
  rcases hends.of_append with ⟨hopen, -⟩ | ⟨i, -, hinner⟩
  · have hlt := (List.getElem?_eq_some_iff.mp hopen).1
    rw [List.length_append, List.length_singleton] at hlt
    omega
  · exact q.matched_text.not_isUnclosed i hinner

end Sokoban.RunLength
