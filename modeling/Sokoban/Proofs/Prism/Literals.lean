import Sokoban.Prism
import Sokoban.Proofs.Decimal.Text
import Sokoban.Proofs.Decimal.Value
import Sokoban.Proofs.Prism.Grammar
import Sokoban.Proofs.Valuation

/-! # Numbers in written models

A number is written as its digits, with a point among them if it has places, and a sign.  The lexer
takes the digits on both sides of the point for words and the point for a mark, so a decimal is
three tokens and a sign a fourth (`numeral`).  A sign is a mark of its own, but it is read as part
of the number behind it.

Read again, it is the same number: an integer as it was (`Grammar.operand_int`), and a decimal in
its shortest form, which is an integer if it has no places left (`Grammar.operand_real`,
`Expr.written`).  Its value is the same in every case (`Expr.eval_written`).  What follows must not
be a point, for a word of digits would then be the first half of a decimal.
-/

namespace Sokoban

/-- The literal that a decimal is written as, in its shortest form.  Without places it is an
integer, since there is no point to tell the two apart. -/
def Expr.written (d : Decimal) : Expr :=
  if d.normalize.scale = 0 then .int (d.normalize.shifted 0) else .real d.normalize

/-- The literal has the value of the decimal. -/
theorem Expr.eval_written (s : Valuation) (d : Decimal) : eval s (written d) = some (.num d.value) := by
  unfold written
  split
  next hscale =>
    have hvalue := Decimal.shifted_eq (Nat.le_of_eq hscale)
    simp [eval, hvalue, Decimal.value_normalize]
  next => rw [eval, Decimal.value_normalize]

namespace Prism

open Decimal (isDigit_toDigits isDigit_padded length_padded ofDigitChars_padded)

/-- The tokens of a number without its sign. -/
def magnitude (mantissa places : Nat) : List Token :=
  let digits := Nat.toDigits 10 mantissa
  if places = 0 then
    [.word digits]
  else
    let padded := List.replicate (places + 1 - digits.length) '0' ++ digits
    [.word (padded.take (padded.length - places)), .mark '.',
      .word (padded.drop (padded.length - places))]

/-- The tokens of a number. -/
def numeral (negative : Bool) (mantissa places : Nat) : List Token :=
  if negative then .mark '-' :: magnitude mantissa places else magnitude mantissa places

variable {c : Char} {text : List Char} {rest : List Token} {negative : Bool} {mantissa places : Nat}

/-- Digits belong to words. -/
theorem isWordChar_of_isDigit (h : c.isDigit) : isWordChar c := by
  simp [isWordChar, Char.isAlphanum, h]

/-- Digits are one token. -/
theorem spells_digits (h : ∀ c ∈ text, c.isDigit) (hne : text ≠ []) : Spells text [.word text] :=
  .of_word (List.all_eq_true.mpr fun c hc => isWordChar_of_isDigit (h c hc)) hne

/-- Digits with a point among them are three tokens.  A point is no part of a word, and one point by
itself is not the mark of two. -/
theorem spells_pointed (h : ∀ c ∈ text, c.isDigit) {n : Nat} (hwhole : 0 < n)
    (hplaces : n < text.length) :
    Spells (text.take n ++ '.' :: text.drop n)
      [.word (text.take n), .mark '.', .word (text.drop n)] := by
  have hleft : Spells (text.take n) [.word (text.take n)] := by
    refine spells_digits (fun c hc => h c (List.mem_of_mem_take hc)) ?_
    apply List.ne_nil_of_length_pos
    rw [List.length_take]
    omega
  have hright : Spells (text.drop n) [.word (text.drop n)] := by
    refine spells_digits (fun c hc => h c (List.mem_of_mem_drop hc)) ?_
    apply List.ne_nil_of_length_pos
    rw [List.length_drop]
    omega
  have hpoint : Parts ['.'] := by decide
  have hboth := hleft.between hpoint hright
  rwa [List.append_assoc, List.singleton_append] at hboth

/-- A number without its sign is written as its tokens. -/
theorem spells_magnitude (mantissa places : Nat) :
    Spells (Decimal.insertPoint (Nat.toDigits 10 mantissa) places) (magnitude mantissa places) := by
  unfold Decimal.insertPoint magnitude
  split
  next => exact spells_digits (isDigit_toDigits mantissa) Nat.toDigits_ne_nil
  next hplaces =>
    have hlength := length_padded mantissa places
    exact spells_pointed (isDigit_padded mantissa places) (by omega) (by omega)

/-- A number without its sign begins with a digit, so it is told from a name.  The noughts in front
see to this where there are fewer digits than places. -/
theorem exists_magnitude (mantissa places : Nat) : ∃ text later,
    magnitude mantissa places = .word text :: later ∧ text.head?.any Char.isDigit := by
  have hfirst : ∀ text : List Char, (∀ c ∈ text, c.isDigit) → text ≠ [] →
      text.head?.any Char.isDigit := by
    intro text hdigits hne
    rw [List.head?_eq_some_head hne]
    exact hdigits _ (List.head_mem hne)
  unfold magnitude
  split
  next => exact ⟨_, _, rfl, hfirst _ (isDigit_toDigits mantissa) Nat.toDigits_ne_nil⟩
  next hplaces =>
    have hlength := length_padded mantissa places
    refine ⟨_, _, rfl, hfirst _ (fun c hc => ?_) ?_⟩
    · exact isDigit_padded mantissa places c (List.mem_of_mem_take hc)
    · apply List.ne_nil_of_length_pos
      rw [List.length_take]
      omega

/-- A sign is part of the number behind it and makes no mark with a digit. -/
theorem spells_signed (h : Spells text (magnitude mantissa places)) (negative : Bool) :
    Spells (if negative then '-' :: text else text) (numeral negative mantissa places) := by
  cases negative with
  | false => exact h
  | true =>
      have hfirst : ['-'].head?.any opens := by decide
      exact h.after hfirst (by decide)

/-- **A decimal** is written as the numeral of its shortest form.  Nought has no sign there. -/
theorem spells_number (d : Decimal) :
    Spells (number d).toList
      (numeral d.isNegative d.normalize.mantissa d.normalize.scale) := by
  have h := spells_signed (spells_magnitude d.normalize.mantissa d.normalize.scale) d.isNegative
  rw [number, Decimal.toText, Decimal.isNegative_normalize]
  cases hnegative : d.isNegative <;> simpa [hnegative] using h

/-- An integer is written as its numeral. -/
theorem spells_int (n : Int) : Spells (toString n).toList (numeral (n < 0) n.natAbs 0) := by
  have h := spells_signed (spells_magnitude n.natAbs 0) (n < 0)
  cases n with
  | ofNat m =>
      have hsign : ¬ (m : Int) < 0 := by omega
      simpa [Int.toString_eq_repr, Int.repr, Decimal.insertPoint, hsign] using h
  | negSucc m =>
      simpa [Int.toString_eq_repr, Int.repr, Decimal.insertPoint, Int.negSucc_lt_zero] using h

/-- A natural number is written as its digits. -/
theorem spells_nat (n : Nat) : Spells (toString n).toList (magnitude n 0) := by
  have h := spells_magnitude n 0
  simpa [Nat.toString_eq_repr, Decimal.insertPoint] using h

/-! ## Reading numbers -/

namespace Grammar

/-- A word of digits is read as the number that they stand for. -/
theorem natural_word (h : ∀ c ∈ text, c.isDigit) (rest : List Token) :
    natural (.word text :: rest) = some (Nat.ofDigitChars 10 text 0, rest) := by
  rw [natural, if_pos (List.all_eq_true.mpr h)]

/-- A natural number is read as it was written. -/
theorem natural_magnitude (n : Nat) (rest : List Token) :
    natural (magnitude n 0 ++ rest) = some (n, rest) := by
  have hdigits := natural_word (isDigit_toDigits n) rest
  rwa [Nat.ofDigitChars_toDigits (by decide) (by decide)] at hdigits

/-- Without a point behind it, a word of digits is an integer.  The sign that has been read before
it is put back on. -/
theorem literal_whole (mantissa : Nat) (hrest : .mark '.' ∉ rest.head?) :
    literal negative (magnitude mantissa 0 ++ rest) =
      some (.int (if negative then -mantissa else mantissa), rest) := by
  have hdigits : natural (.word (Nat.toDigits 10 mantissa) :: rest) = some (mantissa, rest) :=
    natural_magnitude mantissa rest
  change literal negative (.word (Nat.toDigits 10 mantissa) :: rest) = _
  unfold literal
  split
  next h =>
    obtain ⟨-, rfl⟩ := List.cons.inj h
    exact absurd rfl hrest
  next =>
    rw [hdigits]
    rfl

/-- Digits on both sides of a point are a decimal with as many places.  They fit, for they are those
of a decimal. -/
theorem literal_pointed (hmantissa : mantissa < twoPow 96) (hplaces : places ≤ 28)
    (hpoint : places ≠ 0) (rest : List Token) :
    literal negative (magnitude mantissa places ++ rest) =
      some (.real ⟨negative, mantissa, places, hmantissa, hplaces⟩, rest) := by
  have hlength := length_padded mantissa places
  have hdigits := List.all_eq_true.mpr (isDigit_padded mantissa places)
  have hvalue := ofDigitChars_padded (places + 1 - (Nat.toDigits 10 mantissa).length) mantissa
  simp only [magnitude, if_neg hpoint, List.cons_append, List.nil_append, literal,
    List.take_append_drop, if_pos hdigits, hvalue]
  rw [List.length_drop, Nat.sub_sub_self (by omega)]
  simp [Decimal.ofParts?, hmantissa, hplaces]

/-- The sign of a numeral is read first, and its digits afterwards. -/
theorem operand_numeral (whole : Reader Expr) (negative : Bool) (mantissa places : Nat)
    (rest : List Token) :
    operand whole (numeral negative mantissa places ++ rest) =
      literal negative (magnitude mantissa places ++ rest) := by
  cases negative with
  | true => rfl
  | false =>
      obtain ⟨text, later, hmagnitude, hdigit⟩ := exists_magnitude mantissa places
      change operand whole (magnitude mantissa places ++ rest) = _
      rw [hmagnitude, List.cons_append, operand, if_pos hdigit]

/-- **An integer** is read as it was written, if no point follows.  With a point behind it, it would
be read as the whole part of a decimal. -/
theorem operand_int (whole : Reader Expr) (n : Int) (hrest : .mark '.' ∉ rest.head?) :
    operand whole (numeral (n < 0) n.natAbs 0 ++ rest) = some (.int n, rest) := by
  have hsign : (if (decide (n < 0) : Bool) then -(n.natAbs : Int) else n.natAbs) = n := by
    simp only [decide_eq_true_eq]
    omega
  rw [operand_numeral, literal_whole _ hrest, hsign]

/-- **A decimal** is read in its shortest form.  Without places this is an integer, for the text
does not tell the two apart. -/
theorem operand_real (whole : Reader Expr) (d : Decimal) (hrest : .mark '.' ∉ rest.head?) :
    operand whole (numeral d.isNegative d.normalize.mantissa d.normalize.scale ++ rest) =
      some (.written d, rest) := by
  rw [operand_numeral, Expr.written]
  split
  next hscale =>
    rw [hscale, literal_whole _ hrest, Decimal.shifted, hscale, Nat.sub_self, tenPow_zero, Nat.mul_one]
    rfl
  next hscale => exact literal_pointed d.normalize.mantissa_lt d.normalize.scale_le hscale rest

end Grammar

end Prism

end Sokoban
