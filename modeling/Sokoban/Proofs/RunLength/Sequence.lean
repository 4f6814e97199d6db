import Mathlib.Data.String.Basic
import Sokoban.Proofs.RunLength

/-! # Sequences of items

An encoded text is written item by item: characters and groups, each with a count or without one,
and at the end there may be a count with nothing to repeat.  What the text stands for is told along
the items (`Sequence.expand`), and so is which of them have to fit (`Sequence.limited`).  A count
ends where no digit follows, and a group where a bracket closes it, so the items can be found in the
text (`Sequence.text_injective`).

Sequences are the grammar that the decoder does not have.  It reads characters and keeps a stack,
while a sequence is a tree whose text, meaning and limits are each one recursion.  Columns and bytes
are told beforehand, from where the sequence begins; in which column a fault is reported can then be
said of the text, without running the decoder.
-/

namespace Sokoban.RunLength

/-- A count as it is written: digits, one at least. -/
structure Numeral where
  digits : List Char
  ne_nil : digits ≠ []
  isDigit : ∀ c ∈ digits, (digit? c).isSome

/-- The number that the digits say, up to the largest count. -/
def Numeral.value (n : Numeral) : Nat :=
  min (Nat.ofDigitChars 10 n.digits 0) maxCount

/-- A character that stands for itself. -/
abbrev Literal := { c : Char // isLiteral c }

/-- A sequence of items.  An item is a character or a group, either of which may have a count; behind
the last item there may be a count with nothing to repeat. -/
inductive Sequence where
  | done (dangling? : Option Numeral)
  | char (count? : Option Numeral) (c : Literal) (rest : Sequence)
  | group (count? : Option Numeral) (body rest : Sequence)

/-- An item that has to fit into its sequence: the column where it begins, the column behind it, and
the bytes that its sequence holds once it is complete. -/
structure Item where
  column : Nat
  stop : Nat
  bytes : Nat

/-- Whether an item does not fit. -/
def Item.exceeds (item : Item) : Bool :=
  maxBytes < item.bytes

/-- How a count is written; nothing where there is none. -/
def digitsOf (count? : Option Numeral) : List Char :=
  count?.elim [] Numeral.digits

/-- How often an item stands. -/
def timesOf (count? : Option Numeral) : Nat :=
  count?.elim 1 Numeral.value

namespace Sequence

/-- The text that a sequence is written as. -/
def text : Sequence → List Char
  | done dangling? => digitsOf dangling?
  | char count? c rest => digitsOf count? ++ c.val :: rest.text
  | group count? body rest => digitsOf count? ++ '(' :: (body.text ++ ')' :: rest.text)

/-- The text that a sequence stands for: every item as often as its count says. -/
def expand : Sequence → List Char
  | done _ => []
  | char count? c rest => List.replicate (timesOf count?) c.val ++ rest.expand
  | group count? body rest => (List.replicate (timesOf count?) body.expand).flatten ++ rest.expand

/-- The items that have to fit, in the order in which they are complete: characters with a count,
and all groups.  The first item begins in `column`, and the sequence holds `bytes` bytes by then.
Each group begins with none, and its own items are complete before it is. -/
def limited (column bytes : Nat) : Sequence → List Item
  | done _ => []
  | char none c rest => rest.limited (column + 1) (bytes + c.val.utf8Size)
  | char (some count) c rest =>
    let item : Item :=
      ⟨column, column + count.digits.length + 1, bytes + count.value * c.val.utf8Size⟩
    item :: rest.limited item.stop item.bytes
  | group count? body rest =>
    let inner := column + (digitsOf count?).length + 1
    let item : Item :=
      ⟨column, inner + body.text.length + 1, bytes + timesOf count? * String.utf8Len body.expand⟩
    body.limited inner 0 ++ item :: rest.limited item.stop item.bytes

end Sequence

variable {q r : Sequence} {column bytes : Nat} {item : Item} {tail rest : List Char} {c : Char}

/-! ## Where items are -/

/-- **An item of a sequence lies within its text**: it is complete behind the column where the
sequence begins and not behind its end. -/
theorem Sequence.stop_of_mem_limited (h : item ∈ q.limited column bytes) :
    column < item.stop ∧ item.stop ≤ column + q.text.length := by
  induction q generalizing column bytes with
  | done => cases h
  | char count? c rest ih =>
      cases count? with
      | none =>
          have hrest := ih h
          simp only [text, digitsOf, Option.elim, List.nil_append, List.length_cons]
          omega
      | some count =>
          simp only [text, digitsOf, Option.elim, List.length_append, List.length_cons]
          rcases List.mem_cons.mp h with rfl | h
          · simp only
            omega
          · have hrest := ih h
            simp only at hrest
            omega
  | group count? body rest ihb ihr =>
      simp only [text, List.length_append, List.length_cons]
      rcases List.mem_append.mp h with h | h
      · have hbody := ihb h
        omega
      · rcases List.mem_cons.mp h with rfl | h
        · simp only
          omega
        · have hrest := ihr h
          simp only at hrest
          omega

/-- **Items are complete one after the other.** A group is complete behind all items in it, and
whatever follows is complete behind the group.  So the first that does not fit is the first in the
list. -/
theorem Sequence.pairwise_limited (q : Sequence) (column bytes : Nat) :
    (q.limited column bytes).Pairwise (·.stop < ·.stop) := by
  induction q generalizing column bytes with
  | done => exact .nil
  | char count? c rest ih =>
      cases count? with
      | none => exact ih _ _
      | some count => exact .cons (fun item h => (stop_of_mem_limited h).1) (ih _ _)
  | group count? body rest ihb ihr =>
      refine List.pairwise_append.mpr ⟨ihb _ _, ?_, fun a ha b hb => ?_⟩
      · exact .cons (fun item h => (stop_of_mem_limited h).1) (ihr _ _)
      · have hbody := (stop_of_mem_limited ha).2
        rcases List.mem_cons.mp hb with rfl | hb
        · simp only
          omega
        · have hrest := (stop_of_mem_limited hb).1
          simp only at hrest
          omega

/-! ## Counts -/

/-- A text that does not begin with a digit, so that a count in front of it ends there. -/
def NoDigit (tail : List Char) : Prop :=
  ∀ c ∈ tail.head?, digit? c = none

/-- A count is written in digits. -/
theorem isSome_of_mem_digitsOf {count? : Option Numeral} (h : c ∈ digitsOf count?) :
    (digit? c).isSome := by
  cases count? with
  | none => cases h
  | some count => exact count.isDigit c h

/-- Different counts are written differently; with leading zeros, one number may be the value of
several. -/
theorem digitsOf_injective : Function.Injective digitsOf := by
  intro a b h
  cases a with
  | none =>
      cases b with
      | none => rfl
      | some n => exact absurd h.symm n.ne_nil
  | some m =>
      cases b with
      | none => exact absurd h m.ne_nil
      | some n =>
          obtain ⟨digits, _, _⟩ := m
          obtain ⟨_, _, _⟩ := n
          obtain rfl : digits = _ := h
          rfl

/-- The digits at the beginning of a text are the count, if no digit follows it. -/
theorem takeWhile_digitsOf (count? : Option Numeral) (h : NoDigit tail) :
    (digitsOf count? ++ tail).takeWhile (fun c => (digit? c).isSome) = digitsOf count? := by
  rw [List.takeWhile_append_of_pos fun c hc => isSome_of_mem_digitsOf hc]
  cases tail with
  | nil => simp
  | cons c rest => simp [h c rfl]

/-- A count and what follows it can be told apart. -/
theorem digitsOf_append_inj {a b : Option Numeral} (htail : NoDigit tail) (hrest : NoDigit rest)
    (h : digitsOf a ++ tail = digitsOf b ++ rest) : a = b ∧ tail = rest := by
  have hdigits : digitsOf a = digitsOf b := by
    rw [← takeWhile_digitsOf a htail, h, takeWhile_digitsOf b hrest]
  refine ⟨digitsOf_injective hdigits, ?_⟩
  rw [hdigits] at h
  exact List.append_cancel_left h

/-! ## Texts of sequences -/

/-- A character that stands for itself opens no group. -/
theorem Literal.ne_open (c : Literal) : c.val ≠ '(' := by
  have h := c.property
  simp only [isLiteral, Bool.and_eq_true, bne_iff_ne] at h
  exact h.1.1

/-- A character that stands for itself closes no group. -/
theorem Literal.ne_close (c : Literal) : c.val ≠ ')' := by
  have h := c.property
  simp only [isLiteral, Bool.and_eq_true, bne_iff_ne] at h
  exact h.1.2

/-- A character that stands for itself is no digit, so a count before it ends there. -/
theorem Literal.digit?_eq_none (c : Literal) : digit? c.val = none := by
  have h := c.property
  simp only [isLiteral, Bool.and_eq_true, Option.isNone_iff_eq_none] at h
  exact h.2

/-- What may stand behind a sequence: nothing, or the bracket that closes it. -/
def Ends (tail : List Char) : Prop :=
  ∀ c ∈ tail.head?, c = ')'

/-- Where a sequence ends, a count at its end does. -/
theorem Ends.noDigit (h : Ends tail) : NoDigit tail := by
  intro c hc
  rw [h c hc]
  rfl

/-- A count ends where its character stands. -/
theorem noDigit_literal (c : Literal) (tail : List Char) : NoDigit (c.val :: tail) := by
  intro d hd
  obtain rfl : c.val = d := by simpa using hd
  exact c.digit?_eq_none

/-- A count ends where its group is opened. -/
theorem noDigit_open (tail : List Char) : NoDigit ('(' :: tail) := by
  intro d hd
  obtain rfl : '(' = d := by simpa using hd
  rfl

/-- A sequence may end where its group is closed. -/
theorem ends_close (tail : List Char) : Ends (')' :: tail) := by
  intro d hd
  obtain rfl : ')' = d := by simpa using hd
  rfl

/-- **A sequence is determined by its text**, also where more follows behind it.  After a count, the
next character tells which kind of item there is, and whether there is another one at all. -/
theorem Sequence.text_append_inj (htail : Ends tail) (hrest : Ends rest)
    (h : q.text ++ tail = r.text ++ rest) : q = r ∧ tail = rest := by
  induction q generalizing r tail rest with
  -- Two sequences that begin alike have the same count first.  The cases in which the kinds of
  -- items differ are refuted by the character behind it.
  | done a =>
      cases r with
      | done b =>
          obtain ⟨rfl, rfl⟩ := digitsOf_append_inj htail.noDigit hrest.noDigit h
          exact ⟨rfl, rfl⟩
      | char b d r =>
          simp only [text, List.append_assoc, List.cons_append] at h
          obtain ⟨-, rfl⟩ := digitsOf_append_inj htail.noDigit (noDigit_literal d _) h
          exact absurd (htail _ rfl) d.ne_close
      | group b body r =>
          simp only [text, List.append_assoc, List.cons_append] at h
          obtain ⟨-, rfl⟩ := digitsOf_append_inj htail.noDigit (noDigit_open _) h
          exact absurd (htail _ rfl) (by decide)
  | char a c q ih =>
      simp only [text, List.append_assoc, List.cons_append] at h
      cases r with
      | done b =>
          obtain ⟨-, rfl⟩ := digitsOf_append_inj (noDigit_literal c _) hrest.noDigit h
          exact absurd (hrest _ rfl) c.ne_close
      | char b d r =>
          simp only [text, List.append_assoc, List.cons_append] at h
          obtain ⟨rfl, hcons⟩ := digitsOf_append_inj (noDigit_literal c _) (noDigit_literal d _) h
          obtain ⟨hc, hlater⟩ := List.cons.inj hcons
          obtain ⟨rfl, rfl⟩ := ih htail hrest hlater
          exact ⟨by rw [Subtype.ext hc], rfl⟩
      | group b body r =>
          simp only [text, List.append_assoc, List.cons_append] at h
          obtain ⟨-, hcons⟩ := digitsOf_append_inj (noDigit_literal c _) (noDigit_open _) h
          exact absurd (List.cons.inj hcons).1 c.ne_open
  | group a body q ihb ihq =>
      simp only [text, List.append_assoc, List.cons_append] at h
      cases r with
      | done b =>
          obtain ⟨-, rfl⟩ := digitsOf_append_inj (noDigit_open _) hrest.noDigit h
          exact absurd (hrest _ rfl) (by decide)
      | char b d r =>
          simp only [text, List.append_assoc, List.cons_append] at h
          obtain ⟨-, hcons⟩ := digitsOf_append_inj (noDigit_open _) (noDigit_literal d _) h
          exact absurd (List.cons.inj hcons).1.symm d.ne_open
      | group b other r =>
          simp only [text, List.append_assoc, List.cons_append] at h
          obtain ⟨rfl, hcons⟩ := digitsOf_append_inj (noDigit_open _) (noDigit_open _) h
          obtain ⟨rfl, hclose⟩ := ihb (ends_close _) (ends_close _) (List.cons.inj hcons).2
          obtain ⟨rfl, rfl⟩ := ihq htail hrest (List.cons.inj hclose).2
          exact ⟨rfl, rfl⟩

/-- **A text is the text of one sequence at most.** It is the case of the lemma before in which
nothing follows. -/
theorem Sequence.text_injective : Function.Injective Sequence.text := by
  intro q r h
  have hnil : Ends [] := nofun
  have happend : q.text ++ [] = r.text ++ [] := congrArg (· ++ []) h
  exact (text_append_inj hnil hnil happend).1

end Sokoban.RunLength
