import Mathlib.Data.List.Forall2
import Sokoban.Proofs.Text

/-! # Tokens

The words and marks that a text in the language of PRISM consists of.  Blanks part words and mean
nothing else.  A mark of two characters is taken as such wherever the two stand side by side, so
texts that are put side by side keep their tokens only if the characters at the seam are apart
(`lex_append`): a word must not run into a word, nor a minus into `>`.

A model is written by putting texts side by side, so this is asked at every seam of it.  An operand
begins and ends with characters that are apart from the marks that operands are put between
(`Spells`), and the marks in turn begin and end with characters that no word goes into (`Parts`).
Both are closed under what the printing does: putting a mark in front (`Spells.after`), between two
operands (`Spells.between`) or between many (`Spells.intercalate`), and brackets around one
(`Spells.brackets`).

The tokens of a text are those of its lines (`flatMap_lex_lines`), for a line feed is a blank.  So a
model may be read as one text although its parts are found line by line.
-/

namespace Sokoban.Prism

/-- A word or a mark. -/
inductive Token where
  /-- A longest run of letters, digits and underscores. -/
  | word (text : List Char)
  /-- A mark of one character. -/
  | mark (c : Char)
  /-- The mark `->`. -/
  | arrow
  /-- The mark `!=`. -/
  | unequal
  /-- The mark `..`. -/
  | dots
deriving DecidableEq, Repr

/-- Whether a character belongs to words. -/
def isWordChar (c : Char) : Bool :=
  c.isAlphanum || c == '_'

/-- The mark that two characters are. -/
def pair? : Char → Char → Option Token
  | '-', '>' => some .arrow
  | '!', '=' => some .unequal
  | '.', '.' => some .dots
  | _, _ => none

/-- Puts a character in front of the tokens of the text behind it.  Where that text begins with a
character of the same word, its first token goes on with this one. -/
def push (c : Char) (joined : Bool) (tokens : List Token) : List Token :=
  if isWordChar c then
    match joined, tokens with
    | true, .word text :: rest => .word (c :: text) :: rest
    | _, _ => .word [c] :: tokens
  else if Text.isBlank c then tokens
  else .mark c :: tokens

/-- The tokens of a text. -/
def lex : List Char → List Token
  | [] => []
  | [c] => push c false []
  | c :: d :: rest =>
    match pair? c d with
    | some token => token :: lex rest
    | none => push c (isWordChar d) (lex (d :: rest))

/-- Two characters that belong to different tokens wherever they stand side by side: they make no
mark together, and do not go on with a word. -/
structure Apart (c d : Char) : Prop where
  pair?_eq : pair? c d = none
  parted : isWordChar c → isWordChar d = false

variable {c d : Char} {xs ys zs text : List Char} {ts us vs : List Token}

/-! ## Seams -/

/-- Two characters that make no mark are read one by one. -/
theorem lex_cons_cons (h : pair? c d = none) (rest : List Char) :
    lex (c :: d :: rest) = push c (isWordChar d) (lex (d :: rest)) := by
  rw [lex, h]

/-- Only three characters begin a mark of two, so a character of any other kind begins none. -/
theorem pair?_eq_none_of_left {p : Char → Bool} (hp : ['-', '!', '.'].all (!p ·)) (hc : p c) :
    pair? c d = none := by
  unfold pair?
  split
  all_goals first | rfl | simp_all

/-- Only three characters end a mark of two, so a character of any other kind ends none. -/
theorem pair?_eq_none_of_right {p : Char → Bool} (hp : ['>', '=', '.'].all (!p ·)) (hd : p d) :
    pair? c d = none := by
  unfold pair?
  split
  all_goals first | rfl | simp_all

/-- A character of a word begins no mark. -/
theorem pair?_word (hc : isWordChar c) : pair? c d = none :=
  pair?_eq_none_of_left (by decide) hc

/-- A text that begins with a character of a word has this word as its first token.  This is what
the next character in front is joined to. -/
theorem exists_lex_word (h : isWordChar c) (rest : List Char) :
    ∃ text ts, lex (c :: rest) = .word text :: ts := by
  cases rest with
  | nil => exact ⟨[c], [], by simp [lex, push, h]⟩
  | cons d rest =>
      rw [lex_cons_cons (pair?_word h)]
      unfold push
      rw [if_pos h]
      split
      next text later _ _ => exact ⟨c :: text, later, rfl⟩
      next => exact ⟨[c], _, rfl⟩

/-- A character in front of tokens does not see beyond the first of them.  What stands behind a seam
is therefore not touched by what stands before it. -/
theorem push_append {joined : Bool} (h : joined → ∃ text rest, ts = .word text :: rest) :
    push c joined (ts ++ us) = push c joined ts ++ us := by
  unfold push
  split
  next =>
    cases joined with
    | false => rfl
    | true =>
        obtain ⟨text, rest, rfl⟩ := h rfl
        rfl
  next =>
    split
    next => rfl
    next => rfl

/-- A single character that is apart from what follows is a token by itself, or a blank.  This is
the seam of one character, from which all others follow. -/
theorem lex_cons_of_apart (h : ∀ d ∈ ys.head?, Apart c d) : lex (c :: ys) = push c false [] ++ lex ys := by
  cases ys with
  | nil => simp [lex]
  | cons d rest =>
      obtain ⟨hpair, hparted⟩ := h d rfl
      have hjoined : push c (isWordChar d) (lex (d :: rest)) = push c false (lex (d :: rest)) := by
        unfold push
        split
        next hword => rw [hparted hword]
        next => rfl
      rw [lex_cons_cons hpair, hjoined]
      exact @push_append c [] _ false nofun

/-- **A seam** between characters that are apart parts the tokens.  By induction along the recursion
of `lex`, which takes two characters where they make a mark. -/
theorem lex_append (h : ∀ c ∈ xs.getLast?, ∀ d ∈ ys.head?, Apart c d) :
    lex (xs ++ ys) = lex xs ++ lex ys := by
  fun_induction lex xs with
  | case1 => rfl
  | case2 c => exact lex_cons_of_apart (h c rfl)
  | case3 c d rest token hpair ih =>
      have hrest : ∀ a ∈ rest.getLast?, ∀ b ∈ ys.head?, Apart a b := by
        intro a ha
        refine h a ?_
        cases rest with
        | nil => cases ha
        | cons e rest => exact ha
      rw [List.cons_append, List.cons_append, lex, hpair]
      exact congrArg (token :: ·) (ih hrest)
  | case4 c d rest hpair ih =>
      have hjoined : isWordChar d → ∃ text ts, lex (d :: rest) = .word text :: ts :=
        fun hword => exists_lex_word hword rest
      rw [List.cons_append, List.cons_append, lex_cons_cons hpair, ← List.cons_append, ih h,
        push_append hjoined]

/-! ## Characters that are apart -/

/-- Whether an operand can begin with a character: a word, a bracket, or the sign of a number or of
a negation. -/
def opens (c : Char) : Bool :=
  isWordChar c || c == '(' || c == '-' || c == '!'

/-- Whether an operand can end with a character: a word or a bracket. -/
def closes (c : Char) : Bool :=
  isWordChar c || c == ')'

/-- The end of an operand is apart from any mark. -/
theorem apart_of_closes (hc : closes c) (hd : !isWordChar d) : Apart c d :=
  ⟨pair?_eq_none_of_left (by decide) hc, fun _ => by simpa using hd⟩

/-- A mark is apart from the beginning of an operand, be it a sign: the marks with a second
character end with another one. -/
theorem apart_of_opens (hc : !isWordChar c) (hd : opens d) : Apart c d :=
  ⟨pair?_eq_none_of_right (by decide) hd, fun hword => absurd hword (by simpa using hc)⟩

/-- A blank is apart from anything before it. -/
theorem apart_blank (hd : Text.isBlank d) (hword : isWordChar d = false) : Apart c d :=
  ⟨pair?_eq_none_of_right (by decide) hd, fun _ => hword⟩

/-- A blank is apart from anything behind it. -/
theorem blank_apart (hc : Text.isBlank c) (hword : isWordChar c = false) : Apart c d :=
  ⟨pair?_eq_none_of_left (by decide) hc, fun h => absurd h (by simp [hword])⟩

/-! ## Lines -/

/-- A blank in front of a text is no token. -/
theorem lex_cons_blank (hc : Text.isBlank c) (hword : isWordChar c = false) (ys : List Char) :
    lex (c :: ys) = lex ys := by
  rw [lex_cons_of_apart fun d _ => blank_apart hc hword]
  simp [push, hc, hword]

/-- A blank is no token, and parts those around it, even two halves of a word. -/
theorem lex_append_blank (hc : Text.isBlank c) (hword : isWordChar c = false) (xs ys : List Char) :
    lex (xs ++ c :: ys) = lex xs ++ lex ys := by
  rw [lex_append, lex_cons_blank hc hword]
  intro a _ d hd
  obtain rfl := Option.some.inj hd
  exact apart_blank hc hword

/-- Whether a text is no part of any token. -/
def isGap (gap : List Char) : Bool :=
  gap.all fun c => Text.isBlank c && !isWordChar c

/-- A gap consists of blanks only. -/
theorem isGap_cons {gap : List Char} :
    isGap (c :: gap) ↔ (Text.isBlank c ∧ isWordChar c = false) ∧ isGap gap := by
  simp [isGap]

/-- A gap in front of a text is no token. -/
theorem lex_gap_append {gap : List Char} (h : isGap gap) (ys : List Char) :
    lex (gap ++ ys) = lex ys := by
  induction gap with
  | nil => rfl
  | cons c gap ih =>
      obtain ⟨⟨hc, hword⟩, hrest⟩ := isGap_cons.mp h
      rw [List.cons_append, lex_cons_blank hc hword, ih hrest]

/-- Texts with the same gap between them keep their tokens, whatever they begin and end with.  By
induction on the texts. -/
theorem lex_intercalate {gap : List Char} (h : isGap gap) (hne : gap ≠ [])
    (texts : List (List Char)) : lex (gap.intercalate texts) = texts.flatMap lex := by
  obtain ⟨c, gap, rfl⟩ := List.exists_cons_of_ne_nil hne
  obtain ⟨⟨hc, hword⟩, hrest⟩ := isGap_cons.mp h
  induction texts with
  | nil => rfl
  | cons text texts ih =>
      cases texts with
      | nil => simp
      | cons next texts =>
          rw [List.intercalate_cons_cons, List.append_assoc, List.cons_append,
            lex_append_blank hc hword, lex_gap_append hrest, ih, ← List.flatMap_cons]

/-- A carriage return at the end of a line is a blank as well. -/
theorem lex_dropReturn (line : List Char) : lex (Text.dropReturn line) = lex line := by
  unfold Text.dropReturn
  split
  next h =>
    obtain ⟨init, rfl⟩ := List.getLast?_eq_some_iff.mp h
    rw [List.dropLast_concat, lex_append_blank (by decide) (by decide), lex, List.append_nil]
  next => rfl

/-- **The tokens of a text** are those of its lines.  What is between lines is a gap, and no token
goes across a gap. -/
theorem flatMap_lex_lines (text : List Char) : (Text.lines text).flatMap lex = lex text := by
  by_cases hfeed : '\n' ∈ text
  · obtain ⟨line, rest, rfl, hline⟩ := List.eq_append_cons_of_mem hfeed
    rw [Text.lines_append hline, List.flatMap_cons, flatMap_lex_lines rest, lex_dropReturn,
      lex_append_blank (by decide) (by decide)]
  · cases text with
    | nil => rfl
    | cons c rest =>
        rw [Text.lines_of_not_mem hfeed (List.cons_ne_nil c rest), List.flatMap_singleton]
termination_by text.length

/-! ## Words -/

/-- A word is one token.  It is read from its end, and each character joins the word behind it. -/
theorem lex_word (hword : text.all isWordChar) (hne : text ≠ []) : lex text = [.word text] := by
  induction text with
  | nil => exact absurd rfl hne
  | cons c rest ih =>
      rw [List.all_cons, Bool.and_eq_true] at hword
      obtain ⟨hc, hrest⟩ := hword
      cases rest with
      | nil => simp [lex, push, hc]
      | cons d rest =>
          rw [lex_cons_cons (pair?_word hc), ih hrest (List.cons_ne_nil d rest),
            List.all_eq_true.mp hrest d List.mem_cons_self]
          simp [push, hc]

/-! ## Texts with the ends of an operand -/

/-- A text with certain tokens that begins and ends as operands do.  It can be put between marks
without a look at what it is. -/
structure Spells (text : List Char) (ts : List Token) : Prop where
  lex_eq : lex text = ts
  first : text.head?.any opens
  last : text.getLast?.any closes

/-- A text that no word goes into from either side, such as an operator with blanks around it. -/
structure Parts (text : List Char) : Prop where
  first : text.head?.any (!isWordChar ·)
  last : text.getLast?.any (!isWordChar ·)

instance (text : List Char) : Decidable (Parts text) :=
  decidable_of_iff (text.head?.any (!isWordChar ·) ∧ text.getLast?.any (!isWordChar ·))
    ⟨fun h => ⟨h.1, h.2⟩, fun h => ⟨h.first, h.last⟩⟩

section Ends

variable {p q : Char → Bool}

/-- What holds of the end of a text, which then is not empty, holds of it if there is one. -/
theorem all_of_any {end? : Option Char} (h : end?.any p) : end?.all p := by
  cases end? with
  | none => rfl
  | some c => exact h

/-- A text in front decides what the whole begins with. -/
theorem any_head?_append (h : xs.head?.any p) (ys : List Char) : (xs ++ ys).head?.any p := by
  cases xs with
  | nil => cases h
  | cons c xs => exact h

/-- A text at the end decides what the whole ends with. -/
theorem any_getLast?_append (h : ys.getLast?.any p) (xs : List Char) :
    (xs ++ ys).getLast?.any p := by
  obtain ⟨c, hc, hp⟩ := (Option.any_eq_true _ _).mp h
  rwa [List.getLast?_append, hc]

/-- Texts whose characters at the seam are of kinds that are apart.  This is `lex_append` in the
form that is used for operands and marks. -/
theorem lex_append_of (hpq : ∀ {c d}, p c → q d → Apart c d) (hxs : xs.getLast?.all p)
    (hys : ys.head?.all q) : lex (xs ++ ys) = lex xs ++ lex ys :=
  lex_append fun c hc d hd =>
    hpq ((Option.all_eq_true _ _).mp hxs c hc) ((Option.all_eq_true _ _).mp hys d hd)

end Ends

namespace Spells

/-- An operand in front of a text that no word goes into. -/
theorem append (h : Spells xs ts) (hys : ys.head?.all (!isWordChar ·)) :
    lex (xs ++ ys) = ts ++ lex ys := by
  rw [lex_append_of apart_of_closes (all_of_any h.last) hys, h.lex_eq]

/-- An operand behind a text that no word goes into. -/
theorem prepend (h : Spells ys us) (hxs : xs.getLast?.all (!isWordChar ·)) :
    lex (xs ++ ys) = lex xs ++ us := by
  rw [lex_append_of apart_of_opens hxs (all_of_any h.first), h.lex_eq]

/-- An operand between fixed texts that no word goes into.  The statement goes on with a rest, so
that a line of several such texts is taken apart by using it again. -/
theorem framed (h : Spells ys us) (front back : String)
    (hfront : front.toList.getLast?.all (!isWordChar ·)) (hback : Parts back.toList)
    (rest : List Char) :
    lex (front.toList ++ (ys ++ (back.toList ++ rest))) =
      lex front.toList ++ (us ++ lex (back.toList ++ rest)) := by
  have hfirst : (ys ++ (back.toList ++ rest)).head?.any opens := any_head?_append h.first _
  have hafter : (back.toList ++ rest).head?.any (!isWordChar ·) :=
    any_head?_append hback.first rest
  rw [lex_append_of apart_of_opens hfront (all_of_any hfirst), h.append (all_of_any hafter)]

/-- An operand with a mark in front of it is an operand again. -/
theorem after (h : Spells ys us) (hfirst : xs.head?.any opens)
    (hlast : xs.getLast?.all (!isWordChar ·)) : Spells (xs ++ ys) (lex xs ++ us) :=
  ⟨h.prepend hlast, any_head?_append hfirst ys, any_getLast?_append h.last xs⟩

/-- A mark between operands makes an operand of them. -/
theorem between (hxs : Spells xs ts) (hop : Parts ys) (hzs : Spells zs us) :
    Spells (xs ++ ys ++ zs) (ts ++ lex ys ++ us) := by
  have hprefix : lex (xs ++ ys) = ts ++ lex ys := hxs.append (all_of_any hop.first)
  have hlast : (xs ++ ys).getLast?.all (!isWordChar ·) :=
    all_of_any (any_getLast?_append hop.last xs)
  rw [← hprefix]
  exact hzs.after (any_head?_append hxs.first ys) hlast

/-- Operands with the same mark between them, one or more, are an operand.  By induction on the
operands. -/
theorem intercalate {texts : List (List Char)} {spelled : List (List Token)}
    (h : List.Forall₂ Spells texts spelled) (hne : texts ≠ []) (hop : Parts ys) :
    Spells (ys.intercalate texts) ((lex ys).intercalate spelled) := by
  induction h with
  | nil => exact absurd rfl hne
  | @cons text ts texts spelled hfirst hrest ih =>
      cases hrest with
      | nil => simpa using hfirst
      | cons hnext hlater =>
          rw [List.intercalate_cons_cons, List.intercalate_cons_cons]
          exact hfirst.between hop (ih (List.cons_ne_nil _ _))

/-- An operand in brackets is one whatever it is inside. -/
theorem brackets (h : Spells xs ts) :
    Spells ("(".toList ++ xs ++ ")".toList) ([.mark '('] ++ ts ++ [.mark ')']) := by
  have hopen : Spells ("(".toList ++ xs) ([.mark '('] ++ ts) := h.after (by decide) (by decide)
  exact ⟨hopen.append (by decide), any_head?_append hopen.first _,
    any_getLast?_append (by decide) _⟩

/-- A word is an operand: a name, a truth value or the digits of a number. -/
theorem of_word (hword : text.all isWordChar) (hne : text ≠ []) : Spells text [.word text] := by
  have hopens : ∀ c ∈ text, opens c := fun c hc => by
    rw [opens, List.all_eq_true.mp hword c hc, Bool.true_or, Bool.true_or, Bool.true_or]
  have hcloses : ∀ c ∈ text, closes c := fun c hc => by
    rw [closes, List.all_eq_true.mp hword c hc, Bool.true_or]
  refine ⟨lex_word hword hne, ?_, ?_⟩
  · rw [List.head?_eq_some_head hne]
    exact hopens _ (List.head_mem hne)
  · rw [List.getLast?_eq_some_getLast hne]
    exact hcloses _ (List.getLast_mem hne)

end Spells

end Sokoban.Prism
