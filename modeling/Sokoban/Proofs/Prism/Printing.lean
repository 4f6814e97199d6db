import Sokoban.Proofs.Folding
import Sokoban.Proofs.Prism.Literals

/-! # The tokens of written expressions

What an expression is written as consists of the tokens `Prism.tokens` (`spells_nested`), which
follow its structure.  Brackets stand around what binds more loosely than its place asks for
(`wrap`), in the text and in the tokens alike, so nothing about the grammar is needed here: only
that an operator with an operand on either side parts them, whatever they are.

This asks for names that are words and for no empty conjunction or disjunction (`Expr.Legible`):
such an expression leaves nothing to be read.  A name must not be one of the truth values either,
which are words of the grammar.
-/

namespace Sokoban.Prism

/-- A word that is read as a name. -/
structure IsName (name : String) : Prop where
  word : name.toList.all isWordChar
  ne_nil : name.toList ≠ []
  not_digit : name.toList.head?.any Char.isDigit = false
  ne_true : name ≠ "true"
  ne_false : name ≠ "false"

/-- Tokens in brackets, where they bind more loosely than they have to. -/
def wrap (strength least : Nat) (ts : List Token) : List Token :=
  if strength < least then [.mark '('] ++ ts ++ [.mark ')'] else ts

mutual

/-- The tokens of an expression in a place that asks for at least the binding strength `least`. -/
def tokens (least : Nat) : Expr → List Token
  | .bool value => [.word (if value then "true" else "false").toList]
  | .int value => numeral (value < 0) value.natAbs 0
  | .real value => numeral value.isNegative value.normalize.mantissa value.normalize.scale
  | .var name => [.word name.toList]
  | .conj operands => wrap 2 least ([.mark '&'].intercalate (tokensAll 2 operands))
  | .disj operands => wrap 1 least ([.mark '|'].intercalate (tokensAll 3 operands))
  | .neg operand => wrap 3 least (.mark '!' :: tokens 3 operand)
  | .eq left right => wrap 4 least (tokens 5 left ++ .mark '=' :: tokens 5 right)
  | .ne left right => wrap 4 least (tokens 5 left ++ .unequal :: tokens 5 right)
  | .cond condition yes no =>
    wrap 0 least (tokens 1 condition ++ .mark '?' :: tokens 1 yes ++ .mark ':' :: tokens 0 no)
  | .sub left right => wrap 5 least (tokens 5 left ++ .mark '-' :: tokens 6 right)
  | .mul left right => wrap 6 least (tokens 6 left ++ .mark '*' :: tokens 7 right)
  | .div left right => wrap 6 least (tokens 6 left ++ .mark '/' :: tokens 7 right)

/-- The tokens of several expressions in places of one kind. -/
def tokensAll (least : Nat) : List Expr → List (List Token)
  | [] => []
  | e :: rest => tokens least e :: tokensAll least rest

end

end Prism

/-- An expression that can be written without loss. -/
inductive Expr.Legible : Expr → Prop
  | bool (value : Bool) : Legible (bool value)
  | int (value : Int) : Legible (int value)
  | real (value : Decimal) : Legible (real value)
  | var {name : String} (hname : Prism.IsName name) : Legible (var name)
  | conj {es : List Expr} (hne : es ≠ []) (h : ∀ e ∈ es, Legible e) : Legible (conj es)
  | disj {es : List Expr} (hne : es ≠ []) (h : ∀ e ∈ es, Legible e) : Legible (disj es)
  | neg {e : Expr} (h : Legible e) : Legible (neg e)
  | eq {a b : Expr} (ha : Legible a) (hb : Legible b) : Legible (eq a b)
  | ne {a b : Expr} (ha : Legible a) (hb : Legible b) : Legible (ne a b)
  | cond {c yes no : Expr} (hc : Legible c) (hyes : Legible yes) (hno : Legible no) :
      Legible (cond c yes no)
  | sub {a b : Expr} (ha : Legible a) (hb : Legible b) : Legible (sub a b)
  | mul {a b : Expr} (ha : Legible a) (hb : Legible b) : Legible (mul a b)
  | div {a b : Expr} (ha : Legible a) (hb : Legible b) : Legible (div a b)

namespace Prism

open Sokoban.Expr (Legible)

variable {e : Expr} {es : List Expr} {ts us : List Token} {name text other : String}

/-- The operands of a connective are written each by itself. -/
theorem nestedAll_eq_map (least : Nat) (es : List Expr) :
    nestedAll least es = es.map (nested least) := by
  induction es with
  | nil => rfl
  | cons e es ih => rw [nestedAll, ih, List.map_cons]

/-- The operands of a connective have the tokens of each. -/
theorem tokensAll_eq_map (least : Nat) (es : List Expr) :
    tokensAll least es = es.map (tokens least) := by
  induction es with
  | nil => rfl
  | cons e es ih => rw [tokensAll, ih, List.map_cons]

/-- A name is one word. -/
theorem spells_name (h : IsName name) : Spells name.toList [.word name.toList] :=
  .of_word h.word h.ne_nil

/-- Brackets in the text are brackets among the tokens, and both stand in the same places. -/
theorem spells_bracket (h : Spells text.toList ts) (strength least : Nat) :
    Spells (bracket strength least text).toList (wrap strength least ts) := by
  unfold bracket wrap
  split
  next => simpa only [String.toList_append] using h.brackets
  next => exact h

/-- An operator between two operands.  Its tokens stand between theirs, because it parts them. -/
theorem spells_binary (hleft : Spells text.toList ts) (hright : Spells other.toList us)
    {operator : String} {t : Token} (hparts : Parts operator.toList) (hlex : lex operator.toList = [t]) :
    Spells (text ++ operator ++ other).toList (ts ++ t :: us) := by
  have h := hleft.between hparts hright
  rw [hlex, List.append_assoc ts, List.singleton_append] at h
  simpa only [String.toList_append] using h

/-- An operator between several operands, of which there is one at least. -/
theorem spells_operands {operator : String} {t : Token} {least : Nat} (hne : es ≠ [])
    (h : ∀ e ∈ es, Spells (nested least e).toList (tokens least e))
    (hparts : Parts operator.toList) (hlex : lex operator.toList = [t]) :
    Spells (operator.intercalate (nestedAll least es)).toList
      ([t].intercalate (tokensAll least es)) := by
  have hall : List.Forall₂ Spells ((nestedAll least es).map String.toList) (tokensAll least es) := by
    rw [nestedAll_eq_map, tokensAll_eq_map, List.map_map, List.forall₂_map_left_iff,
      List.forall₂_map_right_iff, List.forall₂_same]
    exact h
  have hboth := Spells.intercalate hall (by simpa [nestedAll_eq_map] using hne) hparts
  rw [hlex] at hboth
  simpa only [String.toList_intercalate] using hboth

/-- **A written expression** consists of its tokens.  By induction on the expression, with the
strength that its place asks for left open. -/
theorem spells_nested (h : e.Legible) (least : Nat) :
    Spells (nested least e).toList (tokens least e) := by
  induction h generalizing least with
  | bool value =>
      have htrue : Spells "true".toList [.word "true".toList] := .of_word (by decide) (by decide)
      have hfalse : Spells "false".toList [.word "false".toList] := .of_word (by decide) (by decide)
      cases value with
      | true => exact htrue
      | false => exact hfalse
  | int value => exact spells_int value
  | real value => exact spells_number value
  | var hname => exact spells_name hname
  | conj hne _ ih =>
      exact spells_bracket (spells_operands hne (fun e he => ih e he 2) (by decide) (by decide)) 2 least
  | disj hne _ ih =>
      exact spells_bracket (spells_operands hne (fun e he => ih e he 3) (by decide) (by decide)) 1 least
  | neg _ ih =>
      refine spells_bracket ?_ 3 least
      rw [String.toList_append]
      exact (ih 3).after (by decide) (by decide)
  | eq _ _ iha ihb =>
      exact spells_bracket (spells_binary (iha 5) (ihb 5) (by decide) (by decide)) 4 least
  | ne _ _ iha ihb =>
      exact spells_bracket (spells_binary (iha 5) (ihb 5) (by decide) (by decide)) 4 least
  | cond _ _ _ ihc ihyes ihno =>
      refine spells_bracket ?_ 0 least
      have hmark : lex " ? ".toList = [.mark '?'] := by decide
      exact spells_binary (spells_binary (ihc 1) (ihyes 1) (by decide) hmark) (ihno 0) (by decide)
        (by decide)
  | sub _ _ iha ihb =>
      exact spells_bracket (spells_binary (iha 5) (ihb 6) (by decide) (by decide)) 5 least
  | mul _ _ iha ihb =>
      exact spells_bracket (spells_binary (iha 6) (ihb 7) (by decide) (by decide)) 6 least
  | div _ _ iha ihb =>
      exact spells_bracket (spells_binary (iha 6) (ihb 7) (by decide) (by decide)) 6 least

end Sokoban.Prism
