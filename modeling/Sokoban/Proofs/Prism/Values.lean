import Sokoban.Proofs.Evaluation
import Sokoban.Proofs.Prism.Expressions

/-! # Written expressions keep their values

The text of an expression can be read, and what is read has the value of the expression wherever it
has one (`readExpression_expression`).  It need not be the expression that was written.  A conjunction
that is an operand of a conjunction is written without brackets, and its operands are read as operands
of the outer one; a conjunction or disjunction of one operand is read as this operand; and decimals
come back in their shortest form.
-/

namespace Sokoban

namespace Expr

open Prism.Grammar (joined)

variable {s : Valuation} {e : Expr} {es : List Expr} {held : Bool}

/-- Operands that are joined to a conjunction have the value of their conjunction, also where there
is only one and no conjunction is made. -/
theorem eval_joined_conj_iff :
    eval s (joined conj es) = some (.bool held) ↔ evalConj s es = some held := by
  unfold joined
  split
  next => exact evalConj_singleton_iff.symm
  next => simp [eval_conj_iff]

/-- Operands that are joined to a disjunction have the value of their disjunction. -/
theorem eval_joined_disj_iff :
    eval s (joined disj es) = some (.bool held) ↔ evalDisj s es = some held := by
  unfold joined
  split
  next => exact evalDisj_singleton_iff.symm
  next => simp [eval_disj_iff]

/-- The pieces that an operand of a conjunction is read as hold together where the operand does.  An
operand that is a conjunction is read as several pieces, any other one as a single piece. -/
theorem evalConj_pieces_iff :
    evalConj s (pieces [e]) = some held ↔ eval s (reading e) = some (.bool held) := by
  cases e
  case conj es => rw [pieces, pieces, List.append_nil, reading, eval_joined_conj_iff]
  all_goals exact evalConj_singleton_iff

/-- **What is read** keeps the value of what was written.  By induction on the expression; the
constructors keep values by the lemmas of `Keeps`, and conjunctions by those of their pieces. -/
theorem keeps_reading (s : Valuation) (e : Expr) : Keeps s e (reading e) := by
  induction e using inductionOn with
  | bool | int | var => exact .refl _
  | real value =>
      intro v hv
      rwa [reading, eval_written]
  | conj es ih =>
      intro v hv
      obtain ⟨held, hes, rfl⟩ := eval_conj_iff.mp hv
      rw [reading, eval_joined_conj_iff, pieces_eq_flatMap]
      exact evalConj_flatMap (fun e he b hb => evalConj_pieces_iff.mpr (ih e he _ hb)) hes
  | disj es ih =>
      intro v hv
      obtain ⟨held, hes, rfl⟩ := eval_disj_iff.mp hv
      rw [reading, eval_joined_disj_iff, readings_eq_flatMap]
      exact evalDisj_flatMap (fun e he b hb => evalDisj_singleton_iff.mpr (ih e he _ hb)) hes
  | neg e ih => exact ih.neg
  | eq a b iha ihb => exact iha.eq ihb
  | ne a b iha ihb => exact iha.ne ihb
  | cond c yes no ihc ihyes ihno => exact ihc.cond ihyes ihno
  | sub a b iha ihb => exact iha.sub ihb
  | mul a b iha ihb => exact iha.mul ihb
  | div a b iha ihb => exact iha.div ihb

end Expr

namespace Prism

open Sokoban.Expr (Legible)

/-- Reads a text that is an expression and nothing else. -/
def readExpression (text : List Char) : Option Expr := do
  let (e, rest) ← Grammar.expression (lex text)
  guard rest.isEmpty
  return e

variable {e : Expr}

/-- A written expression is read to its end. -/
theorem readExpression_eq (h : e.Legible) :
    readExpression (expression e).toList = some e.reading := by
  have hlex : lex (expression e).toList = tokens 0 e ++ [] := by
    rw [List.append_nil]
    exact (spells_nested h 0).lex_eq
  have hstop : Stops 0 [] := fun t ht => absurd ht (Option.not_mem_none t)
  rw [readExpression, hlex, expression_tokens h (Nat.zero_le 7) hstop]
  rfl

/-- **The text of an expression** can be read again, and what is read has the value of the
expression under every valuation under which the expression has one.  The reader knows the grammar
only, not how texts are written; so brackets are where they are needed, and chains join as they are
meant to. -/
theorem readExpression_expression (h : e.Legible) :
    ∃ parsed, readExpression (expression e).toList = some parsed ∧
      ∀ s v, e.eval s = some v → parsed.eval s = some v :=
  ⟨e.reading, readExpression_eq h, fun s => Expr.keeps_reading s e⟩

/-- An expression with places of many strengths: negated brackets, a conjunction in a conjunction, a
negative literal and chains from the left. -/
def crowded : Expr :=
  .cond (.conj [.neg (.disj [.var "b", .conj [.ne (.var "x") (.int (-2)), .bool false]]),
      .conj [.bool true]])
    (.sub (.var "x") (.sub (.int 1) (.div (.var "x") (.mul (.int (-2)) (.var "x"))))) (.var "x")

example : expression crowded =
    "!(b | (x!=-2 & false)) & true ? x-(1-x/(-2*x)) : x" := by
  decide +kernel

/-- It is legible: its names are names and its conjunctions have operands. -/
theorem legible_crowded : crowded.Legible := by
  have hb : IsName "b" := ⟨by decide, by decide, by decide, by decide, by decide⟩
  have hx : IsName "x" := ⟨by decide, by decide, by decide, by decide, by decide⟩
  have hpair : ∀ {e f : Expr}, e.Legible → f.Legible → ∀ g ∈ [e, f], g.Legible := by
    simp +contextual
  have hsingle : ∀ g ∈ [Expr.bool true], g.Legible := by
    simpa using Legible.bool true
  have hinner : (Expr.conj [.ne (.var "x") (.int (-2)), .bool false]).Legible :=
    .conj (by simp) (hpair (.ne (.var hx) (.int (-2))) (.bool false))
  have hcondition := hpair (.neg (.disj (by simp) (hpair (.var hb) hinner))) (.conj (by simp) hsingle)
  have hquotient : (Expr.div (.var "x") (.mul (.int (-2)) (.var "x"))).Legible :=
    .div (.var hx) (.mul (.int (-2)) (.var hx))
  exact .cond (.conj (by simp) hcondition) (.sub (.var hx) (.sub (.int 1) hquotient)) (.var hx)

/-- Its text is read as an expression with the same value. -/
theorem readExpression_expression_crowded :
    ∃ parsed, readExpression (expression crowded).toList = some parsed ∧
      parsed.eval (fun name => some (if name = "b" then .bool false else .num 3)) =
        some (.num (3 / 2)) := by
  obtain ⟨parsed, hparsed, hkeeps⟩ := readExpression_expression legible_crowded
  exact ⟨parsed, hparsed, hkeeps _ _ (by decide +kernel)⟩

end Prism

end Sokoban
