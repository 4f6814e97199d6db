import Sokoban.Proofs.Building
import Sokoban.Proofs.Prism.Expressions

/-! # Folded expressions are read as they were

Writing and reading an expression may change it in three ways: operands of a conjunction in a
conjunction become its own, a conjunction or disjunction of one operand becomes this operand, and
decimals get their shortest forms.  The expressions of a model are folded, and in a folded
expression there is no conjunction in a conjunction and none of fewer than two operands.  So only
the third change is left (`Folded.reading_eq`): integers stay as they are, and decimals get their
shortest form (`Expr.plain`), which is the same number (`eval_plain`).

An expression is `Clear` if it is folded and its names can be read again; then nothing is lost but
the form of literals, wherever it is written (`Clear.expression_eq`).
-/

namespace Sokoban

namespace Expr

open Prism (IsName)

mutual

/-- The expression with every decimal in its shortest form. -/
def plain : Expr → Expr
  | bool value => bool value
  | int value => int value
  | real value => written value
  | var name => var name
  | conj operands => conj (plainAll operands)
  | disj operands => disj (plainAll operands)
  | neg operand => neg (plain operand)
  | eq left right => eq (plain left) (plain right)
  | ne left right => ne (plain left) (plain right)
  | cond condition yes no => cond (plain condition) (plain yes) (plain no)
  | sub left right => sub (plain left) (plain right)
  | mul left right => mul (plain left) (plain right)
  | div left right => div (plain left) (plain right)

/-- Expressions with every decimal in its shortest form. -/
def plainAll : List Expr → List Expr
  | [] => []
  | e :: rest => plain e :: plainAll rest

end

/-- A folded expression with names that can be read. -/
structure Clear (e : Expr) : Prop where
  folded : Folded e
  names : ∀ name ∈ e.names, IsName name

variable {e : Expr} {es : List Expr}

/-! ## Values -/

mutual

/-- **The forms of literals** make no difference to values, in any state.  By induction on the
expression; only decimals change at all. -/
theorem eval_plain (s : Valuation) : ∀ e : Expr, eval s (plain e) = eval s e
  | bool _ | int _ | var _ => rfl
  | real value => by rw [plain, eval_written, eval]
  | conj es => by rw [plain, eval, eval, evalConj_plainAll s es]
  | disj es => by rw [plain, eval, eval, evalDisj_plainAll s es]
  | neg e => by rw [plain, eval, eval, eval_plain s e]
  | eq a b => by rw [plain, eval, eval, eval_plain s a, eval_plain s b]
  | ne a b => by rw [plain, eval, eval, eval_plain s a, eval_plain s b]
  | cond c yes no => by rw [plain, eval, eval, eval_plain s c, eval_plain s yes, eval_plain s no]
  | sub a b => by rw [plain, eval, eval, eval_plain s a, eval_plain s b]
  | mul a b => by rw [plain, eval, eval, eval_plain s a, eval_plain s b]
  | div a b => by rw [plain, eval, eval, eval_plain s a, eval_plain s b]

/-- Nor do they to the operands of a conjunction, read one by one. -/
theorem evalConj_plainAll (s : Valuation) : ∀ es : List Expr, evalConj s (plainAll es) = evalConj s es
  | [] => rfl
  | e :: rest => by rw [plainAll, evalConj, evalConj, eval_plain s e, evalConj_plainAll s rest]

/-- Nor do they to the operands of a disjunction. -/
theorem evalDisj_plainAll (s : Valuation) : ∀ es : List Expr, evalDisj s (plainAll es) = evalDisj s es
  | [] => rfl
  | e :: rest => by rw [plainAll, evalDisj, evalDisj, eval_plain s e, evalDisj_plainAll s rest]

end

/-! ## Folded expressions -/

/-- Putting several expressions into plain form is putting each of them into it. -/
theorem plainAll_eq_map (es : List Expr) : plainAll es = es.map plain := by
  induction es with
  | nil => rfl
  | cons e es ih => rw [plainAll, ih, List.map_cons]

/-- No conjunction is an operand of a folded conjunction, so every operand is read as one piece. -/
theorem pieces_of_isConjunct (h : ∀ e ∈ es, e.isConjunct) : pieces es = readings es := by
  induction es with
  | nil => rfl
  | cons e es ih =>
      obtain ⟨hkind, hrest⟩ := List.forall_mem_cons.mp h
      rw [pieces_cons, ih hrest, readings]
      cases e
      case conj => exact absurd hkind (by simp [isConjunct])
      all_goals rfl

/-- Operands are read as they were if each of them is. -/
theorem readings_eq_plainAll (h : ∀ e ∈ es, reading e = plain e) : readings es = plainAll es := by
  induction es with
  | nil => rfl
  | cons e es ih =>
      obtain ⟨hfirst, hrest⟩ := List.forall_mem_cons.mp h
      rw [readings, plainAll, hfirst, ih hrest]

/-- Two operands or more are joined to a conjunction or disjunction; it is only a single one that
would be left as it is. -/
theorem joined_of_two {join : List Expr → Expr} (h : 2 ≤ es.length) :
    Prism.Grammar.joined join es = join es := by
  unfold Prism.Grammar.joined
  split
  next => exact absurd h (by simp)
  next => rfl

/-- **A folded expression** is read as it was, with its literals in their shortest forms.  By
induction on how it is folded. -/
theorem Folded.reading_eq (h : Folded e) : reading e = plain e := by
  induction h with
  | bool | int | real | var => rfl
  | @conj es hmany hkind _ ih =>
      have hreadings := readings_eq_plainAll ih
      have hlength : 2 ≤ (plainAll es).length := by rwa [plainAll_eq_map, List.length_map]
      rw [reading, pieces_of_isConjunct hkind, hreadings, joined_of_two hlength, plain]
  | @disj es hmany hkind _ ih =>
      have hreadings := readings_eq_plainAll ih
      have hlength : 2 ≤ (plainAll es).length := by rwa [plainAll_eq_map, List.length_map]
      rw [reading, hreadings, joined_of_two hlength, plain]
  | neg _ _ ih => rw [reading, plain, ih]
  | eq _ _ iha ihb | ne _ _ iha ihb | sub _ _ iha ihb | mul _ _ iha ihb | div _ _ iha ihb =>
      rw [reading, plain, iha, ihb]
  | cond _ _ _ _ _ ihc ihyes ihno => rw [reading, plain, ihc, ihyes, ihno]

/-- A folded expression leaves nothing to be read: it has no conjunction or disjunction without
operands. -/
theorem Folded.legible (h : Folded e) (hnames : ∀ name ∈ e.names, IsName name) : Legible e := by
  induction h with
  | bool value => exact .bool value
  | int value => exact .int value
  | real value => exact .real value
  | var name => exact .var (hnames name (by simp [names]))
  | @conj es hmany _ _ ih =>
      refine .conj (List.ne_nil_of_length_pos (by omega)) fun e he => ih e he fun name hname => ?_
      exact hnames name (mem_namesAll.mpr ⟨e, he, hname⟩)
  | @disj es hmany _ _ ih =>
      refine .disj (List.ne_nil_of_length_pos (by omega)) fun e he => ih e he fun name hname => ?_
      exact hnames name (mem_namesAll.mpr ⟨e, he, hname⟩)
  | neg _ _ ih => exact .neg (ih hnames)
  | eq _ _ iha ihb =>
      rw [names, List.forall_mem_append] at hnames
      exact .eq (iha hnames.1) (ihb hnames.2)
  | ne _ _ iha ihb =>
      rw [names, List.forall_mem_append] at hnames
      exact .ne (iha hnames.1) (ihb hnames.2)
  | cond _ _ _ _ _ ihc ihyes ihno =>
      rw [names, List.forall_mem_append, List.forall_mem_append] at hnames
      exact .cond (ihc hnames.1.1) (ihyes hnames.1.2) (ihno hnames.2)
  | sub _ _ iha ihb =>
      rw [names, List.forall_mem_append] at hnames
      exact .sub (iha hnames.1) (ihb hnames.2)
  | mul _ _ iha ihb =>
      rw [names, List.forall_mem_append] at hnames
      exact .mul (iha hnames.1) (ihb hnames.2)
  | div _ _ iha ihb =>
      rw [names, List.forall_mem_append] at hnames
      exact .div (iha hnames.1) (ihb hnames.2)

/-! ## Clear expressions -/

open Prism (Spells Stops Token nested tokens)

variable {k : Nat} {rest : List Token}

/-- A clear expression is written as its tokens, in any place. -/
theorem Clear.spells (h : e.Clear) (least : Nat) : Spells (nested least e).toList (tokens least e) :=
  Prism.spells_nested (h.folded.legible h.names) least

/-- In particular it is so where it stands by itself. -/
theorem Clear.spells_expression (h : e.Clear) : Spells (Prism.expression e).toList (tokens 0 e) :=
  h.spells 0

/-- **A clear expression** is read as it was, from any place.  Being folded, it has no conjunction
in a conjunction, so reading it does not flatten anything. -/
theorem Clear.expression_eq (h : e.Clear) (hk : k ≤ 7) (hstop : Stops 0 rest) :
    Prism.Grammar.expression (tokens k e ++ rest) = some (plain e, rest) := by
  rw [Prism.expression_tokens (h.folded.legible h.names) hk hstop, h.folded.reading_eq]

end Expr

end Sokoban
