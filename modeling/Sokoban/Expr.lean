import Sokoban.Decimal

/-! # Expressions

Guards, values, probabilities and goals are expressions over the variables of a model, in no
particular format.  The plain constructors build them as they are; `all`, `any`, `not` and `ite`
fold truth values away, so that generated guards stay readable.

The folding functions look one level deep.  Conjunctions and disjunctions have any number of
operands, and flattening puts the operands of a nested one in its place, in their order.
-/

namespace Sokoban

/-- An expression over named variables and constants. -/
inductive Expr where
  | bool (value : Bool)
  | int (value : Int)
  | real (value : Decimal)
  /-- A variable or a constant. -/
  | var (name : String)
  /-- All operands hold. -/
  | conj (operands : List Expr)
  /-- Some operand holds. -/
  | disj (operands : List Expr)
  | neg (operand : Expr)
  | eq (left right : Expr)
  | ne (left right : Expr)
  /-- The first branch where the condition holds, the second one elsewhere. -/
  | cond (condition yes no : Expr)
  | sub (left right : Expr)
  | mul (left right : Expr)
  | div (left right : Expr)
deriving Repr, Inhabited

namespace Expr

mutual

/-- Whether two expressions are built alike; decimals count as alike when they are the same
number. -/
def same : Expr → Expr → Bool
  | bool a, bool b => a == b
  | int a, int b => a == b
  | real a, real b => a.same b
  | var a, var b => a == b
  | conj as, conj bs => sameAll as bs
  | disj as, disj bs => sameAll as bs
  | neg a, neg b => same a b
  | eq a₁ a₂, eq b₁ b₂ => same a₁ b₁ && same a₂ b₂
  | ne a₁ a₂, ne b₁ b₂ => same a₁ b₁ && same a₂ b₂
  | cond a₁ a₂ a₃, cond b₁ b₂ b₃ => same a₁ b₁ && same a₂ b₂ && same a₃ b₃
  | sub a₁ a₂, sub b₁ b₂ => same a₁ b₁ && same a₂ b₂
  | mul a₁ a₂, mul b₁ b₂ => same a₁ b₁ && same a₂ b₂
  | div a₁ a₂, div b₁ b₂ => same a₁ b₁ && same a₂ b₂
  | _, _ => false

/-- Whether two lists of expressions are built alike, one by one. -/
def sameAll : List Expr → List Expr → Bool
  | [], [] => true
  | a :: as, b :: bs => same a b && sameAll as bs
  | _, _ => false

end

/-- A cell number or a count. -/
def nat (n : Nat) : Expr :=
  int n

/-- The operands of a conjunction with nested ones flattened and `true` left out, or none if one
of them is `false`. -/
def conjuncts : List Expr → Option (List Expr)
  | [] => some []
  | bool true :: rest => conjuncts rest
  | bool false :: _ => none
  | conj inner :: rest => (conjuncts rest).map (inner ++ ·)
  | e :: rest => (conjuncts rest).map (e :: ·)

/-- The operands of a disjunction with nested ones flattened and `false` left out, or none if one
of them is `true`. -/
def disjuncts : List Expr → Option (List Expr)
  | [] => some []
  | bool false :: rest => disjuncts rest
  | bool true :: _ => none
  | disj inner :: rest => (disjuncts rest).map (inner ++ ·)
  | e :: rest => (disjuncts rest).map (e :: ·)

/-- The conjunction, folded. -/
def all (operands : List Expr) : Expr :=
  match conjuncts operands with
  | none => bool false
  | some [] => bool true
  | some [e] => e
  | some es => conj es

/-- The disjunction, folded. -/
def any (operands : List Expr) : Expr :=
  match disjuncts operands with
  | none => bool true
  | some [] => bool false
  | some [e] => e
  | some es => disj es

/-- The negation, folded. -/
def not : Expr → Expr
  | bool value => bool !value
  | neg operand => operand
  | e => neg e

/-- The choice between two expressions, folded when the condition is settled or both are alike. -/
def ite (condition yes no : Expr) : Expr :=
  match condition with
  | bool true => yes
  | bool false => no
  | _ => if same yes no then yes else cond condition yes no

end Expr

end Sokoban
