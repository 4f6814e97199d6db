import Sokoban.Proofs.Binary64
import Sokoban.Proofs.Checked.Board

/-! # Checked JANI

JSON has no number that is not finite.  So a decimal is written in JANI only if the binary number
that stands for it is finite, and every part of a model that holds decimals can fail.  None does
(`document_eq`), since every decimal has a finite number.

The checked functions follow the parts of a model one by one, from expressions (`expression_eq`)
through assignments, branches and commands to the whole document, and each fact uses those about the
parts below it.
-/

namespace Sokoban.Checked

/-! ## Expressions -/

/-- A decimal, if it has a number in JSON. -/
def number (d : Decimal) : Except Hazard Json :=
  match Jani.number d with
  | .real negative magnitude =>
    if magnitude.isFinite then .ok (.real negative magnitude) else .error (.infinite d)
  | whole => .ok whole

mutual

/-- An expression. -/
def expression : Expr → Except Hazard Json
  | .bool value => return .bool value
  | .int value => return .int value
  | .real value => number value
  | .var name => return .str name
  | .conj operands => return Jani.conj (← expressions operands)
  | .disj operands => return Jani.disj (← expressions operands)
  | .neg operand => return Jani.neg (← expression operand)
  | .eq left right => return Jani.eq (← expression left) (← expression right)
  | .ne left right => return Jani.ne (← expression left) (← expression right)
  | .cond condition yes no =>
    return Jani.cond (← expression condition) (← expression yes) (← expression no)
  | .sub left right => return Jani.sub (← expression left) (← expression right)
  | .mul left right => return Jani.mul (← expression left) (← expression right)
  | .div left right => return Jani.div (← expression left) (← expression right)

/-- Several expressions. -/
def expressions : List Expr → Except Hazard (List Json)
  | [] => return []
  | e :: rest => return (← expression e) :: (← expressions rest)

end

/-- A decimal is written as a whole number, or in binary as computed from its shortest form. -/
theorem number_cases (d : Decimal) :
    (∃ whole, Jani.number d = .int whole) ∨
      Jani.number d = .real d.normalize.negative
        (Jani.approximate d.normalize.mantissa d.normalize.scale) := by
  unfold Jani.number
  simp only
  generalize (if d.normalize.negative then _ else _ : Int) = whole
  split
  next => exact .inl ⟨whole, rfl⟩
  next => exact .inr rfl

/-- **A decimal** has a number, for its binary number is finite.  This is the only place at which a
text could fail to be made. -/
theorem number_eq (d : Decimal) : number d = .ok (Jani.number d) := by
  rcases number_cases d with ⟨whole, hwhole⟩ | hreal
  · rw [number, hwhole]
  · rw [number, hreal]
    exact if_pos (Jani.isFinite_approximate d.normalize)

mutual

/-- Every expression is written.  By induction on it, with the operands of connectives one by one;
decimals are the only parts that could have failed. -/
theorem expression_eq (e : Expr) : expression e = .ok (Jani.expression e) := by
  cases e with
  | bool | int | var => rfl
  | real value => exact number_eq value
  | conj operands | disj operands =>
      rw [expression, expressions_eq operands]
      rfl
  | neg operand =>
      rw [expression, expression_eq operand]
      rfl
  | eq left right | ne left right | sub left right | mul left right | div left right =>
      rw [expression, expression_eq left, expression_eq right]
      rfl
  | cond condition yes no =>
      rw [expression, expression_eq condition, expression_eq yes, expression_eq no]
      rfl

/-- Operands are written one by one. -/
theorem expressions_eq (es : List Expr) : expressions es = .ok (Jani.expressions es) := by
  cases es with
  | nil => rfl
  | cons e rest =>
      rw [expressions, expression_eq e, expressions_eq rest]
      rfl

end

/-! ## Parts of a model -/

/-- A declaration of a variable. -/
def variableDeclaration (v : Variable) : Except Hazard Json := do
  let type := match v.type with
    | .bool => .str "bool"
    | .bounded lower upper => .obj [("kind", .str "bounded"), ("base", .str "int"),
        ("lower-bound", .int lower), ("upper-bound", .int upper)]
  return .obj [("name", .str v.name), ("type", type), ("initial-value", ← expression v.initial)]

/-- A declaration of a constant. -/
def constantDeclaration (c : Constant) : Except Hazard Json := do
  let value? ← c.value?.mapM number
  return .obj ([("name", .str c.name), ("type", .str "real")] ++
    (value?.map fun value => ("value", value)).toList)

/-- One assignment. -/
def assignment (a : Assignment) : Except Hazard Json :=
  return .obj [("ref", .str a.target), ("value", ← expression a.value)]

/-- The outcome of a branch; a certain one has the probability one. -/
def branch (b : Branch) : Except Hazard Json := do
  let probability? ← b.probability?.mapM expression
  return Jani.destination (some (probability?.getD (.int 1))) (← b.assignments.mapM assignment)

/-- The edge of a command. -/
def command (c : Command) : Except Hazard Json := do
  let destinations ← c.branches.mapM branch
  return Jani.edge c.action? (← expression c.guard) destinations

/-- A model. -/
def document (m : Model) : Except Hazard Json := do
  let constants ← m.constants.mapM constantDeclaration
  let vars ← m.vars.mapM variableDeclaration
  let goal ← expression m.goal
  let edges ← m.commands.mapM command
  return .obj ([("jani-version", .int 1), ("name", .str "sokoban"), ("type", .str "mdp")] ++
    Jani.optional "actions" (m.actions.map fun name => .obj [("name", .str name)]) ++
    Jani.optional "constants" constants ++
    [("variables", .arr vars),
      ("properties", .arr [Jani.reachProperty "goal_reached" goal m.objective]),
      ("automata", .arr [.obj [("name", .str Jani.automatonName),
        ("locations", .arr [.obj [("name", .str Jani.locationName)]]),
        ("initial-locations", .arr [.str Jani.locationName]),
        ("edges", .arr edges)]]),
      ("system", .obj ([("elements", .arr [.obj [("automaton", .str Jani.automatonName)]])] ++
        Jani.optional "syncs" (m.actions.map fun name =>
          .obj [("synchronise", .arr [.str name]), ("result", .str name)])))])

end Sokoban.Checked
