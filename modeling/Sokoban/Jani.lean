import Sokoban.Json
import Sokoban.Model

/-! # JANI

Models in the JANI model interchange format, a JSON format.  A model is one automaton with one
location; each command is an edge from that location to itself.

Operators of JANI have two operands, so conjunctions and disjunctions are nested to the right.
Numbers are those of JSON: a whole number in 64 bits is written as it is, and any other decimal by
way of a binary number, which need not be the nearest one.
-/

namespace Sokoban.Jani

/-! ## Expressions -/

/-- An operator with two operands. -/
def binary (op : String) (left right : Json) : Json :=
  .obj [("op", .str op), ("left", left), ("right", right)]

/-- The conjunction, nested to the right; a single operand stands for itself. -/
def conj : List Json → Json
  | [] => .bool true
  | [operand] => operand
  | operand :: rest => binary "∧" operand (conj rest)

/-- The disjunction, nested to the right; a single operand stands for itself. -/
def disj : List Json → Json
  | [] => .bool false
  | [operand] => operand
  | operand :: rest => binary "∨" operand (disj rest)

/-- The negation. -/
def neg (operand : Json) : Json :=
  .obj [("op", .str "¬"), ("exp", operand)]

/-- Equality. -/
def eq : Json → Json → Json := binary "="

/-- Inequality. -/
def ne : Json → Json → Json := binary "≠"

/-- The choice between two values. -/
def cond (condition yes no : Json) : Json :=
  .obj [("op", .str "ite"), ("if", condition), ("then", yes), ("else", no)]

/-- The difference. -/
def sub : Json → Json → Json := binary "-"

/-- The product. -/
def mul : Json → Json → Json := binary "*"

/-- The quotient. -/
def div : Json → Json → Json := binary "/"

/-- The binary number that stands for `mantissa / 10 ^ scale`.  Its whole part and its fraction are
rounded apart and added; the sum is then rounded to as many places as the decimal has. -/
def approximate (mantissa scale : Nat) : Binary64 :=
  let whole := Binary64.ofNat (mantissa / tenPow scale)
  let rest := mantissa % tenPow scale
  if rest = 0 then
    whole
  else
    let fraction := (Binary64.ofNat rest).div (.ofNat (tenPow scale))
    let unit := Binary64.powerFrom (.ofNat 1) (.ofNat 10) scale
    (Binary64.ofNat ((whole.add fraction).mul unit).round).div unit

/-- A decimal: a whole number below `2 ^ 63` as it is, any other in binary. -/
def number (d : Decimal) : Json :=
  let d := d.normalize
  let whole : Int := if d.negative then -d.mantissa else d.mantissa
  if d.scale = 0 ∧ -(twoPow 63 : Int) ≤ whole ∧ whole < twoPow 63 then
    .int whole
  else
    .real d.negative (approximate d.mantissa d.scale)

mutual

/-- An expression. -/
def expression : Expr → Json
  | .bool value => .bool value
  | .int value => .int value
  | .real value => number value
  | .var name => .str name
  | .conj operands => conj (expressions operands)
  | .disj operands => disj (expressions operands)
  | .neg operand => neg (expression operand)
  | .eq left right => eq (expression left) (expression right)
  | .ne left right => ne (expression left) (expression right)
  | .cond condition yes no => cond (expression condition) (expression yes) (expression no)
  | .sub left right => sub (expression left) (expression right)
  | .mul left right => mul (expression left) (expression right)
  | .div left right => div (expression left) (expression right)

/-- Several expressions. -/
def expressions : List Expr → List Json
  | [] => []
  | e :: rest => expression e :: expressions rest

end

/-! ## Parts of a model -/

/-- The name of the automaton. -/
def automatonName : String := "player"

/-- The name of its location. -/
def locationName : String := "move"

/-- A declaration of a variable. -/
def variableDeclaration (v : Variable) : Json :=
  let type := match v.type with
    | .bool => .str "bool"
    | .bounded lower upper => .obj [("kind", .str "bounded"), ("base", .str "int"),
        ("lower-bound", .int lower), ("upper-bound", .int upper)]
  .obj [("name", .str v.name), ("type", type), ("initial-value", expression v.initial)]

/-- A declaration of a constant. -/
def constantDeclaration (c : Constant) : Json :=
  .obj ([("name", .str c.name), ("type", .str "real")] ++
    (c.value?.map fun value => ("value", number value)).toList)

/-- One assignment. -/
def assignment (a : Assignment) : Json :=
  .obj [("ref", .str a.target), ("value", expression a.value)]

/-- One outcome of an edge. -/
def destination (probability? : Option Json) (assignments : List Json) : Json :=
  .obj ([("location", .str locationName)] ++
    (probability?.map fun probability => ("probability", .obj [("exp", probability)])).toList ++
    [("assignments", .arr assignments)])

/-- An edge. -/
def edge (action? : Option String) (guard : Json) (destinations : List Json) : Json :=
  .obj ([("location", .str locationName)] ++
    (action?.map fun action => ("action", .str action)).toList ++
    [("guard", .obj [("exp", guard)]), ("destinations", .arr destinations)])

/-- The outcome of a branch; a certain one has the probability one. -/
def branch (b : Branch) : Json :=
  destination (some ((b.probability?.map expression).getD (.int 1))) (b.assignments.map assignment)

/-- The edge of a command. -/
def command (c : Command) : Json :=
  edge c.action? (expression c.guard) (c.branches.map branch)

/-- The property that asks for the least or the greatest probability of reaching a goal from the
initial state. -/
def reachProperty (name : String) (goal : Json) (objective : Objective) : Json :=
  let op := match objective with
    | .min => "Pmin"
    | .max => "Pmax"
  .obj [("name", .str name),
    ("expression", .obj [("op", .str "filter"), ("fun", .str "max"),
      ("values", .obj [("op", .str op), ("exp", .obj [("op", .str "F"), ("exp", goal)])]),
      ("states", .obj [("op", .str "initial")])])]

/-! ## Models -/

/-- A member that is left out where its list is empty. -/
def optional (name : String) (items : List Json) : List (String × Json) :=
  if items.isEmpty then [] else [(name, .arr items)]

/-- A model. -/
def document (m : Model) : Json :=
  .obj ([("jani-version", .int 1), ("name", .str "sokoban"), ("type", .str "mdp")] ++
    optional "actions" (m.actions.map fun name => .obj [("name", .str name)]) ++
    optional "constants" (m.constants.map constantDeclaration) ++
    [("variables", .arr (m.vars.map variableDeclaration)),
      ("properties", .arr [reachProperty "goal_reached" (expression m.goal) m.objective]),
      ("automata", .arr [.obj [("name", .str automatonName),
        ("locations", .arr [.obj [("name", .str locationName)]]),
        ("initial-locations", .arr [.str locationName]),
        ("edges", .arr (m.commands.map command))]]),
      ("system", .obj ([("elements", .arr [.obj [("automaton", .str automatonName)]])] ++
        optional "syncs" (m.actions.map fun name =>
          .obj [("synchronise", .arr [.str name]), ("result", .str name)])))])

/-- The text of a model. -/
def render (m : Model) : String :=
  (document m).pretty

end Sokoban.Jani
