import Sokoban.Model
import Sokoban.Decimal.Text
import Sokoban.Text.Blank

/-! # PRISM

Models in the guarded-command language of PRISM.  An operator is put in brackets where the place it
stands in asks for one that binds more strongly.

Places are numbered by the strength that they ask for.  A chain of differences or of quotients joins
from the left, so the operand on the right is in a place that is stronger by one.  A conjunction in
a disjunction has brackets that the grammar does not ask for.
-/

namespace Sokoban.Prism

/-- Binding strengths, loosest first. -/
def strength : Expr → Nat
  | .cond .. => 0
  | .disj _ => 1
  | .conj _ => 2
  | .neg _ => 3
  | .eq .. | .ne .. => 4
  | .sub .. => 5
  | .mul .. | .div .. => 6
  | .bool _ | .int _ | .real _ | .var _ => 7

/-- A decimal, with the places it needs. -/
def number (d : Decimal) : String :=
  d.normalize.toText

/-- A text in brackets, where it binds more loosely than it has to. -/
def bracket (strength least : Nat) (text : String) : String :=
  if strength < least then "(" ++ text ++ ")" else text

mutual

/-- An expression in a place that asks for at least the binding strength `least`.  Conjunctions in
a disjunction are put in brackets for the reader's sake. -/
def nested (least : Nat) : Expr → String
  | .bool value => if value then "true" else "false"
  | .int value => toString value
  | .real value => number value
  | .var name => name
  | .conj operands => bracket 2 least (" & ".intercalate (nestedAll 2 operands))
  | .disj operands => bracket 1 least (" | ".intercalate (nestedAll 3 operands))
  | .neg operand => bracket 3 least ("!" ++ nested 3 operand)
  | .eq left right => bracket 4 least (nested 5 left ++ "=" ++ nested 5 right)
  | .ne left right => bracket 4 least (nested 5 left ++ "!=" ++ nested 5 right)
  | .cond condition yes no =>
    bracket 0 least (nested 1 condition ++ " ? " ++ nested 1 yes ++ " : " ++ nested 0 no)
  | .sub left right => bracket 5 least (nested 5 left ++ "-" ++ nested 6 right)
  | .mul left right => bracket 6 least (nested 6 left ++ "*" ++ nested 7 right)
  | .div left right => bracket 6 least (nested 6 left ++ "/" ++ nested 7 right)

/-- Several expressions in places of one kind. -/
def nestedAll (least : Nat) : List Expr → List String
  | [] => []
  | e :: rest => nested least e :: nestedAll least rest

end

/-- An expression. -/
def expression (e : Expr) : String :=
  nested 0 e

/-- A declaration of a variable. -/
def variableDeclaration (v : Variable) : String :=
  let type := match v.type with
    | .bool => "bool"
    | .bounded lower upper => s!"[{lower}..{upper}]"
  v.name ++ ": " ++ type ++ " init " ++ expression v.initial ++ ";"

/-- A declaration of a constant. -/
def constantDeclaration (c : Constant) : String :=
  match c.value? with
  | some value => "const double " ++ c.name ++ " = " ++ number value ++ ";"
  | none => "const double " ++ c.name ++ ";"

/-- A label for the states in which an expression holds. -/
def label (name : String) (e : Expr) : String :=
  "label \"" ++ name ++ "\" = " ++ expression e ++ ";"

/-- One assignment. -/
def assignment (a : Assignment) : String :=
  "(" ++ a.target ++ "'=" ++ expression a.value ++ ")"

/-- Assignments that are carried out at once, or `true` where nothing changes. -/
def update : List Assignment → String
  | [] => "true"
  | assignments => " & ".intercalate (assignments.map assignment)

/-- One outcome of a command. -/
def branch (b : Branch) : String :=
  match b.probability? with
  | some probability => nested 5 probability ++ ":" ++ update b.assignments
  | none => update b.assignments

/-- A command. -/
def command (c : Command) : String :=
  "[" ++ c.action?.getD "" ++ "] " ++ expression c.guard ++ " -> " ++
    " + ".intercalate (c.branches.map branch) ++ ";"

/-- What the lines inside a section begin with. -/
def indent : String := "    "

/-- A module. -/
def moduleText (name : String) (vars : List Variable) (commands : List Command) : String :=
  "\n".intercalate <|
    ["module " ++ name] ++ vars.map (indent ++ variableDeclaration ·) ++ [""] ++
      commands.map (indent ++ command ·) ++ ["endmodule"]

/-- A text as comment lines. -/
def comment (text : String) : String :=
  "\n".intercalate ((Text.lines text.toList).map fun line => "// " ++ String.ofList line)

/-- The rewards section: every state earns one. -/
def rewards : String :=
  "\n".intercalate ["rewards", indent ++ "true : 1;", "endrewards"]

/-- The sections of a model. -/
def sections (m : Model) : List String :=
  (m.comment?.map comment).toList ++
    ["mdp", label "goal_reached" m.goal] ++
    (if m.constants.isEmpty then []
      else ["\n".intercalate (m.constants.map constantDeclaration)]) ++
    [moduleText "Player" m.vars m.commands] ++
    (if m.rewards then [rewards] else [])

/-- The text of a model: its sections, with an empty line between them. -/
def render (m : Model) : String :=
  "\n\n".intercalate (sections m) ++ "\n"

end Sokoban.Prism
