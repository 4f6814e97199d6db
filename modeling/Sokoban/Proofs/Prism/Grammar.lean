import Sokoban.Model
import Sokoban.Proofs.Prism.Header
import Sokoban.Proofs.Prism.Reader

/-! # The grammar of PRISM

Expressions are read with an operator
grammar: from loosest to tightest, the choice `? :`, which goes on to the right; `|`; `&`; the prefix
`!`; `=` and `!=`; `-`; `*` and `/`, all of which go on to the left; and operands, which are literals
with or without a sign, names, and expressions in brackets.  A model is read section by section, and
a command is cut at `->`, `+` and `:`.

Nothing here knows how a model is written.  What is written is read again in `Prism.read_render`.
-/

namespace Sokoban.Prism

/-- How strongly an operator binds, loosest first.  The point of a decimal goes with its digits
before anything else does. -/
def Token.strength? : Token → Option Nat
  | .mark '?' => some 0
  | .mark '|' => some 1
  | .mark '&' => some 2
  | .mark '=' | .unequal => some 4
  | .mark '-' => some 5
  | .mark '*' | .mark '/' => some 6
  | .mark '.' => some 7
  | _ => none

namespace Grammar

open Reader

/-! ## Operands -/

/-- Reads a whole number without a sign. -/
def natural : Reader Nat
  | .word text :: rest =>
    if text.all Char.isDigit then some (Nat.ofDigitChars 10 text 0, rest) else none
  | _ => none

/-- Reads a number whose sign has been read. -/
def literal (negative : Bool) : Reader Expr
  | .word whole :: .mark '.' :: .word places :: rest =>
    if (whole ++ places).all Char.isDigit then
      (Decimal.ofParts? negative (Nat.ofDigitChars 10 (whole ++ places) 0) places.length).map
        (.real ·, rest)
    else
      none
  | tokens => do
    let (n, rest) ← natural tokens
    return (.int (if negative then -n else n), rest)

/-- What a word that is no number stands for. -/
def named (text : List Char) : Expr :=
  if text = "true".toList then .bool true
  else if text = "false".toList then .bool false
  else .var (.ofList text)

/-- Reads an operand.  `whole` reads expressions in brackets. -/
def operand (whole : Reader Expr) : Reader Expr
  | .mark '(' :: rest => (do
      let e ← whole
      skip ")"
      return e : Reader Expr) rest
  | .mark '-' :: rest => literal true rest
  | .word text :: rest =>
    if text.head?.any Char.isDigit then literal false (.word text :: rest)
    else some (named text, rest)
  | _ => none

/-! ## Operators -/

/-- Joins two operands. -/
def binary : Token → Expr → Expr → Expr
  | .mark '=' => .eq
  | .unequal => .ne
  | .mark '-' => .sub
  | .mark '*' => .mul
  | _ => .div

/-- Joins operands from the left. -/
def leftwards (first : Expr) (others : List (Token × Expr)) : Expr :=
  others.foldl (fun e (operator, other) => binary operator e other) first

/-- Joins operands all at once, if there are several. -/
def joined (join : List Expr → Expr) : List Expr → Expr
  | [e] => e
  | es => join es

/-- Reads operands with operators of a strength between them. -/
def chain (strength : Nat) (tighter : Reader Expr) (join : Expr → List (Token × Expr) → Expr) :
    Reader Expr := do
  let (first, others) ← separated (·.strength? == some strength) tighter
  return join first others

/-- Reads a product. -/
def product (whole : Reader Expr) : Reader Expr :=
  chain 6 (operand whole) leftwards

/-- Reads a difference. -/
def difference (whole : Reader Expr) : Reader Expr :=
  chain 5 (product whole) leftwards

/-- Reads a comparison. -/
def comparison (whole : Reader Expr) : Reader Expr :=
  chain 4 (difference whole) leftwards

/-- Reads a negation. -/
def negation (whole : Reader Expr) : Reader Expr
  | .mark '!' :: rest => do
    let (e, rest) ← negation whole rest
    return (.neg e, rest)
  | tokens => comparison whole tokens

/-- Reads a conjunction. -/
def conjunction (whole : Reader Expr) : Reader Expr :=
  chain 2 (negation whole) fun e others => joined .conj (e :: others.map Prod.snd)

/-- Reads a disjunction. -/
def disjunction (whole : Reader Expr) : Reader Expr :=
  chain 1 (conjunction whole) fun e others => joined .disj (e :: others.map Prod.snd)

/-- Reads a choice. -/
def choice (whole : Reader Expr) : Reader Expr := do
  let condition ← disjunction whole
  if ← upcoming (· == .mark '?') then
    skip "?"
    let yes ← disjunction whole
    skip ":"
    return .cond condition yes (← whole)
  else
    return condition

/-- Reads an expression in which brackets and choices are nested less than `n` deep. -/
def withinDepth : Nat → Reader Expr
  | 0 => failure
  | n + 1 => choice (withinDepth n)

/-- Reads an expression. -/
def expression : Reader Expr := do
  withinDepth ((← get).length + 1)

/-! ## Sections -/

/-- Reads a type. -/
def type : Reader VariableType := do
  if ← upcoming (· == .mark '[') then
    skip "["
    let lower ← natural
    skip ".."
    let upper ← natural
    skip "]"
    return .bounded lower upper
  else
    skip "bool"
    return .bool

/-- Reads the declaration of a variable. -/
def variableDeclaration : Reader Variable := do
  let name ← word
  skip ":"
  let type ← type
  skip "init"
  let initial ← expression
  skip ";"
  return { name, type, initial }

/-- Reads the declaration of a constant: its name, and its value if it has one. -/
def constantDeclaration : Reader (String × Option Expr) := do
  skip "const double "
  let name ← word
  if ← upcoming (· == .mark '=') then
    skip "="
    let value ← expression
    skip ";"
    return (name, some value)
  else
    skip ";"
    return (name, none)

/-- Reads an assignment. -/
def assignment : Reader Assignment := do
  skip "("
  let target ← word
  skip "'="
  let value ← expression
  skip ")"
  return { target, value }

/-- Reads assignments, or `true` where there are none. -/
def update : Reader (List Assignment) := do
  if ← upcoming (· == .word "true".toList) then
    skip "true"
    return []
  else
    listed (· == .mark '&') assignment

/-- Reads a probability up to the colon behind it. -/
def probability : Reader Expr := do
  let e ← expression
  skip ":"
  return e

/-- Reads an outcome of a command. -/
def branch : Reader Branch := do
  let probability? ← optional probability
  let assignments ← update
  return { probability?, assignments }

/-- Reads a command. -/
def command : Reader Command := do
  skip "["
  let action? ← optional word
  skip "]"
  let guard ← expression
  skip "->"
  let branches ← listed (· == .mark '+') branch
  skip ";"
  return { action?, guard, branches }

/-- Reads a label: its name, and the expression that holds where the label does. -/
def label : Reader (String × Expr) := do
  skip "label \""
  let name ← word
  skip "\" ="
  let e ← expression
  skip ";"
  return (name, e)

/-- What can be read off a model. -/
structure Source where
  comment : String
  label : String × Expr
  constants : List (String × Option Expr)
  /-- The name of the module. -/
  name : String
  vars : List Variable
  commands : List Command
  rewards : Bool

/-- Whether a declaration of a variable begins with a token: any word but the end of the module. -/
def startsVariable : Token → Bool
  | .word text => text != "endmodule".toList
  | _ => false

/-- Reads a model whose comment has been read. -/
def source (comment : String) : Reader Source := do
  skip "mdp"
  let label ← label
  let constants ← repeated (· == .word "const".toList) constantDeclaration
  skip "module"
  let name ← word
  let vars ← repeated startsVariable variableDeclaration
  let commands ← repeated (· == .mark '[') command
  skip "endmodule"
  let rewards? ← optional (skip "rewards true : 1; endrewards")
  return { comment, label, constants, name, vars, commands, rewards := rewards?.isSome }

end Grammar

/-- The tokens behind the comment lines that a text begins with. -/
def bodyTokens (text : List Char) : List Token :=
  ((Text.lines text).dropWhile commentMark.isPrefixOf).flatMap lex

/-- Reads the text of a model. -/
def read (text : List Char) : Option Grammar.Source := do
  let (source, rest) ← Grammar.source (.ofList (headerOf text)) (bodyTokens text)
  guard rest.isEmpty
  return source

end Sokoban.Prism
