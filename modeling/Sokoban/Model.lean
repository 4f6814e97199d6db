import Sokoban.Expr

/-! # Models

A Markov decision process in guarded commands.  A state gives each variable a value.  A command
whose guard holds may be taken; it ends in one of its branches, by their probabilities, and the
assignments of that branch are carried out at once.

A branch without a probability is certain.  The model says nothing of how it is written: both
formats are made from the same value, and the meaning of expressions and of steps is defined for
this value alone.
-/

namespace Sokoban

/-- The values that a variable can take. -/
inductive VariableType where
  | bool
  /-- The whole numbers between two bounds, which are included. -/
  | bounded (lower upper : Nat)
deriving DecidableEq, Repr

/-- A state variable and its value in the initial state. -/
structure Variable where
  name : String
  type : VariableType
  initial : Expr
deriving Repr

/-- A truth value. -/
def Variable.bool (name : String) (initial : Bool) : Variable :=
  ⟨name, .bool, .bool initial⟩

/-- A number between two bounds. -/
def Variable.bounded (name : String) (lower upper initial : Nat) : Variable :=
  ⟨name, .bounded lower upper, .nat initial⟩

/-- A named real number, left open where it has no value. -/
structure Constant where
  name : String
  value? : Option Decimal
deriving DecidableEq, Repr

/-- Gives a variable the value that an expression has in the state before. -/
structure Assignment where
  target : String
  value : Expr
deriving Repr

/-- One outcome of a command.  Without a probability it is certain. -/
structure Branch where
  probability? : Option Expr
  assignments : List Assignment
deriving Repr

/-- A guarded command, labelled with an action or not. -/
structure Command where
  action? : Option String
  guard : Expr
  branches : List Branch
deriving Repr

/-- Which probability of reaching the goal is asked for. -/
inductive Objective where
  | min
  | max
deriving DecidableEq, Repr

/-- A process with its goal. -/
structure Model where
  /-- Free text at the head of the model, where the format has room for it. -/
  comment? : Option String
  constants : List Constant
  actions : List String
  vars : List Variable
  commands : List Command
  goal : Expr
  objective : Objective
  /-- Whether every step earns a reward of one. -/
  rewards : Bool
deriving Repr

end Sokoban
