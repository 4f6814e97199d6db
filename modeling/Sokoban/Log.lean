/-! # Log records

What the program has to say besides its results.  A record has a severity, the part of the program
that speaks, a message, and named values.

Records are values and are collected in order; which of them are shown is decided at the end, by a
setting.  So what the program says can be stated without saying who listens.
-/

namespace Sokoban.Log

/-- How grave a record is, gravest first. -/
inductive Severity where
  | error
  | warning
  | debug
deriving DecidableEq, Repr

namespace Severity

/-- The rank of a severity on the scale of thresholds; a graver one has a smaller rank. -/
def rank : Severity → Nat
  | error => 1
  | warning => 2
  | debug => 4

/-- The mark of a severity, set to the right of five columns. -/
def mark : Severity → String
  | error => "ERROR"
  | warning => " WARN"
  | debug => "DEBUG"

end Severity

/-- The part of the program that speaks. -/
inductive Speaker where
  | program
  | reading
  | generation
  | placement
deriving DecidableEq, Repr

/-- The name by which a log setting picks a speaker. -/
def Speaker.name : Speaker → String
  | .program => "sokomdp"
  | .reading => "sokomdp::levels"
  | .generation => "sokomdp::generator"
  | .placement => "sokomdp::output"

/-- One record. -/
structure Record where
  speaker : Speaker
  severity : Severity
  message : String
  fields : List (String × Nat) := []
deriving DecidableEq, Repr

/-- The line a record is written on. -/
def Record.line (r : Record) : String :=
  r.severity.mark ++ " " ++ r.message ++
    String.join (r.fields.map fun (name, value) => s!" {name}={value}")

end Sokoban.Log
