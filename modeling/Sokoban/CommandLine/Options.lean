import Sokoban.Placement

/-! # Options of the command line

An option has a long name and may have a letter.  Letters of flags can be run together, and a value
follows its option as the next argument, behind an equals sign, or right behind the letter.  An
argument that looks like an option is no value, and no option may be given twice.

Arguments are turned into a list of occurrences first, and only then values are looked at.  So an
argument that is no option is reported before any value that is none, wherever the two stand.
-/

namespace Sokoban.CommandLine

/-- The options there are. -/
inductive Switch where
  | input
  | output
  | force
  | strict
  | syntaxName
  | encoding
  | mode
  | probabilities
  | mu
  | residual
  | objective
  | rewards
  | debug
  | help
deriving DecidableEq, Repr

namespace Switch

/-- Every option. -/
def all : List Switch :=
  [input, output, force, strict, syntaxName, encoding, mode, probabilities, mu, residual, objective,
    rewards, debug, help]

/-- The long name of an option. -/
def longName : Switch → String
  | input => "input"
  | output => "output"
  | force => "force"
  | strict => "strict"
  | syntaxName => "syntax"
  | encoding => "encoding"
  | mode => "mode"
  | probabilities => "probabilities"
  | mu => "mu"
  | residual => "residual"
  | objective => "objective"
  | rewards => "rewards"
  | debug => "debug"
  | help => "help"

/-- The letter of an option, if it has one. -/
def letter? : Switch → Option Char
  | input => some 'i'
  | output => some 'o'
  | force => some 'f'
  | probabilities => some 'x'
  | help => some 'h'
  | _ => none

/-- Whether an option is given or not, and takes no value. -/
def isFlag : Switch → Bool
  | force | strict | rewards | debug | help => true
  | _ => false

/-- The option with a long name. -/
def ofLongName? (name : List Char) : Option Switch :=
  all.find? (·.longName.toList == name)

/-- The option with a letter. -/
def ofLetter? (c : Char) : Option Switch :=
  all.find? (·.letter? == some c)

end Switch

/-- Why the arguments are refused. -/
inductive UsageError where
  | unknownOption (argument : String)
  | unexpectedArgument (argument : String)
  | missingValue (option : Switch)
  | unexpectedValue (option : Switch)
  | invalidValue (option : Switch) (value : String)
  | repeated (option : Switch)
  /-- The files are both to be overwritten and to be left alone. -/
  | conflict
  /-- Nothing is wrong, but help is asked for. -/
  | helpWanted
deriving DecidableEq, Repr

/-- The wording of a refusal. -/
def UsageError.message : UsageError → String
  | .unknownOption argument => s!"unknown option '{argument}'"
  | .unexpectedArgument argument => s!"unexpected argument '{argument}'"
  | .missingValue option => s!"option '--{option.longName}' needs a value"
  | .unexpectedValue option => s!"option '--{option.longName}' takes no value"
  | .invalidValue option value => s!"invalid value '{value}' for option '--{option.longName}'"
  | .repeated option => s!"option '--{option.longName}' is given more than once"
  | .conflict => "options '--strict' and '--force' exclude each other"
  | .helpWanted => "options: " ++ ", ".intercalate (Switch.all.map ("--" ++ ·.longName))

/-! ## Occurrences -/

/-- An option that is given, with its value; that of a flag is empty. -/
abbrev Occurrence := Switch × List Char

/-- Whether an argument cannot be a value because it looks like an option. -/
def looksLikeOption (argument : List Char) : Bool :=
  argument.head? = some '-' && 1 < argument.length

/-- Reads the letters of one argument.  An option whose value is still to come ends them. -/
def letters (argument : String) : List Char →
    Except UsageError (List Occurrence × Option Switch)
  | [] => .ok ([], none)
  | c :: rest =>
    match Switch.ofLetter? c with
    | none => .error (.unknownOption argument)
    | some switch =>
      if switch.isFlag then do
        let (found, pending?) ← letters argument rest
        return ((switch, []) :: found, pending?)
      else
        match rest with
        | [] => .ok ([], some switch)
        | '=' :: value => .ok ([(switch, value)], none)
        | value => .ok ([(switch, value)], none)

/-- Reads an argument behind two dashes. -/
def long (argument : String) (text : List Char) :
    Except UsageError (List Occurrence × Option Switch) :=
  match Switch.ofLongName? (text.takeWhile (· ≠ '=')) with
  | none => .error (.unknownOption argument)
  | some switch =>
    match text.dropWhile (· ≠ '=') with
    | [] => .ok (if switch.isFlag then ([(switch, [])], none) else ([], some switch))
    | _ :: value =>
      if switch.isFlag then .error (.unexpectedValue switch) else .ok ([(switch, value)], none)

/-- Reads arguments, where an option may be waiting for its value. -/
def occurrences : Option Switch → List String → Except UsageError (List Occurrence)
  | none, [] => .ok []
  | some switch, [] => .error (.missingValue switch)
  | some switch, argument :: rest =>
    if looksLikeOption argument.toList then
      .error (.missingValue switch)
    else do
      return (switch, argument.toList) :: (← occurrences none rest)
  | none, argument :: rest =>
    match argument.toList with
    | ['-', '-'] =>
      match rest with
      | [] => .ok []
      | next :: _ => .error (.unexpectedArgument next)
    | '-' :: '-' :: text => do
      let (found, pending?) ← long argument text
      return found ++ (← occurrences pending? rest)
    | '-' :: c :: text => do
      let (found, pending?) ← letters argument (c :: text)
      return found ++ (← occurrences pending? rest)
    | _ => .error (.unexpectedArgument argument)

/-! ## Options -/

/-- Which mode is asked for. -/
inductive ModeName where
  | fixed
  | noise
  | nondeterministic
deriving DecidableEq, Repr

/-- Which residual is asked for. -/
inductive ResidualName where
  | uniform
  | weighted
deriving DecidableEq, Repr

/-- What the command line asks for. -/
structure Options where
  input? : Option Path := none
  output? : Option Path := none
  force : Bool := false
  strict : Bool := false
  format : Format := .jani
  encoding : Encoding.Kind := .tile
  mode : ModeName := .fixed
  probabilities? : Option String := none
  mu? : Option Decimal := none
  residual : ResidualName := .uniform
  objective? : Option Objective := none
  rewards : Bool := false
  debug : Bool := false
deriving Repr

/-- A path, which is not empty. -/
def path? (value : List Char) : Option Path :=
  if value.isEmpty then none else some (.ofString (.ofList value))

/-- The options with one more set, or none if the value is invalid. -/
def Options.set? (o : Options) (value : List Char) : Switch → Option Options
  | .input => (path? value).map fun path => { o with input? := some path }
  | .output => (path? value).map fun path => { o with output? := some path }
  | .force => some { o with force := true }
  | .strict => some { o with strict := true }
  | .syntaxName =>
    ([("jani", .jani), ("prism", .prism)].lookup (String.ofList value)).map fun format =>
      { o with format }
  | .encoding =>
    ([("tile", .tile), ("box", .box)].lookup (String.ofList value)).map fun encoding =>
      { o with encoding }
  | .mode =>
    ([("fixed", .fixed), ("noise", .noise), ("nondeterministic", .nondeterministic)].lookup
      (String.ofList value)).map fun mode => { o with mode }
  | .probabilities => some { o with probabilities? := some (.ofList value) }
  | .mu => (Decimal.ofText? value).map fun mu => { o with mu? := some mu }
  | .residual =>
    ([("uniform", .uniform), ("weighted", .weighted)].lookup (String.ofList value)).map
      fun residual => { o with residual }
  | .objective =>
    ([("min", .min), ("max", .max)].lookup (String.ofList value)).map fun objective =>
      { o with objective? := some objective }
  | .rewards => some { o with rewards := true }
  | .debug => some { o with debug := true }
  | .help => none

/-- Sets the options that are given, each at most once. -/
def setAll (o : Options) (seen : List Switch) : List Occurrence → Except UsageError Options
  | [] => .ok o
  | (switch, value) :: rest =>
    if switch = .help then .error .helpWanted
    else if seen.contains switch then .error (.repeated switch)
    else
      match o.set? value switch with
      | none => .error (.invalidValue switch (.ofList value))
      | some o => setAll o (switch :: seen) rest

/-- Reads the arguments of the command line. -/
def Options.ofArguments (arguments : List String) : Except UsageError Options := do
  let o ← setAll {} [] (← occurrences none arguments)
  if o.force && o.strict then .error .conflict else .ok o

end Sokoban.CommandLine
