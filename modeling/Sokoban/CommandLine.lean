import Sokoban.CommandLine.Options
import Sokoban.Document
import Sokoban.Log.Setting

/-! # The command line program

The program reads a document of levels from a file or from its input, makes the model of each level
and places the texts.  It reads nothing before its options are in order, and writes nothing before
all of the document has been read.

Faults of the options end the program with a message on how it is used.  Any other fault goes to the
log, and the exit code only says whether there was one.
-/

namespace Sokoban.CommandLine

/-- How a run ends. -/
inductive Outcome where
  /-- The arguments are refused, or help is asked for. -/
  | usage (cause : UsageError)
  /-- The run has come to its end, with success or without. -/
  | finished (success : Bool) (log : List Log.Record)

/-- The exit code. -/
def Outcome.exitCode : Outcome → Nat
  | .usage .helpWanted => 0
  | .usage _ => 2
  | .finished success _ => if success then 0 else 1

/-- A record of the program itself. -/
def say (severity : Log.Severity) (message : String) : Log.Record :=
  ⟨.program, severity, message, []⟩

/-- The policy that the options ask for. -/
def Options.overwriting (o : Options) : Overwriting :=
  if o.force then .force else if o.strict then .strict else .warn

/-- The weights that the options give. -/
def Options.map (o : Options) : Except ProbabilityError ProbabilityMap :=
  match o.probabilities? with
  | some text => ProbabilityMap.ofText text.toList
  | none => .ok ProbabilityMap.uniform

/-- The mode that the options ask for, with the given weights. -/
def Options.modeWith (o : Options) (map : ProbabilityMap) : Except ProbabilityError Mode :=
  match o.mode with
  | .fixed => .ok (.fixed map)
  | .nondeterministic => .ok .nondeterministic
  | .noise =>
    let residual := match o.residual with
      | .uniform => .uniform
      | .weighted => .weighted map
    (Noise.make o.mu? residual).map .noise

/-- The configuration that the options ask for, with what there is to say. -/
def Options.configuration (o : Options) :
    Except ProbabilityError Configuration × List Log.Record :=
  match o.map with
  | .error cause => (.error cause, [])
  | .ok map =>
    let weights := say .debug s!"using probabilities {map.toText}"
    match o.modeWith map with
    | .error cause => (.error cause, [weights])
    | .ok mode =>
      let ignored := if o.mu?.isSome && o.mode != .noise then
        [say .warning "argument --mu ignored outside noise mode"] else []
      let configuration : Configuration := {
        format := o.format
        encoding := o.encoding
        mode := mode
        objective? := o.objective?
        rewards := o.rewards }
      (.ok configuration, weights :: ignored)

/-- What there is to say when levels have been placed or not. -/
def conclusion (o : Options) (levels : Nat) (failures : List PlacementError) :
    List Log.Record :=
  if failures.isEmpty then []
  else if o.output?.isSome then [say .error s!"{failures.length} of {levels} levels failed"]
  else failures.map fun failure => say .error failure.message

variable {m : Type → Type} [Monad m] [Host m]

/-- The text of the document. -/
def readText (o : Options) : m (Except FileFault String) := do
  let read ← match o.input? with
    | some path => Host.readFile path
    | none => Host.readInput
  match read with
  | .error fault => return .error fault
  | .ok bytes =>
    match String.fromUTF8? bytes with
    | some text => return .ok text
    | none => return .error .notText

/-- Places the levels of a document that has been read. -/
def placeAll (o : Options) (c : Configuration) (log : List Log.Record) (levels : List Level) :
    m Outcome := do
  let found := say .debug s!"found {levels.length} levels"
  let ignored := if o.output?.isNone && o.force then
    [say .warning "argument --force ignored as no output file is specified"] else []
  let report ← Placement.place levels c o.output? o.overwriting
  return .finished report.failures.isEmpty
    (log ++ found :: ignored ++ report.log ++ conclusion o levels.length report.failures)

/-- Runs with options that are in order. -/
def runOptions (o : Options) : m Outcome := do
  match o.configuration with
  | (.error cause, log) => return .finished false (log ++ [say .error cause.message])
  | (.ok c, log) =>
    match ← readText o with
    | .error fault =>
      return .finished false (log ++ [say .error s!"error reading input: {fault.message}"])
    | .ok text =>
      let reading := Document.read text.toList
      let log := log ++ reading.log
      match reading.result with
      | .error cause => return .finished false (log ++ [say .error cause.message])
      | .ok levels => placeAll o c log levels

/-- Runs the program. -/
def run (arguments : List String) : m Outcome :=
  match Options.ofArguments arguments with
  | .error cause => return .usage cause
  | .ok o => runOptions o

/-- The log setting that holds: the one that is given, if it can be read, and otherwise warnings, or
everything down to debug records where the options ask for them. -/
def setting (arguments : List String) (given? : Option String) : Log.Setting :=
  match given?.bind fun text => Log.Setting.ofText? text.toList with
  | some setting => setting
  | none =>
    match Options.ofArguments arguments with
    | .ok o => .upTo (if o.debug then .debug else .warning)
    | .error _ => .upTo .warning

/-- The lines of the log that are shown. -/
def shownLines (setting : Log.Setting) (log : List Log.Record) : List String :=
  (log.filter setting.shows).map Log.Record.line

end Sokoban.CommandLine
