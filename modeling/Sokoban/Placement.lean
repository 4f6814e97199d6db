import Sokoban.Host
import Sokoban.Rendering

/-! # Placing models

One level can be written to the output.  Any number of levels is written to files whose names are
numbered; a level that cannot be written is reported, and the others are written all the same.

For each level the model is made first, then it is asked whether a file is there, and only then
folders are made and the text is stored.  The answer to the question is that of the moment, so it is
not always true of the file that is written: a path through a folder that has yet to be made leads
to no file before, and may lead to one afterwards.
-/

namespace Sokoban

/-- What to do where a file is already there. -/
inductive Overwriting where
  /-- Overwrite it and say so. -/
  | warn
  /-- Overwrite it. -/
  | force
  /-- Leave it alone. -/
  | strict
deriving DecidableEq, Repr

/-- Why a level is not placed. -/
inductive PlacementError where
  /-- The text cannot be stored under this name. -/
  | io (name : String) (cause : FileFault)
  /-- The file is already there. -/
  | collision (path : Path)
  /-- The output takes one level and not so many. -/
  | ambiguousOutput (levels : Nat)
  /-- The level has no model. -/
  | model (cause : ModelError)
deriving DecidableEq, Repr

/-- The wording of an error. -/
def PlacementError.message : PlacementError → String
  | .io name cause => s!"failed to write '{name}': {cause.message}"
  | .collision path => s!"file '{path.toString}' already exists"
  | .ambiguousOutput levels => s!"can only write one model to stdout, input holds {levels} levels"
  | .model cause => cause.message

namespace Placement

/-- What came of placing something: the errors, and what there is to say. -/
structure Report where
  failures : List PlacementError := []
  log : List Log.Record := []
deriving DecidableEq, Repr

/-- One report and then another. -/
def Report.append (a b : Report) : Report :=
  ⟨a.failures ++ b.failures, a.log ++ b.log⟩

/-- The warning that a file is overwritten. -/
def overwritten (path : Path) : Log.Record :=
  ⟨.placement, .warning, s!"file '{path.toString}' already exists, overwriting", []⟩

/-- The note that a file is written. -/
def written (path : Path) : Log.Record :=
  ⟨.placement, .debug, s!"wrote {path.toString}", []⟩

/-- The report of a level that is not placed. -/
def failed (index : Nat) (cause : PlacementError) : Report :=
  ⟨[cause], [⟨.placement, .error, s!"level {index}: {cause.message}", []⟩]⟩

variable {m : Type → Type} [Monad m] [Host m]

/-- Makes the folder that a path leads into, if it names one. -/
def ensureParent (path : Path) : m (Except FileFault Unit) :=
  match path.parent?.filter (!·.chars.isEmpty) with
  | some folder => Host.ensureFolders folder
  | none => pure (.ok ())

/-- Stores a text in a file, making the folders that lead to it. -/
def store (path : Path) (text : String) : m (Except FileFault Unit) := do
  match ← ensureParent path with
  | .ok () => Host.writeFile path text
  | .error fault => return .error fault

/-- Stores a text in a file under a policy.  The result comes with what there is to say. -/
def placeText (policy : Overwriting) (path : Path) (text : String) :
    m (Except PlacementError Unit × List Log.Record) := do
  let present ← Host.isPresent path
  if present && policy == .strict then
    return (.error (.collision path), [])
  let warnings := if present && policy == .warn then [overwritten path] else []
  match ← store path text with
  | .ok () => return (.ok (), warnings ++ [written path])
  | .error fault => return (.error (.io path.toString fault), warnings)

/-- Places one level in a file. -/
def placeLevel (c : Configuration) (base : Path) (policy : Overwriting) (index : Nat)
    (level : Level) : m Report := do
  match generate level c with
  | .error cause => return failed index (.model cause)
  | .ok generated =>
    let (result, log) ← placeText policy (base.indexed index) generated.text
    let report : Report := ⟨[], generated.model.record :: log⟩
    match result with
    | .ok () => return report
    | .error cause => return report.append (failed index cause)

/-- Places levels in files, numbered from `index` on. -/
def placeFrom (c : Configuration) (base : Path) (policy : Overwriting) (index : Nat) :
    List Level → m Report
  | [] => return {}
  | level :: rest => do
    let report ← placeLevel c base policy index level
    return report.append (← placeFrom c base policy (index + 1) rest)

/-- The name by which the output is called in errors. -/
def outputName : String := "<stdout>"

/-- Writes the only level to the output. -/
def printLevel (c : Configuration) (level : Level) : m Report := do
  match generate level c with
  | .error cause => return ⟨[.model cause], []⟩
  | .ok generated =>
    match ← Host.print generated.text with
    | .ok () => return ⟨[], [generated.model.record]⟩
    | .error fault => return ⟨[.io outputName fault], [generated.model.record]⟩

/-- Places levels in numbered files, or a single one on the output if no path is given. -/
def place (levels : List Level) (c : Configuration) (target? : Option Path)
    (policy : Overwriting) : m Report :=
  match target?, levels with
  | some base, _ => placeFrom c base policy 0 levels
  | none, [level] => printLevel c level
  | none, _ => return ⟨[.ambiguousOutput levels.length], []⟩

end Placement

end Sokoban
