import Sokoban.CommandLine

/-! # The program

Runs the command line program on the machine at hand.

This is the only module with effects.  Every operation of the interface is one call of the system,
whose fault is turned into a value of the model; making folders is the exception, and goes through
the same `ensureChain` as on a machine that is a value.
-/

namespace Sokoban

/-- The fault that a number of the system stands for.  Some calls give the number below nought. -/
def FileFault.ofNumber (code : UInt32) (details : String) : FileFault :=
  match (min code (0 - code)).toNat with
  | 2 => .missing
  | 17 => .alreadyThere
  | 20 => .notFolder
  | 21 => .isFolder
  | number => .other s!"{details} (os error {number})"

/-- The fault that an error of the system stands for. -/
def FileFault.ofSystem (e : IO.Error) : FileFault :=
  match e with
  | .alreadyExists _ code details => ofNumber code details
  | .noFileOrDirectory _ code details => ofNumber code details
  | .inappropriateType _ code details => ofNumber code details
  | .permissionDenied _ code details => ofNumber code details
  | .invalidArgument _ code details => ofNumber code details
  | .resourceExhausted _ code details => ofNumber code details
  | .resourceVanished code details => ofNumber code details
  | .noSuchThing _ code details => ofNumber code details
  | .otherError code details => ofNumber code details
  | e => .other (toString e)

/-- Carries out an action and keeps its fault as a value. -/
def attempt {α : Type} (action : IO α) : IO (Except FileFault α) := do
  try
    return .ok (← action)
  catch e =>
    return .error (.ofSystem e)

/-- Makes one folder, or is content with one that is there. -/
def ensureFolder (p : Path) : IO (Except FileFault Unit) := do
  match ← attempt (IO.FS.createDir p.toString) with
  | .ok () => return .ok ()
  | .error fault =>
    return if ← ((← IO.currentDir) / p.toString).isDir then .ok () else .error fault

instance : Host IO where
  isPresent p := do return ← ((← IO.currentDir) / p.toString).pathExists
  ensureFolders p := ensureChain ensureFolder p.ancestors
  writeFile p text := attempt (IO.FS.writeFile p.toString text)
  readFile p := attempt (IO.FS.readBinFile p.toString)
  readInput := attempt do (← IO.getStdin).readBinToEnd
  print text := attempt do
    let out ← IO.getStdout
    out.putStr text
    out.flush

end Sokoban

/-- Runs the program and reports on the error stream. -/
def main (arguments : List String) : IO UInt32 := do
  let outcome : Sokoban.CommandLine.Outcome ← Sokoban.CommandLine.run arguments
  match outcome with
  | .usage cause => (if outcome.exitCode = 0 then IO.println else IO.eprintln) cause.message
  | .finished _ log =>
    let setting := Sokoban.CommandLine.setting arguments (← IO.getEnv "RUST_LOG")
    for line in Sokoban.CommandLine.shownLines setting log do
      IO.eprintln line
  return outcome.exitCode.toUInt32
