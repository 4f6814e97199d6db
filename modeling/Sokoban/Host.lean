import Sokoban.FileTree

/-! # Hosts

What the program asks of the machine that it runs on, and a machine that is a value.

The program is written once, for every monad that can do what is asked.  Run on `Machine` it is a
function from files, input and output to the same, about which theorems can be stated; run in `IO`
it is the program.  Nothing but this interface stands between the two.
-/

namespace Sokoban

/-- A machine with files, an input and an output. -/
class Host (m : Type → Type) where
  /-- Whether a path leads to a file or a folder. -/
  isPresent : Path → m Bool
  /-- Makes a folder and all the folders above it. -/
  ensureFolders : Path → m (Except FileFault Unit)
  /-- Stores a text in a file, instead of its old content. -/
  writeFile : Path → String → m (Except FileFault Unit)
  /-- The content of a file. -/
  readFile : Path → m (Except FileFault ByteArray)
  /-- All that is left of the input. -/
  readInput : m (Except FileFault ByteArray)
  /-- Writes to the output. -/
  print : String → m (Except FileFault Unit)

/-- A machine as a value. -/
structure Machine where
  files : FileTree
  input : ByteArray := ByteArray.empty
  output : String := ""
  /-- Why the output takes nothing, if it does not. -/
  outputFault? : Option FileFault := none

namespace Machine

/-- Changes the files. -/
def onFiles (change : StateM FileTree (Except FileFault Unit)) :
    StateM Machine (Except FileFault Unit) := fun m =>
  let (result, files) := change m.files
  (result, { m with files })

/-- Writes to the output, if it takes anything. -/
def print (text : String) : StateM Machine (Except FileFault Unit) := fun m =>
  match m.outputFault? with
  | some fault => (.error fault, m)
  | none => (.ok (), { m with output := m.output ++ text })

instance : Host (StateM Machine) where
  isPresent p := fun m => ((m.files.find? p).isSome, m)
  ensureFolders p := onFiles (FileTree.ensureFolders p)
  writeFile p text := onFiles (FileTree.write p text.toUTF8)
  readFile p := fun m => (m.files.read p, m)
  readInput := fun m => (.ok m.input, { m with input := ByteArray.empty })
  print := Machine.print

end Machine

end Sokoban
