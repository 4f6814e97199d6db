import Sokoban.Path

/-! # File trees

Files and folders as a value.  A path is followed name by name from the working folder, or from the
root if it begins with a slash; every name but the last must lead to a folder.

A tree is the list of what stands at each place, and a place is the list of names from the root.
Two dots lead one place up once what is before them has been found to be a folder, so a path through
a folder that is not there leads nowhere, even if two dots follow.  There are no links, no
permissions and no other processes.
-/

namespace Sokoban

/-- Why something cannot be done with a file. -/
inductive FileFault where
  | missing
  | alreadyThere
  | notFolder
  | isFolder
  /-- The content is no text. -/
  | notText
  /-- Anything else, in the words of the system. -/
  | other (text : String)
deriving DecidableEq, Repr

/-- The wording of a fault. -/
def FileFault.message : FileFault → String
  | .missing => "No such file or directory (os error 2)"
  | .alreadyThere => "File exists (os error 17)"
  | .notFolder => "Not a directory (os error 20)"
  | .isFolder => "Is a directory (os error 21)"
  | .notText => "stream did not contain valid UTF-8"
  | .other text => text

/-- Makes the first folder of a list of paths in which each stands above the one before it, where
one folder can be made by `ensure`.  If the path does not lead anywhere yet, the folder above it is
made first. -/
def ensureChain {m : Type → Type} [Monad m] (ensure : Path → m (Except FileFault Unit)) :
    List Path → m (Except FileFault Unit)
  | [] => return .ok ()
  | p :: above => do
    if p.chars.isEmpty then
      return .ok ()
    match ← ensure p with
    | .error .missing =>
      match ← ensureChain ensure above with
      | .ok () => ensure p
      | failed => return failed
    | result => return result

/-- What stands at a place in a tree. -/
inductive Node where
  | file (content : ByteArray)
  | folder

/-- A place in a tree: the names that lead to it from the root. -/
abbrev Place := List (List Char)

/-- A tree of files and folders.  The root is a folder and is not listed. -/
structure FileTree where
  /-- The working folder. -/
  current : Place
  /-- What stands at each place, each place once. -/
  nodes : List (Place × Node)

namespace FileTree

/-- What stands at a place. -/
def node? (t : FileTree) (place : Place) : Option Node :=
  if place.isEmpty then some .folder else t.nodes.lookup place

/-- Nodes with one of them set. -/
def setNode (place : Place) (node : Node) : List (Place × Node) → List (Place × Node)
  | [] => [(place, node)]
  | entry :: rest =>
    if entry.1 = place then (place, node) :: rest else entry :: setNode place node rest

/-- The tree with a node set. -/
def put (t : FileTree) (place : Place) (node : Node) : FileTree :=
  { t with nodes := setNode place node t.nodes }

/-- Follows names from a place. -/
def follow (t : FileTree) : Place → List (List Char) → Except FileFault Place
  | place, [] => .ok place
  | place, name :: rest =>
    match t.node? place with
    | none => .error .missing
    | some (.file _) => .error .notFolder
    | some .folder =>
      if name = ['.'] then follow t place rest
      else if name = ['.', '.'] then follow t place.dropLast rest
      else follow t (place ++ [name]) rest

/-- The place that a path leads to.  Nothing need stand there yet, but a path that ends in a slash
must lead to a folder. -/
def locate (t : FileTree) (p : Path) : Except FileFault Place :=
  if p.chars.isEmpty then
    .error .missing
  else
    let start := if p.chars.head? = some '/' then [] else t.current
    let ending := if p.chars.getLast? = some '/' then [['.']] else []
    t.follow start ((p.chars.splitOn '/').filter (!·.isEmpty) ++ ending)

/-- What a path leads to, if anything. -/
def find? (t : FileTree) (p : Path) : Option Node :=
  match t.locate p with
  | .ok place => t.node? place
  | .error _ => none

/-- Whether a path leads to a folder. -/
def isFolder (t : FileTree) (p : Path) : Bool :=
  match t.find? p with
  | some .folder => true
  | _ => false

/-- The content of the file that a path leads to. -/
def read (t : FileTree) (p : Path) : Except FileFault ByteArray :=
  match t.locate p with
  | .error fault => .error fault
  | .ok place =>
    match t.node? place with
    | none => .error .missing
    | some .folder => .error .isFolder
    | some (.file content) => .ok content

/-- Stores a content where a path leads to, in a new file or instead of the old content. -/
def write (p : Path) (content : ByteArray) : StateM FileTree (Except FileFault Unit) := fun t =>
  match t.locate p with
  | .error fault => (.error fault, t)
  | .ok place =>
    match t.node? place with
    | some .folder => (.error .isFolder, t)
    | _ => (.ok (), t.put place (.file content))

/-- Makes one folder. -/
def makeFolder (p : Path) : StateM FileTree (Except FileFault Unit) := fun t =>
  match t.locate p with
  | .error fault => (.error fault, t)
  | .ok place =>
    match t.node? place with
    | some _ => (.error .alreadyThere, t)
    | none => (.ok (), t.put place .folder)

/-- Makes one folder, or is content with one that is there. -/
def ensureFolder (p : Path) : StateM FileTree (Except FileFault Unit) := fun t =>
  match makeFolder p t with
  | (.ok (), t) => (.ok (), t)
  | (.error fault, t) => (if t.isFolder p then .ok () else .error fault, t)

/-- Makes a folder and all the folders above it. -/
def ensureFolders (p : Path) : StateM FileTree (Except FileFault Unit) :=
  ensureChain ensureFolder p.ancestors

end FileTree

end Sokoban
