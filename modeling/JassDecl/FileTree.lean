import JassDecl.Keyed
import JassDecl.System

/-!
# File trees

The directories and files below a root. A path starts at the root or at the working directory. It is
read one component at a time, and all but its last component must lead to a directory.
-/

namespace JassDecl

/-- The names from the root down to a place. -/
abbrev Place := List Text

/-- What stands at a place. -/
inductive Node where
  | directory
  | file (content : Bytes)
  deriving DecidableEq, Repr

namespace Node

/-- Whether the node is a directory. -/
def isDirectory : Node → Bool
  | .directory => true
  | .file _ => false

/-- The content of a file. -/
def content? : Node → Option Bytes
  | .directory => none
  | .file content => some content

end Node

/-- The places below the root that hold something, and the one where a run works. -/
structure FileTree where
  nodes : Keyed Place Node
  workingDirectory : Place

namespace FileTree

/-- A root that holds nothing and is the working directory itself. -/
def empty : FileTree := ⟨.empty, []⟩

/-- What stands at a place. The root is always there. -/
def node? (tree : FileTree) (place : Place) : Option Node :=
  if place.isEmpty then some .directory else tree.nodes.get? place

/-! ## Paths -/

/-- The place that one component of a path leads to. Above the root there is only the root. -/
def enter (place : Place) (component : Text) : Place :=
  if component = [] ∨ component = ['.'] then place
  else if component = ['.', '.'] then place.dropLast
  else place ++ [component]

/-- Follows the components of a path. Each is looked up in a directory; the last one may lead to a
place that holds nothing yet. -/
def follow (tree : FileTree) (place : Place) : List Text → Option Place
  | [] => some place
  | component :: rest =>
      if (tree.node? place).any Node.isDirectory then tree.follow (enter place component) rest
      else none

/-- Where a path starts: at the root if its first character is a slash. -/
def start (tree : FileTree) (path : Text) : Place :=
  if path.head? = some '/' then [] else tree.workingDirectory

/-- The place of a path. -/
def place? (tree : FileTree) (path : Text) : Option Place :=
  if System.isNamed path then tree.follow (tree.start path) (Text.splitOn '/' path) else none

/-! ## Reading and writing -/

/-- The bytes of the file at a path. -/
def read? (tree : FileTree) (path : Text) : Option Bytes :=
  ((tree.place? path).bind tree.node?).bind Node.content?

/-- Puts a file at a path, in place of one that is there. A directory is never replaced. -/
def write? (tree : FileTree) (path : Text) (content : Bytes) : Option FileTree :=
  match tree.place? path with
  | none => none
  | some place =>
      if (tree.node? place).any Node.isDirectory then none
      else some { tree with nodes := tree.nodes.set place (.file content) }

/-- A tree is a system. -/
instance : System (StateM FileTree) where
  read? path := return (← get).read? path
  write? path content := do
    match (← get).write? path content with
    | some after => set after; return true
    | none => return false

/-! ## Building and comparing -/

/-- The place below the root that a path leads to where nothing stands in its way. -/
def placeOf (path : Text) : Place :=
  (Text.splitOn '/' path).foldl enter []

/-- Puts a node at a path below the root and makes the directories above it. -/
def put (tree : FileTree) (path : Text) (node : Node) : FileTree :=
  let place := placeOf path
  let above := (List.range place.length).map place.take
  let made := above.foldl (fun nodes upper => nodes.alter upper (·.getD .directory)) tree.nodes
  { tree with nodes := made.set place node }

/-- A tree with the given directories and files, whose root is the working directory. -/
def ofContents (directories : List Text) (files : List (Text × Bytes)) : FileTree :=
  let made := directories.foldl (fun tree path => tree.put path .directory) empty
  files.foldl (fun tree file => tree.put file.1 (.file file.2)) made

/-- The text of a place. -/
def pathOf (place : Place) : Text :=
  List.intercalate ['/'] place

/-- The files of the second tree that are not the same in the first one, by path. -/
def changes (before after : FileTree) : List (Text × Bytes) :=
  let changed := after.nodes.entries.filterMap fun (place, node) =>
    if before.node? place = some node then none
    else node.content?.map fun content => (pathOf place, content)
  changed.mergeSort fun a b => Text.precedes a.1 b.1

end FileTree

end JassDecl
