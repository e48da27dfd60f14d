import JassDecl.Override.Store
import JassDecl.TypeScript.Declarations

/-!
# Sessions

A session keeps recognitions, override tables and writers under names. A writer belongs to one table
and follows its changes, also when the name of the table is given to another one later.
-/

namespace JassDecl

/-! ## Writers -/

/-- A writer: the position of the table that it belongs to, and the lines that it wrote last. -/
structure Writer where
  table : Nat
  lines : List Text

namespace Writer

/-- Writes one more line. -/
def line (w : Writer) (text : Text) : Writer :=
  { w with lines := w.lines ++ [text] }

/-- Writes the declaration file of a library in place of what was written last. -/
def write (w : Writer) (table : Override.Table) (l : Library) : Writer :=
  (TypeScript.declarationLines table l).foldl line { w with lines := [] }

end Writer

/-- What has been made so far. A table keeps its position in the store for good, and names stand for
positions. -/
structure Session where
  recognitions : Keyed Text Recognition
  store : Override.Store
  tableNames : Keyed Text Nat
  writers : Keyed Text Writer

namespace Session

/-- The position of the table that default ones are copied from. -/
def original : Nat := 0

/-- The session in which nothing has been made but the original table. -/
def empty : Session := ⟨.empty, Override.Store.empty.add .default, .empty, .empty⟩

/-! ## Steps -/

/-- One step of a session. Where no table is given, a default one is made. -/
inductive Step where
  | clear (slot : Text)
  | recognize (slot : Text) (source : Source)
  | appendLibrary (slot other : Text)
  | append (slot other : Text)
  | report (slot : Text) (diagnostic : Diagnostic)
  | recall (slot : Text)
  | table (name : Text) (table : Option Override.Table)
  | layer (name lower : Text) (upper : Override.Table)
  | setType (name native : Text) (position : Nat) (type : Text)
  | defaultTable
  | writer (name : Text) (table : Option Text)
  | write (writer slot : Text)

/-- What a step answers. -/
inductive Answer where
  | library (library : Library)
  | recognition (recognition : Recognition)
  | ok (ok : Bool)
  | contents (recognition : Recognition)
  | table (table : Override.Table)
  | made
  | text (text : Text)
  deriving DecidableEq, Repr

/-! ## Tables -/

/-- What the tables hold at present. -/
def tables (s : Session) : List Override.Table :=
  s.store.tables

/-- What the table that a name stands for holds at present. -/
def tableOf? (s : Session) (name : Text) : Option Override.Table :=
  (s.tableNames.get? name).bind (s.tables[·]?)

/-- Gives a name to the new table in a store. -/
def enter (s : Session) (name : Text) (store : Override.Store) : Option (Session × Answer) := do
  let next := { s with store, tableNames := s.tableNames.set name s.tables.length }
  return (next, .table (← next.tableOf? name))

/-- Keeps a recognition under a name. -/
def keep (s : Session) (slot : Text) (r : Recognition) : Session :=
  { s with recognitions := s.recognitions.set slot r }

/-! ## Running -/

/-- Takes one step. There is no answer when a name stands for nothing. -/
def step (s : Session) : Step → Option (Session × Answer)
  | .clear slot => some (s.keep slot .empty, .library .empty)
  | .recognize slot source =>
      let r := Recognition.ofSource source
      some (s.keep slot r, .library r.library)
  | .appendLibrary slot other => do
      let r ← s.recognitions.get? slot
      let o ← s.recognitions.get? other
      let r := { r with library := r.library ++ o.library }
      return (s.keep slot r, .library r.library)
  | .append slot other => do
      let r ← s.recognitions.get? slot
      let o ← s.recognitions.get? other
      let r := r ++ o
      return (s.keep slot r, .recognition r)
  | .report slot diagnostic => do
      let r ← s.recognitions.get? slot
      let r := { r with diagnostics := r.diagnostics ++ [diagnostic] }
      return (s.keep slot r, .ok r.ok)
  | .recall slot => do
      let r ← s.recognitions.get? slot
      return (s, .contents r)
  | .table name (some table) => s.enter name (s.store.add table)
  | .table name none => do
      let store ← s.store.layer original .empty
      s.enter name store
  | .layer name lower upper => do
      let index ← s.tableNames.get? lower
      let store ← s.store.layer index upper
      s.enter name store
  | .setType name native position type => do
      let index ← s.tableNames.get? name
      let next := { s with store := s.store.change index native (·.set position type) }
      return (next, .table (← next.tableOf? name))
  | .defaultTable => do
      return (s, .table (← s.tables[original]?))
  | .writer name (some table) => do
      let index ← s.tableNames.get? table
      return ({ s with writers := s.writers.set name ⟨index, []⟩ }, .made)
  | .writer name none => do
      let store ← s.store.layer original .empty
      return ({ s with store, writers := s.writers.set name ⟨s.tables.length, []⟩ }, .made)
  | .write name slot => do
      let writer ← s.writers.get? name
      let table ← s.tables[writer.table]?
      let r ← s.recognitions.get? slot
      let writer := writer.write table r.library
      return ({ s with writers := s.writers.set name writer }, .text (Text.unlines writer.lines))

/-- Takes steps in order and collects their answers. -/
def run (s : Session) : List Step → Option (Session × List Answer)
  | [] => some (s, [])
  | first :: rest => do
      let (next, answer) ← s.step first
      let (last, answers) ← next.run rest
      return (last, answer :: answers)

end Session

end JassDecl
