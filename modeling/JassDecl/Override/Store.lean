import JassDecl.Override.Table

/-!
# Tables in memory

The positions of each native of a table are kept in a cell of their own, in which they can be
changed. Whoever knows the table sees the change. A table that is made of another one gets cells of
its own.
-/

namespace JassDecl.Override

/-- Lays the positions `upper` over `lower`. -/
def Positions.update (lower upper : Positions) : Positions :=
  Keyed.merge (fun _ type => type) lower upper

/-- The cells of one table: for each native, the address of its positions. -/
abbrev Sheet := Keyed Text Nat

/-- What the cells of a table hold. -/
def Sheet.content (cells : List Positions) (sheet : Sheet) : Table :=
  sheet.mapValues fun address => cells.getD address .empty

/-- Cells by address, and the tables that are kept in them. -/
structure Store where
  cells : List Positions
  sheets : List Sheet

namespace Store

/-- The store without tables. -/
def empty : Store := ⟨[], []⟩

/-- What the tables hold at present. -/
def tables (s : Store) : List Table :=
  s.sheets.map (Sheet.content s.cells)

/-- The cell that a table has for a native. -/
def address? (s : Store) (index : Nat) (native : Text) : Option Nat :=
  (s.sheets[index]?).bind (·.get? native)

/-! ## Changing a table in its place -/

/-- Gives a native of a table a new cell. -/
def place (s : Store) (index : Nat) (native : Text) (positions : Positions) : Store where
  cells := s.cells ++ [positions]
  sheets := s.sheets.modify index (·.set native s.cells.length)

/-- Changes the positions of a native of a table in their cell. A native without one gets one. -/
def change (s : Store) (index : Nat) (native : Text) (f : Positions → Positions) : Store :=
  match s.address? index native with
  | some address => { s with cells := s.cells.modify address f }
  | none => s.place index native (f .empty)

/-! ## New tables -/

/-- Makes a new last table without natives. -/
def blank (s : Store) : Store :=
  { s with sheets := s.sheets ++ [.empty] }

/-- Makes a new last table, with a new cell for each native. -/
def add (s : Store) (table : Table) : Store :=
  table.entries.foldl (fun t entry => t.place s.sheets.length entry.1 entry.2) s.blank

/-- Makes a new last table: `upper` over a copy of the table at a position. -/
def layer (s : Store) (lower : Nat) (upper : Table) : Option Store := do
  let table ← s.tables[lower]?
  return upper.entries.foldl
    (fun t entry => t.change s.sheets.length entry.1 (Positions.update · entry.2)) (s.add table)

end Store

end JassDecl.Override
