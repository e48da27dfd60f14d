import JassDecl.Declaration

/-!
# Libraries

A library collects declarations sort by sort. Within a sort it keeps the order in which they were
met.
-/

namespace JassDecl

/-- The declarations of one or more sources, sort by sort. -/
structure Library where
  types : List TypeDecl := []
  natives : List Prototype := []
  globals : List GlobalDecl := []
  functions : List Prototype := []
  deriving DecidableEq, Repr

namespace Library

/-- The library without declarations. -/
def empty : Library := {}

/-- All declarations of the first library, then all of the second, in each sort. -/
def append (a b : Library) : Library where
  types := a.types ++ b.types
  natives := a.natives ++ b.natives
  globals := a.globals ++ b.globals
  functions := a.functions ++ b.functions

instance : Append Library := ⟨append⟩

/-- Whether no sort has a declaration. -/
def isEmpty (l : Library) : Bool :=
  l.types.isEmpty && l.natives.isEmpty && l.globals.isEmpty && l.functions.isEmpty

/-- Sorts declarations into a library. -/
def ofDeclarations (ds : List Declaration) : Library where
  types := ds.filterMap Declaration.type?
  natives := ds.filterMap Declaration.native?
  globals := ds.filterMap Declaration.global?
  functions := ds.filterMap Declaration.function?

end Library

end JassDecl
