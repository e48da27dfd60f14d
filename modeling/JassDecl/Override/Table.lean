import JassDecl.Keyed
import JassDecl.Text

/-!
# Override tables

A table gives the parameters of natives other types than their sources do: for the name of a native
and the position of a parameter, the type to show instead.
-/

namespace JassDecl.Override

/-- The new types of the parameters of one native, by position. -/
abbrev Positions := Keyed Nat Text

/-- The new types by native and position. -/
abbrev Table := Keyed Text Positions

namespace Table

/-- The new type of the parameter at a position, if there is one. -/
def type? (table : Table) (native : Text) (position : Nat) : Option Text :=
  (table.get? native).bind (·.get? position)

/-- Gives one parameter a new type. -/
def setType (table : Table) (native : Text) (position : Nat) (type : Text) : Table :=
  table.alter native fun positions => (positions.getD .empty).set position type

/-- Lays `upper` over `lower`. Where both have a type for a parameter, the upper one counts. -/
def layer (lower upper : Table) : Table :=
  Keyed.merge (Keyed.merge fun _ type => type) lower upper

/-- The callbacks of conditions and filters return a boolean. -/
def default : Table :=
  let callback := Keyed.ofList [(0, "() => boolean".toList)]
  .ofList [("Condition".toList, callback), ("Filter".toList, callback)]

/-! ## Listing -/

/-- The table by names, and each name by positions. -/
def sorted (table : Table) : List (Text × List (Nat × Text)) :=
  (table.entries.mergeSort fun a b => Text.precedes a.1 b.1).map fun (name, positions) =>
    (name, positions.entries.mergeSort fun a b => a.1 ≤ b.1)

end Table

end JassDecl.Override
