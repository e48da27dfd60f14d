import JassDecl.Declaration
import JassDecl.Override.Table

/-!
# Types in TypeScript

How the types of declarations are written. A type without a rule of its own is written as it is.
-/

namespace JassDecl.TypeScript

/-- A type of a value or of a return. The empty type stands for a missing return type. -/
def valueType (type : Text) : Text :=
  if type = "real".toList || type = "integer".toList then "number".toList
  else if type = "nothing".toList || type = [] then "void".toList
  else if type = "code".toList then "() => void".toList
  else type

/-- A type of a parameter. A caller may leave out a `boolexpr`. -/
def argumentType (type : Text) : Text :=
  if type = "boolexpr".toList then "boolexpr | null".toList else valueType type

/-- The type of arrays of a type, in parentheses where `[]` would bind to a part of it. -/
def arrayOf (type : Text) : Text :=
  if Text.hasPart "=>".toList type || Text.hasPart "|".toList type then
    ['('] ++ type ++ ")[]".toList
  else type ++ "[]".toList

/-! ## Parameters of natives -/

/-- Why a position has no parameter: it is past the last one, or past every position that a list can
have. -/
inductive PositionFault where
  | pastEnd
  | tooLarge
  deriving DecidableEq, Repr

namespace PositionFault

/-- The greatest position that a list can have: the greatest signed word of 64 bits. -/
def greatest : Nat := 0x7FFFFFFFFFFFFFFF

/-- The fault of a position at which there is no parameter. -/
def ofPosition (position : Nat) : PositionFault :=
  if position ≤ greatest then .pastEnd else .tooLarge

/-- The fault in words. -/
def message : PositionFault → Text
  | .pastEnd => "list index out of range".toList
  | .tooLarge => "cannot fit 'int' into an index-sized integer".toList

end PositionFault

/-- The type of the parameter of a native at a position: what the table says, even past the last
parameter, or else what is declared there. -/
def nativeArgumentType (table : Override.Table) (native : Prototype) (position : Nat) :
    Except PositionFault Text :=
  match table.type? native.name position with
  | some type => .ok type
  | none =>
      match native.arguments[position]? with
      | some argument => .ok (argumentType argument.type)
      | none => .error (.ofPosition position)

end JassDecl.TypeScript
