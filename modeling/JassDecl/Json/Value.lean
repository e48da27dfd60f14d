import JassDecl.Keyed
import JassDecl.Text

/-! # JSON values -/

namespace JassDecl.Json

/-- A JSON value. A number is kept as it is written. The members of an object are in order. -/
inductive Value where
  | null
  | bool (b : Bool)
  | number (lexeme : Text)
  | string (t : Text)
  | array (items : List Value)
  | object (members : List (Text × Value))
  deriving Inhabited, Repr

namespace Value

/-- A text as a value, and `null` for none. -/
def ofText? : Option Text → Value
  | none => .null
  | some t => .string t

/-! ## Parts -/

/-- The text of a string. -/
def text? : Value → Option Text
  | .string t => some t
  | _ => none

/-- The truth value of a literal. -/
def bool? : Value → Option Bool
  | .bool b => some b
  | _ => none

/-- No text for `null`, and the text of a string. -/
def optionalText? : Value → Option (Option Text)
  | .null => some none
  | .string t => some (some t)
  | _ => none

/-- The items of an array, each read by `read`. -/
def items? {α : Type} (read : Value → Option α) : Value → Option (List α)
  | .array items => items.mapM read
  | _ => none

/-- The value of a member of an object. -/
def member? (name : Text) : Value → Option Value
  | .object members => Entries.get? name members
  | _ => none

end Value

end JassDecl.Json
