import JassDecl.Json.Value
import JassDecl.Text.Utf16

/-!
# Writing JSON

A value is written in ASCII, either in one line or with one item a line.
-/

namespace JassDecl.Json

/-! ## Strings -/

/-- One code unit as a `\u` escape. -/
def escapeUnit (unit : Nat) : Text :=
  ['\\', 'u'] ++ Text.hex 4 unit

/-- One character of a string. -/
def escapeChar (c : Char) : Text :=
  match c with
  | '"' => ['\\', '"']
  | '\\' => ['\\', '\\']
  | '\n' => ['\\', 'n']
  | '\r' => ['\\', 'r']
  | '\t' => ['\\', 't']
  | '\x08' => ['\\', 'b']
  | '\x0c' => ['\\', 'f']
  | c =>
      if 0x20 ≤ c.toNat ∧ c.toNat < 0x7f then [c]
      else (Utf16.encodeChar c).flatMap escapeUnit

/-- A text as a string. -/
def quote (t : Text) : Text :=
  '"' :: t.flatMap escapeChar ++ ['"']

/-! ## Values -/

/-- How items are set apart: in one line, or each in its own line, with so many spaces in front for
each level. -/
inductive Layout where
  | inline
  | indented (width : Nat)
  deriving DecidableEq, Repr

namespace Layout

/-- What stands before the first item and after the last one, of items that are `depth` levels
deep. -/
def edge (layout : Layout) (depth : Nat) : Text :=
  match layout with
  | .inline => []
  | .indented width => '\n' :: List.replicate (width * depth) ' '

/-- What stands between two items. -/
def separator (layout : Layout) (depth : Nat) : Text :=
  match layout with
  | .inline => [',', ' ']
  | .indented _ => ',' :: layout.edge depth

/-- Items in brackets; only the brackets if there are no items. -/
def enclose (layout : Layout) (depth : Nat) (opening closing : Char) : List Text → Text
  | [] => [opening, closing]
  | item :: items =>
      opening :: layout.edge (depth + 1) ++
        List.intercalate (layout.separator (depth + 1)) (item :: items) ++
        layout.edge depth ++ [closing]

end Layout

mutual

/-- A value, `depth` levels deep. -/
def Value.write (layout : Layout) (depth : Nat) : Value → Text
  | .null => "null".toList
  | .bool true => "true".toList
  | .bool false => "false".toList
  | .number lexeme => lexeme
  | .string t => quote t
  | .array items => layout.enclose depth '[' ']' (writeItems layout (depth + 1) items)
  | .object members => layout.enclose depth '{' '}' (writeMembers layout (depth + 1) members)

/-- The items of an array. -/
def writeItems (layout : Layout) (depth : Nat) : List Value → List Text
  | [] => []
  | item :: items => item.write layout depth :: writeItems layout depth items

/-- The members of an object. -/
def writeMembers (layout : Layout) (depth : Nat) : List (Text × Value) → List Text
  | [] => []
  | (name, value) :: members =>
      (quote name ++ [':', ' '] ++ value.write layout depth) :: writeMembers layout depth members

end

/-- The text of a value. -/
def render (layout : Layout) (value : Value) : Text :=
  value.write layout 0

end JassDecl.Json
