import JassDecl.Json.Printer
import JassDecl.Json.Reader
import JassDecl.Override.Table
import JassDecl.Text.Numeral
import JassDecl.Text.Utf8

/-!
# Files of override tables

A table is written as a JSON object. For each native it has an object that maps positions to types.
The first fault in the order of the file is the one reported.
-/

namespace JassDecl.Override

/-! ## Faults -/

/-- Why a file holds no table. -/
inductive Fault where
  | encoding (fault : Utf8.Fault)
  | json (text : Text) (fault : Json.Fault)
  | noObject
  | noPositions (name : Text)
  | noInteger (name key : Text)
  | noType (name key : Text)
  deriving DecidableEq, Repr

namespace Fault

/-- The fault in words. -/
def message : Fault → Text
  | .encoding fault => "invalid JSON: ".toList ++ fault.message
  | .json text fault => "invalid JSON: ".toList ++ fault.message text
  | .noObject => "expected an object of native names".toList
  | .noPositions name => "overrides for '".toList ++ name ++ "' must be an object".toList
  | .noInteger name key =>
      "argument index '".toList ++ key ++ "' of '".toList ++ name ++
        "' is not an integer".toList
  | .noType name key =>
      "override ".toList ++ name ++ ['['] ++ key ++
        "] must map a non-negative index to a string".toList

/-- The fault in words, after the path of the file. -/
def render (path : Text) (fault : Fault) : Text :=
  path ++ ": ".toList ++ fault.message

end Fault

/-! ## Reading -/

/-- The position and type of one entry of a native. -/
def readEntry (name key : Text) (value : Json.Value) : Except Fault (Nat × Text) :=
  match Text.Numeral.integer? key with
  | none => .error (.noInteger name key)
  | some (.negSucc _) => .error (.noType name key)
  | some (.ofNat position) =>
      match value with
      | .string type => .ok (position, type)
      | _ => .error (.noType name key)

/-- The positions of one native. Of two keys for one position the later one counts. -/
def readPositions (name : Text) : Json.Value → Except Fault Positions
  | .object members => do
      let entries ← members.mapM fun (key, value) => readEntry name key value
      return .ofList entries
  | _ => .error (.noPositions name)

namespace Table

/-- The table that a JSON value holds. -/
def ofJson : Json.Value → Except Fault Table
  | .object members => do
      let entries ← members.mapM fun (name, value) => do
        return (name, ← readPositions name value)
      return .ofList entries
  | _ => .error .noObject

/-- The table in a text. Its line ends may be of any platform. -/
def ofText (text : Text) : Except Fault Table :=
  let text := Text.unifyNewlines text
  match Json.read text with
  | .ok value => ofJson value
  | .error fault => .error (.json text fault)

/-- The table in a file. -/
def ofBytes (bytes : Bytes) : Except Fault Table :=
  match Utf8.decode bytes with
  | .ok text => ofText text
  | .error fault => .error (.encoding fault)

/-! ## Writing -/

/-- The positions of a native as an object, with the positions in decimal. -/
def positionsToJson (positions : Positions) : Json.Value :=
  .object <| positions.entries.map fun (position, type) => (Text.ofNat position, .string type)

/-- The table as an object. -/
def toJson (table : Table) : Json.Value :=
  .object <| table.entries.map fun (name, positions) => (name, positionsToJson positions)

/-- The table as a file. -/
def toBytes (layout : Json.Layout) (table : Table) : Bytes :=
  Utf8.encode (Json.render layout table.toJson)

end Table

end JassDecl.Override
