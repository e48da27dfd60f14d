import JassDecl.Json.Lexeme
import JassDecl.Keyed

/-!
# Reading JSON

A text is read lexeme by lexeme with a stack of the arrays and objects that are still open. A member
name that stands twice in an object keeps its first place and its last value.
-/

namespace JassDecl.Json

/-! ## States -/

/-- An open array with the items so far, or an open object with the members so far and the name
whose value comes next. -/
inductive Frame where
  | array (items : List Value)
  | object (members : List (Text × Value)) (name : Text)

/-- What may come next inside the open arrays and objects. -/
inductive State where
  /-- A value. -/
  | beforeValue (stack : List Frame)
  /-- The first item of an array, or its end. -/
  | firstItem (stack : List Frame)
  /-- The first name of an object, or its end. -/
  | firstName (stack : List Frame)
  /-- A name. -/
  | beforeName (members : List (Text × Value)) (stack : List Frame)
  /-- The colon after a name. -/
  | beforeColon (members : List (Text × Value)) (name : Text) (stack : List Frame)
  /-- A comma, or the end of an array. -/
  | afterItem (items : List Value) (stack : List Frame)
  /-- A comma, or the end of an object. -/
  | afterMember (members : List (Text × Value)) (stack : List Frame)
  /-- Nothing more. -/
  | done (value : Value)

namespace State

/-- The state after a value has been read completely. -/
def put (value : Value) : List Frame → State
  | [] => .done value
  | .array items :: stack => .afterItem (items ++ [value]) stack
  | .object members name :: stack => .afterMember (Entries.set name value members) stack

/-- Reads a lexeme where a value must stand. -/
def startValue (stack : List Frame) (x : Lexeme) : Except Fault State :=
  match x.token with
  | .string content => content.map fun t => put (.string t) stack
  | .literal value => value.map fun v => put v stack
  | .openArray => .ok (.firstItem stack)
  | .openObject => .ok (.firstName stack)
  | _ => .error (.problem .expectingValue x.offset)

/-- Reads a lexeme where the name of a member must stand. -/
def startMember (members : List (Text × Value)) (stack : List Frame) (x : Lexeme) :
    Except Fault State :=
  match x.token with
  | .string content => content.map fun name => .beforeColon members name stack
  | _ => .error (.problem .expectingName x.offset)

/-- Reads one lexeme. -/
def step (x : Lexeme) : State → Except Fault State
  | .beforeValue stack => startValue stack x
  | .firstItem stack =>
      match x.token with
      | .closeArray => .ok (put (.array []) stack)
      | _ => startValue (.array [] :: stack) x
  | .firstName stack =>
      match x.token with
      | .closeObject => .ok (put (.object []) stack)
      | _ => startMember [] stack x
  | .beforeName members stack => startMember members stack x
  | .beforeColon members name stack =>
      match x.token with
      | .colon => .ok (.beforeValue (.object members name :: stack))
      | _ => .error (.problem .expectingColon x.offset)
  | .afterItem items stack =>
      match x.token with
      | .comma => .ok (.beforeValue (.array items :: stack))
      | .closeArray => .ok (put (.array items) stack)
      | _ => .error (.problem .expectingComma x.offset)
  | .afterMember members stack =>
      match x.token with
      | .comma => .ok (.beforeName members stack)
      | .closeObject => .ok (put (.object members) stack)
      | _ => .error (.problem .expectingComma x.offset)
  | .done _ => .error (.problem .extraData x.offset)

/-- The value that has been read when the text ends at an offset. -/
def finish (offset : Nat) : State → Except Fault Value
  | .beforeValue _ | .firstItem _ => .error (.problem .expectingValue offset)
  | .firstName _ | .beforeName _ _ => .error (.problem .expectingName offset)
  | .beforeColon _ _ _ => .error (.problem .expectingColon offset)
  | .afterItem _ _ | .afterMember _ _ => .error (.problem .expectingComma offset)
  | .done value => .ok value

/-- Reads lexemes in order, up to the first fault. -/
def run (state : State) : List Lexeme → Except Fault State
  | [] => .ok state
  | x :: rest =>
      match state.step x with
      | .ok next => next.run rest
      | .error fault => .error fault

end State

/-! ## Texts -/

/-- The value that a text stands for. -/
def read (text : Text) : Except Fault Value :=
  if text.head? = some '\uFEFF' then .error (.problem .unexpectedMark 0)
  else ((State.beforeValue []).run (lex text)).bind (State.finish text.length)

end JassDecl.Json
