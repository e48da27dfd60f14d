import JassDecl.Json.Value
import JassDecl.Library

/-!
# Libraries as JSON values

Each record is an object with one member for each field, so that it can be read back.
-/

namespace JassDecl

open Json

namespace Argument

/-- The parameter as an object. -/
def toJson (a : Argument) : Value :=
  .object [("type".toList, .string a.type), ("name".toList, .string a.name)]

/-- The parameter that an object holds. -/
def ofJson? (v : Value) : Option Argument := do
  return ⟨← (← v.member? "type".toList).text?, ← (← v.member? "name".toList).text?⟩

end Argument

namespace TypeDecl

/-- The type as an object. -/
def toJson (d : TypeDecl) : Value :=
  .object [("name".toList, .string d.name), ("parent".toList, .string d.parent)]

/-- The type that an object holds. -/
def ofJson? (v : Value) : Option TypeDecl := do
  return ⟨← (← v.member? "name".toList).text?, ← (← v.member? "parent".toList).text?⟩

end TypeDecl

namespace Prototype

/-- The prototype as an object. -/
def toJson (d : Prototype) : Value :=
  .object
    [("name".toList, .string d.name),
      ("arguments".toList, .array (d.arguments.map Argument.toJson)),
      ("return_type".toList, .string d.returnType)]

/-- The prototype that an object holds. -/
def ofJson? (v : Value) : Option Prototype := do
  let name ← (← v.member? "name".toList).text?
  let arguments ← (← v.member? "arguments".toList).items? Argument.ofJson?
  let returnType ← (← v.member? "return_type".toList).text?
  return ⟨name, arguments, returnType⟩

end Prototype

namespace GlobalDecl

/-- The global as an object. A global without initializer has the value `null`. -/
def toJson (d : GlobalDecl) : Value :=
  .object
    [("constant".toList, .bool d.constant),
      ("type".toList, .string d.type),
      ("array".toList, .bool d.array),
      ("name".toList, .string d.name),
      ("value".toList, .ofText? d.value)]

/-- The global that an object holds. -/
def ofJson? (v : Value) : Option GlobalDecl := do
  let constant ← (← v.member? "constant".toList).bool?
  let type ← (← v.member? "type".toList).text?
  let array ← (← v.member? "array".toList).bool?
  let name ← (← v.member? "name".toList).text?
  let value ← (← v.member? "value".toList).optionalText?
  return ⟨constant, type, array, name, value⟩

end GlobalDecl

namespace Library

/-- The library as an object with one array for each sort of declarations. -/
def toJson (l : Library) : Value :=
  .object
    [("types".toList, .array (l.types.map TypeDecl.toJson)),
      ("natives".toList, .array (l.natives.map Prototype.toJson)),
      ("globals".toList, .array (l.globals.map GlobalDecl.toJson)),
      ("functions".toList, .array (l.functions.map Prototype.toJson))]

/-- The library that an object holds. -/
def ofJson? (v : Value) : Option Library := do
  let types ← (← v.member? "types".toList).items? TypeDecl.ofJson?
  let natives ← (← v.member? "natives".toList).items? Prototype.ofJson?
  let globals ← (← v.member? "globals".toList).items? GlobalDecl.ofJson?
  let functions ← (← v.member? "functions".toList).items? Prototype.ofJson?
  return ⟨types, natives, globals, functions⟩

end Library

end JassDecl
