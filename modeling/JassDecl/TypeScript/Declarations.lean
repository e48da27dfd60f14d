import JassDecl.Recognition
import JassDecl.TypeScript.Types

/-!
# TypeScript declaration files

A declaration file has one line for each declaration, after a header. Types, natives, globals and
functions stand in this order, each group after an empty line.
-/

namespace JassDecl.TypeScript

/-- The first line of every file. -/
def header : Text :=
  "/** @noSelfInFile **/".toList

/-- A parameter with its type. -/
def parameter (name type : Text) : Text :=
  name ++ ": ".toList ++ type

/-- A function with its parameters. -/
def signature (name : Text) (parameters : List Text) (returnType : Text) : Text :=
  "declare function ".toList ++ name ++ ['('] ++ List.intercalate ", ".toList parameters ++
    "): ".toList ++ valueType returnType

/-- A type as a class. Its private field keeps two types with one parent apart. -/
def typeLine (d : TypeDecl) : Text :=
  "declare abstract class ".toList ++ d.name ++ " extends ".toList ++ d.parent ++
    " \x7b __".toList ++ d.name ++ ": never; \x7d".toList

/-- The parameters of a native, with the types of the table where it has some. -/
def nativeParameters (table : Override.Table) (d : Prototype) : List Text :=
  d.arguments.mapIdx fun position argument =>
    parameter argument.name
      ((table.type? d.name position).getD (argumentType argument.type))

/-- A native as a function. -/
def nativeLine (table : Override.Table) (d : Prototype) : Text :=
  signature d.name (nativeParameters table d) d.returnType

/-- A global as a constant or a variable. -/
def globalLine (d : GlobalDecl) : Text :=
  let type := valueType d.type
  "declare ".toList ++ (if d.constant then "const ".toList else "var ".toList) ++ d.name ++
    ": ".toList ++ (if d.array then arrayOf type else type)

/-- The parameters of a function, with the types that it declares. -/
def functionParameters (d : Prototype) : List Text :=
  d.arguments.map fun argument => parameter argument.name (argumentType argument.type)

/-- A function. -/
def functionLine (d : Prototype) : Text :=
  signature d.name (functionParameters d) d.returnType

/-- The lines of the declaration file of a library. -/
def declarationLines (table : Override.Table) (l : Library) : List Text :=
  [header, []] ++ l.types.map typeLine ++ [[]] ++ l.natives.map (nativeLine table) ++
    [[]] ++ l.globals.map globalLine ++ [[]] ++ l.functions.map functionLine

/-- The declaration file of a library. Every line of it ends in a line feed. -/
def declarationFile (table : Override.Table) (l : Library) : Text :=
  Text.unlines (declarationLines table l)

/-- The declaration file of one source text, whatever was noticed in it. -/
def ofSource (table : Override.Table) (text : Text) : Text :=
  declarationFile table (Recognition.ofSource ⟨[], text⟩).library

end JassDecl.TypeScript
