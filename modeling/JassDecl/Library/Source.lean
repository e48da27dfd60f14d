import JassDecl.Keyword
import JassDecl.Library

/-!
# Libraries as source lines

How declarations are written so that they can be recognized again.
-/

namespace JassDecl

namespace TypeDecl

/-- The line of a type. -/
def sourceLine (d : TypeDecl) : Text :=
  List.intercalate [' '] [Keyword.type, d.name, Keyword.extending, d.parent]

end TypeDecl

namespace Argument

/-- A parameter in its clause: the type, and the name if there is one. -/
def source (a : Argument) : Text :=
  if a.name.isEmpty then a.type else a.type ++ [' '] ++ a.name

/-- The clause that lists parameters. -/
def clause : List Argument → Text
  | [] => Keyword.nothing
  | first :: more => List.intercalate [',', ' '] ((first :: more).map source)

end Argument

namespace Prototype

/-- The line of a prototype of the given sort. -/
def sourceLine (sort : Text) (d : Prototype) : Text :=
  List.intercalate [' ']
    [sort, d.name, Keyword.takes, Argument.clause d.arguments, Keyword.returns, d.returnType]

end Prototype

namespace GlobalDecl

/-- The line of a global inside its block. -/
def sourceLine (d : GlobalDecl) : Text :=
  List.intercalate [' '] <|
    (if d.constant then [Keyword.constant] else []) ++ [d.type] ++
      (if d.array then [Keyword.array] else []) ++ [d.name] ++
      (match d.value with | none => [] | some value => [['='], value])

end GlobalDecl

namespace Library

/-- The lines of a library. Its globals stand in one block. -/
def sourceLines (l : Library) : List Text :=
  l.types.map TypeDecl.sourceLine ++ l.natives.map (Prototype.sourceLine Keyword.native) ++
    [Keyword.globals] ++ l.globals.map GlobalDecl.sourceLine ++ [Keyword.endglobals] ++
    l.functions.map (Prototype.sourceLine Keyword.function)

/-- A source that declares what a library holds. -/
def sourceText (l : Library) : Text :=
  List.intercalate ['\n'] l.sourceLines

end Library

end JassDecl
