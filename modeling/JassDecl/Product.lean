import JassDecl.Json.Printer
import JassDecl.Library.Json
import JassDecl.Report
import JassDecl.TypeScript.Declarations

/-!
# Products

What becomes of source texts: the normal forms of their lines, their library as JSON, or its
declaration file.
-/

namespace JassDecl

/-- What becomes of sources: the notices, and the text to write unless they are refused. -/
structure Product where
  notices : List Notice
  output : Option Text
  deriving DecidableEq, Repr

namespace Product

/-- The exit code: refused sources fail the run. -/
def exit (p : Product) : Nat :=
  if p.output.isSome then 0 else 1

/-- The normal forms of the lines of a text, without comment lines and empty ones. -/
def normalLines (text : Text) : List Text :=
  (((Text.lines text).filter (!Line.isComment ·)).map Line.normal).filter (!·.isEmpty)

/-- The normal forms of the lines of all sources, in order. -/
def normalText (sources : List Source) : Text :=
  Text.unlines (sources.flatMap fun source => normalLines source.text)

/-- The JSON text of a library. -/
def libraryText (l : Library) : Text :=
  Json.render (.indented 2) l.toJson ++ ['\n']

/-- The output for a library. -/
def libraryOutput (stopAt : Option Phase) (table : Override.Table) (l : Library) : Text :=
  if stopAt = some .recognize then libraryText l else TypeScript.declarationFile table l

/-- The notices on what was recognized. -/
def diagnostics (severity : Severity) (r : Recognition) : List Notice :=
  r.diagnostics.map (.diagnostic severity)

/-- The product of sources. In a strict run any diagnostic refuses them. To stop at the normal forms
needs no recognition. -/
def ofSources (stopAt : Option Phase) (strict : Bool) (table : Override.Table)
    (sources : List Source) : Product :=
  if stopAt = some .normalize then ⟨[], some (normalText sources)⟩
  else
    let r := Recognition.ofSources sources
    if strict && !r.ok then ⟨diagnostics .error r, none⟩
    else
      let emptiness : List Notice := if r.library.isEmpty then [.noDeclarations] else []
      ⟨diagnostics .warning r ++ emptiness, some (libraryOutput stopAt table r.library)⟩

end Product

end JassDecl
