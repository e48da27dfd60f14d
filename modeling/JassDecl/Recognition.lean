import JassDecl.GlobalLine
import JassDecl.Library
import JassDecl.Statement

/-!
# Recognition

A source is read line by line. All that one line leaves for the next is whether a block of globals
is open, and since which line. Each source starts outside a block; one that ends inside is reported.
-/

namespace JassDecl

/-! ## Blocks of globals -/

/-- Where a line stands: outside a block of globals, or inside the one that some line opened. -/
inductive Block where
  | outside
  | inside (openedAt : Nat)
  deriving DecidableEq, Repr

namespace Block

/-- Reads one raw line: the state after it, and what it declares. A comment line changes nothing. -/
def read (block : Block) (number : Nat) (raw : Text) : Block × Option Declaration :=
  if Line.isComment raw then (block, none)
  else
    let line := Line.normal raw
    let tokens := Token.scan line
    match block with
    | .inside openedAt =>
        if Token.hasKeyword Keyword.endglobals tokens then (.outside, none)
        else (.inside openedAt, (GlobalDecl.ofLine? line).map .global)
    | .outside =>
        if Token.hasKeyword Keyword.globals tokens then (.inside number, none)
        else (.outside, Declaration.ofStatement? line)

/-- Reads raw lines, the first of which has the given number: the state after the last one, and what
they declare. -/
def readLines (block : Block) (number : Nat) : List Text → Block × List Declaration
  | [] => (block, [])
  | raw :: rest =>
      let first := block.read number raw
      let later := first.1.readLines (number + 1) rest
      (later.1, first.2.toList ++ later.2)

end Block

/-! ## Diagnostics -/

/-- A condition worth reporting, and the line it is about. -/
structure Diagnostic where
  path : Text
  line : Int
  message : Text
  deriving DecidableEq, Repr

namespace Diagnostic

/-- The block of globals that opens in the given line has no end. -/
def unclosed (path : Text) (openedAt : Nat) : Diagnostic where
  path := path
  line := openedAt
  message := "globals block opened here is not closed by endglobals".toList

/-- The diagnostic as it is shown. -/
def render (d : Diagnostic) : Text :=
  d.path ++ [':'] ++ Text.ofInt d.line ++ ": [recognize] ".toList ++ d.message

end Diagnostic

/-! ## Sources -/

/-- A source text and the path it is reported under. -/
structure Source where
  path : Text
  text : Text
  deriving DecidableEq, Repr

/-- What was recognized, and what was noticed on the way. -/
structure Recognition where
  library : Library := {}
  diagnostics : List Diagnostic := []
  deriving DecidableEq, Repr

namespace Recognition

/-- The recognition of no source. -/
def empty : Recognition := {}

/-- Whether nothing was noticed. -/
def ok (r : Recognition) : Bool :=
  r.diagnostics.isEmpty

/-- The first recognition, then the second. -/
def append (a b : Recognition) : Recognition where
  library := a.library ++ b.library
  diagnostics := a.diagnostics ++ b.diagnostics

instance : Append Recognition := ⟨append⟩

/-- What a source leaves to report when its last line has been read. -/
def leftover (path : Text) : Block → List Diagnostic
  | .outside => []
  | .inside openedAt => [.unclosed path openedAt]

/-- Recognizes one source. A leading byte-order mark is no part of its first line. -/
def ofSource (source : Source) : Recognition :=
  let read := Block.outside.readLines 1 (Text.lines (Text.dropMark source.text))
  ⟨.ofDeclarations read.2, leftover source.path read.1⟩

/-- Recognizes every source on its own and joins the results in order. -/
def ofSources (sources : List Source) : Recognition :=
  (sources.map ofSource).foldr append empty

end Recognition

end JassDecl
