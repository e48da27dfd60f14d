import JassDecl.Text

/-!
# Lines

The normal form of a source line: without carriage returns, without its comment, trimmed, and with
one space for each run of blanks. Only spaces and tabs are blanks; any other white space is an
ordinary character.
-/

namespace JassDecl.Line

/-- Spaces and tabs separate words. -/
def isBlank (c : Char) : Bool :=
  c == ' ' || c == '\t'

/-- Whether the first characters that are not blanks start a comment. -/
def isComment (raw : Text) : Bool :=
  ['/', '/'].isPrefixOf (raw.dropWhile isBlank)

/-- The part before the first `//`. -/
def beforeComment : Text → Text
  | [] => []
  | '/' :: '/' :: _ => []
  | c :: rest => c :: beforeComment rest

/-- The part of a raw line that is read: no carriage returns and no comment. -/
def code (raw : Text) : Text :=
  beforeComment (raw.filter (· != '\r'))

/-- The pieces of a text that stand between blanks. -/
def pieces (t : Text) : List Text :=
  (Text.splitWhere isBlank t).filter (!·.isEmpty)

/-- The normal form of a raw line. -/
def normal (raw : Text) : Text :=
  List.intercalate [' '] (pieces (code raw))

end JassDecl.Line
