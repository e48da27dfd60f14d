import JassDecl.Token

/-!
# Tokens on display

How a token is shown to a person: its kind, its quoted text and its column.
-/

namespace JassDecl

namespace TokenKind

/-- The name of the kind. -/
def name : TokenKind → Text
  | .word => "WORD".toList
  | .operator => "OP".toList

end TokenKind

namespace Token

/-- One character of a quoted text. -/
def escape (c : Char) : Text :=
  match c with
  | '\\' => ['\\', '\\']
  | '\n' => ['\\', 'n']
  | '\r' => ['\\', 'r']
  | '\t' => ['\\', 't']
  | c =>
      if c.toNat < 0x20 || c.toNat = 0x7f then ['\\', 'x'] ++ Text.hex 2 c.toNat
      else [c]

/-- A text in single quotes, or in double quotes when it holds a single quote. -/
def quote (t : Text) : Text :=
  let mark := if '\'' ∈ t then '"' else '\''
  mark :: t.flatMap escape ++ [mark]

/-- The token as it is shown. -/
def display (t : Token) : Text :=
  "Token(".toList ++ t.kind.name ++ ", ".toList ++ quote t.text ++ ", ".toList ++
    Text.ofNat t.start ++ [')']

end Token

end JassDecl
