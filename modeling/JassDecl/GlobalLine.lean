import JassDecl.Declaration
import JassDecl.Keyword
import JassDecl.Token

/-!
# Lines of a block of globals

A line `[constant] TYPE [array] NAME [= VALUE]` inside a block declares a global. The value is the
text after the first `=`, whatever it is.
-/

namespace JassDecl.GlobalDecl

/-- The text in normal form after the first `=`, unless there is none or it is empty. -/
def initializer? (line : Text) (tokens : List Token) : Option Text :=
  match tokens.find? (Token.isOperator '=') with
  | none => none
  | some equals => Text.nonempty? (Line.normal (line.drop equals.stop))

/-- The global that a line in normal form declares inside a block. -/
def ofLine? (line : Text) : Option GlobalDecl :=
  let tokens := Token.scan line
  let constant := tokens.head?.any (·.text = Keyword.constant)
  let rest := if constant then tokens.drop 1 else tokens
  let head := rest.takeWhile (!·.isOperator '=')
  if head.all Token.isWord then
    match head.map Token.text with
    | [type, marker, name] =>
        if marker = Keyword.array then some ⟨constant, type, true, name, initializer? line rest⟩
        else none
    | [type, name] => some ⟨constant, type, false, name, initializer? line rest⟩
    | _ => none
  else none

end JassDecl.GlobalDecl
