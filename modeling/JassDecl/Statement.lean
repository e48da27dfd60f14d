import JassDecl.Prototype

/-!
# Statements

The lines outside a block of globals that declare something: types, natives and functions. Every
other line, such as code, declares nothing and is no error.
-/

namespace JassDecl.Declaration

/-- Whether the token is a word that may stand before a declaration without changing it. -/
def isModifier (t : Token) : Bool :=
  t.isWord && Keyword.modifiers.contains t.text

/-- The declaration that a line in normal form makes outside a block of globals. After the modifiers
come at least four tokens, the first three of them words:

* `type NAME extends PARENT`, where the parent is a word,
* `native NAME takes …`,
* `function NAME takes …`. -/
def ofStatement? (line : Text) : Option Declaration :=
  match (Token.scan line).dropWhile isModifier with
  | sort :: name :: link :: next :: later =>
      if sort.isWord && name.isWord && link.isWord then
        if sort.text = Keyword.type then
          if link.text = Keyword.extending && next.isWord then some (.type ⟨name.text, next.text⟩)
          else none
        else if link.text = Keyword.takes then
          let prototype := Prototype.ofClauses line name.text link (next :: later)
          if sort.text = Keyword.native then some (.native prototype)
          else if sort.text = Keyword.function then some (.function prototype)
          else none
        else none
      else none
  | _ => none

end JassDecl.Declaration
