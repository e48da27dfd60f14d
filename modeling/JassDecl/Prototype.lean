import JassDecl.Declaration
import JassDecl.Keyword
import JassDecl.Token

/-!
# Prototypes

The clauses of a native or function are cut from the text of its line: what stands between `takes`
and `returns` lists the parameters, and what follows `returns` is the return type.
-/

namespace JassDecl

namespace Argument

/-- A parameter from the text between two commas: its first word is the type and its second the
name. Either is empty when it is missing. -/
def ofPiece (piece : Text) : Argument :=
  let parts := Text.splitOn ' ' (Text.trim piece)
  ⟨parts.headD [], (parts[1]?).getD []⟩

/-- The parameters that a clause in normal form lists. -/
def ofClause (clause : Text) : List Argument :=
  if clause = Keyword.nothing then [] else (Text.splitOn ',' clause).map ofPiece

end Argument

namespace Prototype

/-- The prototype `name`, whose parameters start after the token `takes` of the line. `later` are
the tokens after it; the first word `returns` among them ends the parameters. -/
def ofClauses (line name : Text) (takes : Token) (later : List Token) : Prototype :=
  match later.find? (Token.isKeyword Keyword.returns) with
  | none => ⟨name, Argument.ofClause (Line.normal (line.drop takes.stop)), []⟩
  | some returns =>
      ⟨name, Argument.ofClause (Line.normal (Text.slice takes.stop returns.start line)),
        Line.normal (line.drop returns.stop)⟩

end Prototype

end JassDecl
