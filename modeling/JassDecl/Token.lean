import JassDecl.Line

/-!
# Tokens

A line is a row of words and operators. A word is a longest run of ASCII letters, digits and
underscores; any other character that is not a blank is an operator of its own.
-/

namespace JassDecl

/-- The two sorts of tokens. -/
inductive TokenKind where
  | word
  | operator
  deriving DecidableEq, Repr

/-- A token and the column of its first character. -/
structure Token where
  kind : TokenKind
  text : Text
  start : Nat
  deriving DecidableEq, Repr

namespace Token

/-- The column after the last character. -/
def stop (t : Token) : Nat :=
  t.start + t.text.length

/-- Whether the token is a word. -/
def isWord (t : Token) : Bool :=
  t.kind == .word

/-- Whether the token is the whole word `keyword`. -/
def isKeyword (keyword : Text) (t : Token) : Bool :=
  t.isWord && t.text == keyword

/-- Whether the token is the operator `c`. -/
def isOperator (c : Char) (t : Token) : Bool :=
  t.kind == .operator && t.text == [c]

/-! ## Scanning -/

/-- The characters of words. -/
def isWordChar (c : Char) : Bool :=
  ('a' ≤ c && c ≤ 'z') || ('A' ≤ c && c ≤ 'Z') || ('0' ≤ c && c ≤ '9') || c == '_'

/-- Puts a word character in front of the tokens of the columns after it: it lengthens a word that
starts in the next column, and is a word of its own otherwise. -/
def consWordChar (c : Char) (column : Nat) : List Token → List Token
  | ⟨.word, text, start⟩ :: later =>
      if start = column + 1 then ⟨.word, c :: text, column⟩ :: later
      else ⟨.word, [c], column⟩ :: ⟨.word, text, start⟩ :: later
  | later => ⟨.word, [c], column⟩ :: later

/-- The tokens of a text whose first character stands in the given column. -/
def scanFrom (column : Nat) : Text → List Token
  | [] => []
  | c :: rest =>
      let later := scanFrom (column + 1) rest
      if Line.isBlank c then later
      else if isWordChar c then consWordChar c column later
      else ⟨.operator, [c], column⟩ :: later

/-- The tokens of a line. -/
def scan (line : Text) : List Token :=
  scanFrom 0 line

/-! ## Keywords -/

/-- Whether some token is the word `keyword`. -/
def hasKeyword (keyword : Text) (tokens : List Token) : Bool :=
  tokens.any (isKeyword keyword)

/-- The first position from `start` on whose token is the word `keyword`. -/
def findKeyword? (keyword : Text) (start : Nat) (tokens : List Token) : Option Nat :=
  ((tokens.drop start).findIdx? (isKeyword keyword)).map (· + start)

end Token

end JassDecl
