import JassDecl.Json.Fault
import JassDecl.Json.Value
import JassDecl.Text.Utf16

/-!
# Lexemes of JSON

A JSON text is a row of brackets, separators, strings, numbers and literals, with blanks between
them. A string or number that breaks a rule is a lexeme too and carries its fault: whether the fault
counts depends on whether a value may stand there.
-/

namespace JassDecl.Json

/-! ## Strings -/

/-- The four digits of a hexadecimal number. -/
def hexUnit? (a b c d : Char) : Option Nat := do
  let a ← Text.hexDigit? a
  let b ← Text.hexDigit? b
  let c ← Text.hexDigit? c
  let d ← Text.hexDigit? d
  return ((a * 16 + b) * 16 + c) * 16 + d

/-- The character that a backslash and one more character stand for. -/
def shortEscape? : Char → Option Char
  | '"' => some '"'
  | '\\' => some '\\'
  | '/' => some '/'
  | 'b' => some '\x08'
  | 'f' => some '\x0c'
  | 'n' => some '\n'
  | 'r' => some '\r'
  | 't' => some '\t'
  | _ => none

/-- Puts units that took `count` characters in front of those of the rest of a string. -/
def prepend (units : List Nat) (count : Nat) (rest : Except Fault (List Nat × Nat)) :
    Except Fault (List Nat × Nat) :=
  rest.map fun read => (units ++ read.1, count + read.2)

/-- Reads the units of a string up to its closing quote. The string opened at `opened`, and the text
to read starts at `offset`. The second result is the number of characters read, the closing quote
included.

A `\u` escape needs a character after its four digits. -/
def readString (opened : Nat) (offset : Nat) : Text → Except Fault (List Nat × Nat)
  | [] => .error (.problem .unterminatedString opened)
  | '"' :: _ => .ok ([], 1)
  | ['\\'] => .error (.problem .unterminatedString opened)
  | '\\' :: 'u' :: rest =>
      match rest with
      | a :: b :: c :: d :: next :: rest =>
          match hexUnit? a b c d with
          | some unit => prepend [unit] 6 (readString opened (offset + 6) (next :: rest))
          | none => .error (.problem .invalidUnicodeEscape (offset + 1))
      | _ => .error (.problem .invalidUnicodeEscape (offset + 1))
  | '\\' :: c :: rest =>
      match shortEscape? c with
      | some c => prepend (Utf16.encodeChar c) 2 (readString opened (offset + 2) rest)
      | none => .error (.problem .invalidEscape offset)
  | c :: rest =>
      if c.toNat < 0x20 then .error (.problem .controlCharacter offset)
      else prepend (Utf16.encodeChar c) 1 (readString opened (offset + 1) rest)

/-! ## Numbers -/

/-- A number as it is written. Each part holds its own marks and is empty when it is missing. -/
structure Number where
  sign : Text
  whole : Text
  fraction : Text
  exponent : Text
  deriving DecidableEq, Repr

namespace Number

/-- The text of the number. -/
def lexeme (n : Number) : Text :=
  n.sign ++ n.whole ++ n.fraction ++ n.exponent

/-- Whether the number has neither a fraction nor an exponent. -/
def isInteger (n : Number) : Bool :=
  n.fraction.isEmpty && n.exponent.isEmpty

/-- The digits before the point: a zero alone, or digits that start with another one. -/
def readWhole : Text → Text
  | '0' :: _ => ['0']
  | t => t.takeWhile Char.isDigit

/-- A point and at least one digit. -/
def readFraction : Text → Text
  | '.' :: rest =>
      let digits := rest.takeWhile Char.isDigit
      if digits.isEmpty then [] else '.' :: digits
  | _ => []

/-- An optional sign. -/
def readSign : Text → Text
  | '+' :: _ => ['+']
  | '-' :: _ => ['-']
  | _ => []

/-- A letter `e`, an optional sign and at least one digit. -/
def readExponent : Text → Text
  | [] => []
  | mark :: rest =>
      let sign := readSign rest
      let digits := (rest.drop sign.length).takeWhile Char.isDigit
      if (mark = 'e' ∨ mark = 'E') ∧ digits ≠ [] then mark :: sign ++ digits else []

/-- The longest number at the start of a text. -/
def read? (t : Text) : Option Number :=
  let sign := if t.head? = some '-' then ['-'] else []
  let unsigned := t.drop sign.length
  let whole := readWhole unsigned
  let afterWhole := unsigned.drop whole.length
  let fraction := readFraction afterWhole
  let exponent := readExponent (afterWhole.drop fraction.length)
  if whole.isEmpty then none else some ⟨sign, whole, fraction, exponent⟩

/-- The number as a value, unless it is an integer with too many digits. -/
def value (n : Number) : Except Fault Value :=
  if n.isInteger ∧ Text.Numeral.maxDigits < n.whole.length then .error (.longInteger n.whole.length)
  else .ok (.number n.lexeme)

end Number

/-! ## Lexemes -/

/-- What a lexeme is. `other` is a character that starts none. -/
inductive Token where
  | openArray
  | closeArray
  | openObject
  | closeObject
  | colon
  | comma
  | string (content : Except Fault Text)
  | literal (value : Except Fault Value)
  | other

/-- A token and the offset of its first character. -/
structure Lexeme where
  offset : Nat
  token : Token

/-- White space between lexemes. -/
def isSpace (c : Char) : Bool :=
  c == ' ' || c == '\t' || c == '\n' || c == '\r'

/-- The values that are written as words. -/
def words : List (Text × Value) :=
  [("null".toList, .null), ("true".toList, .bool true), ("false".toList, .bool false),
    ("NaN".toList, .number "NaN".toList), ("Infinity".toList, .number "Infinity".toList),
    ("-Infinity".toList, .number "-Infinity".toList)]

/-- The word at the start of a text: its value and its length. -/
def readWord? (t : Text) : Option (Value × Nat) :=
  words.findSome? fun (word, value) =>
    if word.isPrefixOf t then some (value, word.length) else none

/-- The bracket or separator that a character is. -/
def mark? : Char → Option Token
  | '[' => some .openArray
  | ']' => some .closeArray
  | '{' => some .openObject
  | '}' => some .closeObject
  | ':' => some .colon
  | ',' => some .comma
  | _ => none

/-- The token of the character `c` at an offset and of the text after it, with the number of
characters that it has besides the first. -/
def readToken (offset : Nat) (c : Char) (rest : Text) : Token × Nat :=
  match mark? c with
  | some token => (token, 0)
  | none =>
      if c = '"' then
        match readString offset (offset + 1) rest with
        | .ok (units, count) => (.string (.ok (Utf16.decode units)), count)
        | .error fault => (.string (.error fault), rest.length)
      else
        match readWord? (c :: rest) with
        | some (value, length) => (.literal (.ok value), length - 1)
        | none =>
            match Number.read? (c :: rest) with
            | some number => (.literal number.value, number.lexeme.length - 1)
            | none => (.other, 0)

/-- The lexemes of a text whose first character has the given offset. -/
def lexFrom (offset : Nat) : Text → List Lexeme
  | [] => []
  | c :: rest =>
      if isSpace c then lexFrom (offset + 1) rest
      else
        let read := readToken offset c rest
        ⟨offset, read.1⟩ :: lexFrom (offset + read.2 + 1) (rest.drop read.2)
termination_by t => t.length

/-- The lexemes of a text. -/
def lex (text : Text) : List Lexeme :=
  lexFrom 0 text

end JassDecl.Json
