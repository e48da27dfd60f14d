import JassDecl.Text.Numeral

/-!
# Faults of JSON texts
-/

namespace JassDecl.Json

/-- What a text that is no JSON lacks, or holds against the rules. -/
inductive Problem where
  | unexpectedMark
  | expectingValue
  | expectingName
  | expectingColon
  | expectingComma
  | unterminatedString
  | controlCharacter
  | invalidEscape
  | invalidUnicodeEscape
  | extraData
  deriving DecidableEq, Repr

/-- Why a text has no value: a problem at an offset, or an integer with too many digits. -/
inductive Fault where
  | problem (what : Problem) (offset : Nat)
  | longInteger (digits : Nat)
  deriving DecidableEq, Repr

namespace Problem

/-- The problem in words. -/
def message : Problem → Text
  | .unexpectedMark => "Unexpected UTF-8 BOM (decode using utf-8-sig)".toList
  | .expectingValue => "Expecting value".toList
  | .expectingName => "Expecting property name enclosed in double quotes".toList
  | .expectingColon => "Expecting ':' delimiter".toList
  | .expectingComma => "Expecting ',' delimiter".toList
  | .unterminatedString => "Unterminated string starting at".toList
  | .controlCharacter => "Invalid control character at".toList
  | .invalidEscape => "Invalid \\escape".toList
  | .invalidUnicodeEscape => "Invalid \\uXXXX escape".toList
  | .extraData => "Extra data".toList

end Problem

/-- A position in a text: its line and its column, both counted from one. -/
structure Position where
  line : Nat
  column : Nat
  deriving DecidableEq, Repr

namespace Position

/-- The position of an offset in a text. -/
def ofOffset (text : Text) (offset : Nat) : Position :=
  let before := Text.lines (text.take offset)
  ⟨before.length, (before.getLastD []).length + 1⟩

/-- The position in words. -/
def render (p : Position) : Text :=
  "line ".toList ++ Text.ofNat p.line ++ " column ".toList ++ Text.ofNat p.column

end Position

namespace Fault

/-- The fault of a text in words. -/
def message (text : Text) : Fault → Text
  | .problem what offset =>
      what.message ++ ": ".toList ++ (Position.ofOffset text offset).render ++ " (char ".toList ++
        Text.ofNat offset ++ [')']
  | .longInteger digits =>
      "Exceeds the limit (".toList ++ Text.ofNat Text.Numeral.maxDigits ++
        " digits) for integer string conversion: value has ".toList ++ Text.ofNat digits ++
        " digits; use sys.set_int_max_str_digits() to increase the limit".toList

end Fault

end JassDecl.Json
