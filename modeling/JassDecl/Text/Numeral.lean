import JassDecl.Text.Digit
import JassDecl.Text.Space

/-!
# Numerals

How a person may write an integer: white space around it, a sign, the digits of any script, and
single underscores between digits.
-/

namespace JassDecl.Text.Numeral

/-- The most digits that an integer may have. -/
def maxDigits : Nat := 4300

/-- The ASCII character that a space or digit of another script stands for. -/
def toAscii (c : Char) : Char :=
  if c.toNat < 0x80 then c
  else if isWideSpace c then ' '
  else match decimalDigit? c with
    | some digit => Nat.digitChar digit
    | none => c

/-- The digits of a row of groups of digits, with one underscore between two groups. -/
def digits? (t : Text) : Option Text :=
  let groups := splitOn '_' t
  if groups.all fun group => !group.isEmpty && group.all Char.isDigit then some groups.flatten
  else none

/-- The number that digits with underscores write. -/
def natural? (t : Text) : Option Nat := do
  let digits ← digits? t
  if digits.length ≤ maxDigits then some (Nat.ofDigitChars 10 digits 0) else none

/-- The integer that a text writes. -/
def integer? (t : Text) : Option Int :=
  match trimWhere isAsciiSpace (t.map toAscii) with
  | '+' :: rest => (natural? rest).map Int.ofNat
  | '-' :: rest => (natural? rest).map fun n => -Int.ofNat n
  | unsigned => (natural? unsigned).map Int.ofNat

end JassDecl.Text.Numeral
