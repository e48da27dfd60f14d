/-!
# Texts

A text is a list of code points, so its length and every column in it count code points.
-/

namespace JassDecl

/-- A text, one code point at a time. -/
abbrev Text := List Char

namespace Text

/-! ## Cutting and joining -/

/-- The pieces between the characters that `p` marks, empty pieces included. There is one piece
more than there are marks. -/
def splitWhere (p : Char → Bool) : Text → List Text
  | [] => [[]]
  | c :: rest =>
      if p c then [] :: splitWhere p rest
      else (splitWhere p rest).modifyHead (c :: ·)

/-- The pieces between the occurrences of one character. -/
def splitOn (mark : Char) (t : Text) : List Text :=
  splitWhere (· == mark) t

/-- The lines of a text: what stands between its line feeds. A text without one is one line. -/
def lines (t : Text) : List Text :=
  splitOn '\n' t

/-- The lines in order, each ended by a line feed. -/
def unlines (ls : List Text) : Text :=
  ls.flatMap (· ++ ['\n'])

/-- The characters at the columns from `start` up to, but not including, `stop`. -/
def slice (start stop : Nat) (t : Text) : Text :=
  (t.take stop).drop start

/-- The text without the characters at its two ends that `p` marks. -/
def trimWhere (p : Char → Bool) (t : Text) : Text :=
  ((t.dropWhile p).reverse.dropWhile p).reverse

/-- The text without the spaces at its two ends. -/
def trim (t : Text) : Text :=
  trimWhere (· == ' ') t

/-- Whether `part` stands anywhere in the text. -/
def hasPart (part : Text) : Text → Bool
  | [] => part.isEmpty
  | c :: rest => part.isPrefixOf (c :: rest) || hasPart part rest

/-- Nothing for the empty text. -/
def nonempty? (t : Text) : Option Text :=
  if t.isEmpty then none else some t

/-- Whether the first text comes before the second or is equal to it, in the order of their code
points. -/
def precedes : Text → Text → Bool
  | [], _ => true
  | _ :: _, [] => false
  | a :: as, b :: bs => a < b || (a == b && precedes as bs)

/-! ## Marks of encodings and platforms -/

/-- The text without one leading byte-order mark. -/
def dropMark : Text → Text
  | '\uFEFF' :: rest => rest
  | t => t

/-- Each carriage return and line feed in a row, and each lone carriage return, as one line feed. -/
def unifyNewlines : Text → Text
  | [] => []
  | '\r' :: '\n' :: rest => '\n' :: unifyNewlines rest
  | '\r' :: rest => '\n' :: unifyNewlines rest
  | c :: rest => c :: unifyNewlines rest

/-! ## Numbers -/

/-- A natural number in decimal. -/
def ofNat (n : Nat) : Text :=
  Nat.toDigits 10 n

/-- An integer in decimal, with a minus sign when it is negative. -/
def ofInt : Int → Text
  | .ofNat n => ofNat n
  | .negSucc n => '-' :: ofNat (n + 1)

/-- The last `width` hexadecimal digits of a number, in lowercase. -/
def hex : Nat → Nat → Text
  | 0, _ => []
  | width + 1, n => hex width (n / 16) ++ [Nat.digitChar (n % 16)]

/-- The value of a hexadecimal digit of either case. -/
def hexDigit? (c : Char) : Option Nat :=
  if '0' ≤ c && c ≤ '9' then some (c.toNat - '0'.toNat)
  else if 'a' ≤ c && c ≤ 'f' then some (c.toNat - 'a'.toNat + 10)
  else if 'A' ≤ c && c ≤ 'F' then some (c.toNat - 'A'.toNat + 10)
  else none

end Text

end JassDecl
