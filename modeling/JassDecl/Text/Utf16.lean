import JassDecl.Text

/-!
# UTF-16

Texts as code units, numbers below 2 ^ 16. A code point past them is a pair of surrogates.
-/

namespace JassDecl.Utf16

/-- The units of a code point. -/
def encodeChar (c : Char) : List Nat :=
  let n := c.toNat
  if n < 0x10000 then [n]
  else [0xd800 + (n - 0x10000) / 0x400, 0xdc00 + (n - 0x10000) % 0x400]

/-- The units of a text. -/
def encode (t : Text) : List Nat :=
  t.flatMap encodeChar

/-- The first half of a pair. -/
def isHigh (unit : Nat) : Bool :=
  0xd800 ≤ unit && unit < 0xdc00

/-- The second half of a pair. -/
def isLow (unit : Nat) : Bool :=
  0xdc00 ≤ unit && unit < 0xe000

/-- The code point of a unit on its own. Half a pair stands for no code point and is replaced. -/
def single (unit : Nat) : Char :=
  if isHigh unit || isLow unit then '\uFFFD' else Char.ofNat unit

/-- The code point of a pair. -/
def pair (high low : Nat) : Char :=
  Char.ofNat (0x10000 + (high - 0xd800) * 0x400 + (low - 0xdc00))

/-- The text of units. -/
def decode : List Nat → Text
  | [] => []
  | [unit] => [single unit]
  | unit :: next :: rest =>
      if isHigh unit && isLow next then pair unit next :: decode rest
      else single unit :: decode (next :: rest)

end JassDecl.Utf16
