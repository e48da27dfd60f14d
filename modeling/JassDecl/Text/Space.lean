import JassDecl.Text

/-! # White space -/

namespace JassDecl.Text

/-- White space of ASCII: tabs, line ends and the space. -/
def isAsciiSpace (c : Char) : Bool :=
  (0x09 ≤ c.toNat && c.toNat ≤ 0x0d) || c == ' '

/-- White space past ASCII. -/
def isWideSpace (c : Char) : Bool :=
  let n := c.toNat
  (0x2000 ≤ n && n ≤ 0x200a) ||
    [0x85, 0xa0, 0x1680, 0x2028, 0x2029, 0x202f, 0x205f, 0x3000].contains n

end JassDecl.Text
