import JassDecl.Text

/-!
# UTF-8

Texts as bytes. Reading is strict: only the shortest form of a code point is a sequence, and none
stands for a surrogate or for a number past the last code point. A fault says where the first bytes
that are no sequence stand and why they are none.
-/

namespace JassDecl

/-- The bytes of a file. -/
abbrev Bytes := List UInt8

namespace Utf8

/-! ## Writing -/

/-- The bytes of a code point. -/
def encodeChar (c : Char) : Bytes :=
  let n := c.toNat
  let last (shift : Nat) : UInt8 := .ofNat (0x80 + n / shift % 0x40)
  if n < 0x80 then [.ofNat n]
  else if n < 0x800 then [.ofNat (0xc0 + n / 0x40), last 1]
  else if n < 0x10000 then [.ofNat (0xe0 + n / 0x1000), last 0x40, last 1]
  else [.ofNat (0xf0 + n / 0x40000), last 0x1000, last 0x40, last 1]

/-- The bytes of a text. -/
def encode (t : Text) : Bytes :=
  t.flatMap encodeChar

/-! ## Reading -/

/-- What is wrong with a sequence. -/
inductive Reason where
  | invalidStart
  | unexpectedEnd
  | invalidContinuation
  deriving DecidableEq, Repr

/-- The first bytes that are no sequence: their offset, the first of them, their number, and what is
wrong. -/
structure Fault where
  offset : Nat
  lead : UInt8
  length : Nat
  reason : Reason
  deriving DecidableEq, Repr

/-- The least and the greatest byte that may stand in a place. -/
structure Range where
  least : Nat
  greatest : Nat

namespace Range

/-- Whether a byte lies in the range. -/
def has (r : Range) (byte : UInt8) : Bool :=
  r.least ≤ byte.toNat && byte.toNat ≤ r.greatest

/-- The bytes that go on with a sequence. -/
def following : Range := ⟨0x80, 0xbf⟩

end Range

/-- What the first byte of a sequence says: its part of the code point, and the bytes to follow. -/
structure Lead where
  bits : Nat
  following : List Range

/-- How a sequence of several bytes starts. The second byte of some is bounded more closely, which
leaves out the longer forms of a code point, the surrogates, and numbers past the last code
point. -/
def Lead.ofByte? (byte : UInt8) : Option Lead :=
  let b := byte.toNat
  if b < 0xc2 then none
  else if b < 0xe0 then some ⟨b - 0xc0, [.following]⟩
  else if b = 0xe0 then some ⟨0, [⟨0xa0, 0xbf⟩, .following]⟩
  else if b = 0xed then some ⟨0xd, [⟨0x80, 0x9f⟩, .following]⟩
  else if b < 0xf0 then some ⟨b - 0xe0, [.following, .following]⟩
  else if b = 0xf0 then some ⟨0, [⟨0x90, 0xbf⟩, .following, .following]⟩
  else if b < 0xf4 then some ⟨b - 0xf0, [.following, .following, .following]⟩
  else if b = 0xf4 then some ⟨4, [⟨0x80, 0x8f⟩, .following, .following]⟩
  else none

/-- Reads the bytes that follow a first byte: the code point, or what is wrong after how many of
them. -/
def follow (bits : Nat) : List Range → Bytes → Except (Nat × Reason) Nat
  | [], _ => .ok bits
  | _ :: _, [] => .error (0, .unexpectedEnd)
  | range :: ranges, byte :: bytes =>
      if range.has byte then
        match follow (bits * 0x40 + (byte.toNat - 0x80)) ranges bytes with
        | .ok code => .ok code
        | .error (read, reason) => .error (read + 1, reason)
      else .error (0, .invalidContinuation)

/-- Reads bytes, the first of which has the given offset. -/
def decodeFrom (offset : Nat) : Bytes → Except Fault Text
  | [] => .ok []
  | byte :: bytes =>
      if byte.toNat < 0x80 then
        (decodeFrom (offset + 1) bytes).map (Char.ofNat byte.toNat :: ·)
      else
        match Lead.ofByte? byte with
        | none => .error ⟨offset, byte, 1, .invalidStart⟩
        | some lead =>
            match follow lead.bits lead.following bytes with
            | .error (read, reason) => .error ⟨offset, byte, read + 1, reason⟩
            | .ok code =>
                let read := lead.following.length
                (decodeFrom (offset + read + 1) (bytes.drop read)).map (Char.ofNat code :: ·)
termination_by bytes => bytes.length

/-- Reads the bytes of a text. -/
def decode (bytes : Bytes) : Except Fault Text :=
  decodeFrom 0 bytes

/-! ## Faults in words -/

namespace Reason

/-- The reason in words. -/
def message : Reason → Text
  | .invalidStart => "invalid start byte".toList
  | .unexpectedEnd => "unexpected end of data".toList
  | .invalidContinuation => "invalid continuation byte".toList

end Reason

namespace Fault

/-- The fault in words. A fault of one byte names the byte; a longer one gives its first and last
offset. -/
def message (fault : Fault) : Text :=
  let place :=
    if fault.length = 1 then
      "byte 0x".toList ++ Text.hex 2 fault.lead.toNat ++ " in position ".toList ++
        Text.ofNat fault.offset
    else
      "bytes in position ".toList ++ Text.ofNat fault.offset ++ ['-'] ++
        Text.ofNat (fault.offset + fault.length - 1)
  "'utf-8' codec can't decode ".toList ++ place ++ ": ".toList ++ fault.reason.message

end Fault

end Utf8

end JassDecl
