/-
UTF-8. The second byte of a sequence is restricted after the leads E0, ED, F0 and F4, so that no
character has two spellings, no surrogate is spelled and no number is too large. An ill-formed place
ends before the first byte that cannot continue the sequence.
-/
import BinRecord.Text.Decoding

namespace BinRecord.Text.Utf8

/-- Whether a byte continues a sequence. -/
def isTail (b : UInt8) : Bool := 0x80 ≤ b && b ≤ 0xbf

/-- Whether a byte may stand second after the given lead. -/
def isSecond (lead b : UInt8) : Bool :=
  isTail b &&
    (if lead = 0xe0 then 0xa0 ≤ b
    else if lead = 0xed then b < 0xa0
    else if lead = 0xf0 then 0x90 ≤ b
    else if lead = 0xf4 then b < 0x90
    else true)

/-- The six low bits that a continuing byte carries. -/
def low (b : UInt8) : Nat := b.toNat % 64

/-- What the messages say of a byte that cannot start a character. -/
def invalidStart : String := "invalid start byte"

/-- What the messages say of a byte that cannot continue a character. -/
def invalidContinuation : String := "invalid continuation byte"

/-- What the messages say of a character cut short by the end of the bytes. -/
def unexpectedEnd : String := "unexpected end of data"

/-- The character spelled at the head of the bytes. -/
def codec : Codec := fun lead bs =>
  let n := lead.toNat
  if lead < 0x80 then .char (Char.ofNat n) 0
  else if lead < 0xc2 then .bad 1 invalidStart
  else if lead < 0xe0 then
    match bs with
    | [] => .bad 1 unexpectedEnd
    | b :: _ =>
      if isTail b then .char (Char.ofNat (n % 32 * 64 + low b)) 1 else .bad 1 invalidContinuation
  else if lead < 0xf0 then
    match bs with
    | [] => .bad 1 unexpectedEnd
    | [b] => if isSecond lead b then .bad 2 unexpectedEnd else .bad 1 invalidContinuation
    | b :: c :: _ =>
      if !isSecond lead b then .bad 1 invalidContinuation
      else if !isTail c then .bad 2 invalidContinuation
      else .char (Char.ofNat ((n % 16 * 64 + low b) * 64 + low c)) 2
  else if lead < 0xf5 then
    match bs with
    | [] => .bad 1 unexpectedEnd
    | [b] => if isSecond lead b then .bad 2 unexpectedEnd else .bad 1 invalidContinuation
    | [b, c] =>
      if !isSecond lead b then .bad 1 invalidContinuation
      else if isTail c then .bad 3 unexpectedEnd
      else .bad 2 invalidContinuation
    | b :: c :: d :: _ =>
      if !isSecond lead b then .bad 1 invalidContinuation
      else if !isTail c then .bad 2 invalidContinuation
      else if !isTail d then .bad 3 invalidContinuation
      else .char (Char.ofNat (((n % 8 * 64 + low b) * 64 + low c) * 64 + low d)) 3
  else .bad 1 invalidStart

/-- The characters that the bytes spell. -/
def decode (bs : Bytes) : Except Malformed (List Char) := decodeWith "utf-8" codec bs

/-- The mark that may open a signed text: the character U+FEFF. -/
def signature : Bytes := [0xef, 0xbb, 0xbf]

/-- The characters that the bytes spell, after the mark if there is one. Places are counted from the
end of the mark. -/
def decodeSigned (bs : Bytes) : Except Malformed (List Char) :=
  decode (if signature.isPrefixOf bs then bs.drop signature.length else bs)

/-- The bytes that spell a character. -/
def encodeChar (c : Char) : Bytes :=
  let n := c.toNat
  if n < 0x80 then [n.toUInt8]
  else if n < 0x800 then [(0xc0 + n / 64).toUInt8, (0x80 + n % 64).toUInt8]
  else if n < 0x10000 then
    [(0xe0 + n / 4096).toUInt8, (0x80 + n / 64 % 64).toUInt8, (0x80 + n % 64).toUInt8]
  else
    [(0xf0 + n / 262144).toUInt8, (0x80 + n / 4096 % 64).toUInt8, (0x80 + n / 64 % 64).toUInt8,
      (0x80 + n % 64).toUInt8]

/-- The bytes that spell a text. -/
def encode (cs : List Char) : Bytes := cs.flatMap encodeChar

end BinRecord.Text.Utf8
