/-
UTF-16 and UTF-32: characters spelled in units of two or four bytes in a given byte order. Where the
order is not given, a mark at the head of the bytes says it and is dropped; without a mark the least
significant byte comes first. Places count from the head of the bytes, mark included.
-/
import BinRecord.Text.Decoding

namespace BinRecord.Text

/-- How a byte order is named in the name of a codec. -/
def orderSuffix : ByteOrder → String
  | .big => "be"
  | .little => "le"

/-- Decodes with the codec of the order that a leading mark names; `marks` holds the mark in either
order. -/
def decodeMarked (name : String) (codec : ByteOrder → Codec) (marks : ByteOrder → Bytes)
    (bs : Bytes) : Except Malformed (List Char) :=
  let as (order : ByteOrder) (skipped : Nat) :=
    decodeFrom (name ++ orderSuffix order) (codec order) skipped [] (bs.drop skipped)
  if (marks .little).isPrefixOf bs then as .little (marks .little).length
  else if (marks .big).isPrefixOf bs then as .big (marks .big).length
  else as .little 0

namespace Utf16

/-- The character spelled at the head of the bytes. -/
def codec (order : ByteOrder) : Codec := fun a bs =>
  match bs with
  | [] => .bad 1 "truncated data"
  | b :: rest =>
    let unit := Bytes.toNat order [a, b]
    if unit < 0xd800 || 0xe000 ≤ unit then .char (Char.ofNat unit) 1
    else if 0xdc00 ≤ unit then .bad 2 "illegal encoding"
    else
      match rest with
      | c :: d :: _ =>
        let second := Bytes.toNat order [c, d]
        if 0xdc00 ≤ second && second < 0xe000 then
          .char (Char.ofNat (0x10000 + (unit - 0xd800) * 1024 + (second - 0xdc00))) 3
        else .bad 2 "illegal UTF-16 surrogate"
      | short => .bad (2 + short.length) "unexpected end of data"

/-- The mark that names the order. -/
def mark : ByteOrder → Bytes
  | .little => [0xff, 0xfe]
  | .big => [0xfe, 0xff]

/-- The characters that the bytes spell. -/
def decode : Option ByteOrder → Bytes → Except Malformed (List Char)
  | some order, bs => decodeWith ("utf-16-" ++ orderSuffix order) (codec order) bs
  | none, bs => decodeMarked "utf-16-" codec mark bs

end Utf16

namespace Utf32

/-- The character spelled at the head of the bytes. -/
def codec (order : ByteOrder) : Codec := fun a bs =>
  match bs with
  | b :: c :: d :: _ =>
    let unit := Bytes.toNat order [a, b, c, d]
    if 0xd800 ≤ unit && unit < 0xe000 then
      .bad 4 "code point in surrogate code point range(0xd800, 0xe000)"
    else if 0x110000 ≤ unit then .bad 4 "code point not in range(0x110000)"
    else .char (Char.ofNat unit) 3
  | short => .bad (1 + short.length) "truncated data"

/-- The mark that names the order. -/
def mark : ByteOrder → Bytes
  | .little => [0xff, 0xfe, 0, 0]
  | .big => [0, 0, 0xfe, 0xff]

/-- The characters that the bytes spell. -/
def decode : Option ByteOrder → Bytes → Except Malformed (List Char)
  | some order, bs => decodeWith ("utf-32-" ++ orderSuffix order) (codec order) bs
  | none, bs => decodeMarked "utf-32-" codec mark bs

end Utf32

end BinRecord.Text
