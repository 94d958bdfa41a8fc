/-
Encodings in which every byte is one character. ASCII knows the lower half of the bytes; ISO 8859-1
gives each byte the character of its number; ISO 8859-15 and Windows-1252 give some bytes of the
upper half another character, and Windows-1252 leaves five without one.
-/
import BinRecord.Text.Decoding

namespace BinRecord.Text

namespace Ascii

/-- Bytes below 128 are characters. -/
def codec : Codec := fun b _ =>
  if b < 0x80 then .char (Char.ofNat b.toNat) 0 else .bad 1 "ordinal not in range(128)"

/-- The characters that the bytes spell. -/
def decode (bs : Bytes) : Except Malformed (List Char) := decodeWith "ascii" codec bs

end Ascii

namespace Latin1

/-- Each byte is the character of its number. -/
def decode (bs : Bytes) : List Char := bs.map fun b => Char.ofNat b.toNat

end Latin1

/-- A codec in which `char?` gives the character of each byte. -/
def tableCodec (char? : UInt8 → Option Char) : Codec := fun b _ =>
  match char? b with
  | some c => .char c 0
  | none => .bad 1 "character maps to <undefined>"

namespace Latin9

/-- The bytes that differ from ISO 8859-1. -/
def changes : List (UInt8 × Char) :=
  [(0xa4, '€'), (0xa6, 'Š'), (0xa8, 'š'), (0xb4, 'Ž'), (0xb8, 'ž'), (0xbc, 'Œ'), (0xbd, 'œ'),
    (0xbe, 'Ÿ')]

/-- The character of a byte. -/
def char? (b : UInt8) : Option Char := some ((changes.lookup b).getD (Char.ofNat b.toNat))

/-- The characters that the bytes spell. -/
def decode (bs : Bytes) : Except Malformed (List Char) :=
  decodeWith "charmap" (tableCodec char?) bs

end Latin9

namespace Windows1252

/-- The characters of the bytes from 128 to 159. -/
def upper : List (Option Char) :=
  [some '€', none, some '‚', some 'ƒ', some '„', some '…', some '†', some '‡', some 'ˆ', some '‰',
    some 'Š', some '‹', some 'Œ', none, some 'Ž', none, none, some '‘', some '’', some '“',
    some '”', some '•', some '–', some '—', some '˜', some '™', some 'š', some '›', some 'œ', none,
    some 'ž', some 'Ÿ']

/-- The character of a byte. -/
def char? (b : UInt8) : Option Char :=
  if 0x80 ≤ b && b < 0xa0 then (upper[b.toNat - 0x80]?).join else some (Char.ofNat b.toNat)

/-- The characters that the bytes spell. -/
def decode (bs : Bytes) : Except Malformed (List Char) :=
  decodeWith "charmap" (tableCodec char?) bs

end Windows1252

end BinRecord.Text
