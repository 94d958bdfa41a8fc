/-
A small set of codecs: ASCII, two of the ISO 8859 family, Windows-1252 and those of Unicode, under
their usual spellings, and an encoding that is known but in which no bytes are text.
-/
import BinRecord.Text.Encoding
import BinRecord.Text.SingleByte
import BinRecord.Text.Utf8
import BinRecord.Text.Wide

namespace BinRecord

/-- An encoding in which ill-formed bytes are the only failure. The two wide ones may leave the byte
order to the text itself. -/
inductive StandardEncoding where
  | ascii
  | utf8
  | utf8Signed
  | latin1
  | latin9
  | windows1252
  | utf16 (order : Option ByteOrder)
  | utf32 (order : Option ByteOrder)
  deriving DecidableEq, Repr

namespace StandardEncoding

/-- All of them. -/
def all : List StandardEncoding :=
  [ascii, utf8, utf8Signed, latin1, latin9, windows1252, utf16 none, utf16 (some .little),
    utf16 (some .big), utf32 none, utf32 (some .little), utf32 (some .big)]

/-- The name under which an encoding is shown. -/
def name : StandardEncoding → String
  | ascii => "ascii"
  | utf8 => "utf-8"
  | utf8Signed => "utf-8-sig"
  | latin1 => "iso8859-1"
  | latin9 => "iso8859-15"
  | windows1252 => "cp1252"
  | utf16 none => "utf-16"
  | utf16 (some .little) => "utf-16-le"
  | utf16 (some .big) => "utf-16-be"
  | utf32 none => "utf-32"
  | utf32 (some .little) => "utf-32-le"
  | utf32 (some .big) => "utf-32-be"

/-- The characters that the bytes spell. -/
def decode : StandardEncoding → Bytes → Except Text.Malformed (List Char)
  | ascii, bs => Text.Ascii.decode bs
  | utf8, bs => Text.Utf8.decode bs
  | utf8Signed, bs => Text.Utf8.decodeSigned bs
  | latin1, bs => .ok (Text.Latin1.decode bs)
  | latin9, bs => Text.Latin9.decode bs
  | windows1252, bs => Text.Windows1252.decode bs
  | utf16 order, bs => Text.Utf16.decode order bs
  | utf32 order, bs => Text.Utf32.decode order bs

/-- The encoding that is shown under a name. -/
def ofName? (s : String) : Option StandardEncoding := all.find? (·.name = s)

/-- The spellings of each encoding. -/
def spellings : List (String × StandardEncoding) :=
  [("ascii", ascii), ("us_ascii", ascii), ("646", ascii), ("ansi_x3.4_1968", ascii),
    ("ansi_x3_4_1968", ascii), ("ansi_x3.4_1986", ascii), ("cp367", ascii), ("csascii", ascii),
    ("ibm367", ascii), ("iso646_us", ascii), ("iso_646.irv_1991", ascii), ("iso_ir_6", ascii),
    ("us", ascii),
    ("utf_8", utf8), ("utf8", utf8), ("u8", utf8), ("utf", utf8), ("utf8_ucs2", utf8),
    ("utf8_ucs4", utf8), ("cp65001", utf8),
    ("utf_8_sig", utf8Signed),
    ("latin_1", latin1), ("latin1", latin1), ("latin", latin1), ("l1", latin1),
    ("iso8859_1", latin1), ("iso_8859_1", latin1), ("iso8859", latin1), ("8859", latin1),
    ("iso_8859_1_1987", latin1), ("iso_ir_100", latin1), ("cp819", latin1), ("ibm819", latin1),
    ("csisolatin1", latin1),
    ("iso8859_15", latin9), ("iso_8859_15", latin9), ("latin9", latin9), ("l9", latin9),
    ("cp1252", windows1252), ("windows_1252", windows1252), ("1252", windows1252),
    ("utf_16", utf16 none), ("utf16", utf16 none), ("u16", utf16 none),
    ("utf_16_le", utf16 (some .little)), ("utf_16le", utf16 (some .little)),
    ("unicodelittleunmarked", utf16 (some .little)),
    ("utf_16_be", utf16 (some .big)), ("utf_16be", utf16 (some .big)),
    ("unicodebigunmarked", utf16 (some .big)),
    ("utf_32", utf32 none), ("utf32", utf32 none), ("u32", utf32 none),
    ("utf_32_le", utf32 (some .little)), ("utf_32le", utf32 (some .little)),
    ("utf_32_be", utf32 (some .big)), ("utf_32be", utf32 (some .big))]

end StandardEncoding

namespace Codecs

/-- The encoding in which no bytes are text. -/
def undefined : Encoding := ⟨"undefined"⟩

/-- The spellings of transformations that are no text encodings. -/
def transformations : List String :=
  ["base64", "base_64", "base64_codec", "hex", "hex_codec", "rot13", "rot_13", "zlib", "zip",
    "zlib_codec", "bz2", "bz2_codec", "quopri", "quopri_codec", "quoted_printable",
    "quotedprintable", "uu", "uu_codec"]

/-- The standard codecs. -/
instance standard : Codecs where
  lookUp key :=
    match StandardEncoding.spellings.lookup key with
    | some e => .text ⟨e.name⟩
    | none =>
      if key = "undefined" then .text undefined
      else if transformations.contains key then .transformation
      else .unknown
  decode e bs :=
    match StandardEncoding.ofName? e.name with
    | some known => (known.decode bs).mapError .error
    | none =>
      if e = undefined then
        .error (.escaped (.codec "UnicodeError"
          "decoding with 'undefined' codec failed (UnicodeError: undefined encoding)"))
      else .error (.escaped (.codec "LookupError" s!"unknown encoding: {e.name}"))

end Codecs

end BinRecord
