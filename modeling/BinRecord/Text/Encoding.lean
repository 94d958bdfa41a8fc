/-
The text encodings that a schema can name. Which there are, and what characters bytes spell in each,
is up to the codecs at hand (`Codecs`): everything below is said for any of them. A name is looked
up without regard to case, and any run of dashes and underscores counts as one and is dropped at the
ends. Some names stand for transformations of bytes that are no text encodings; they are known but
refused. A codec that does not decode some bytes says where they are ill-formed, or fails in a way of
its own.
-/
import BinRecord.Failure
import BinRecord.Text.Decoding
import BinRecord.Text.Split

namespace BinRecord

/-- A text encoding, by the name under which it is shown. -/
structure Encoding where
  name : String
  deriving DecidableEq, Repr

/-- What a name stands for. -/
inductive Named where
  | text (encoding : Encoding)
  | transformation
  | unknown
  deriving DecidableEq, Repr

/-- Codecs: what names in their normal spelling stand for, and strict decoding in each encoding. What
escapes is an error of the codec itself. -/
class Codecs where
  lookUp : String → Named
  decode : Encoding → Bytes → Except (Failure Text.Malformed) (List Char)

namespace Encoding

/-- The encoding of texts for which none is named. -/
def utf8 : Encoding := ⟨"utf-8"⟩

/-- Whether a character separates the words of a name. -/
def isSeparator (c : Char) : Bool := !c.isAlphanum && c ≠ '.'

/-- The spelling under which a name is looked up. -/
def normalize (s : String) : String :=
  "_".intercalate <| (Text.words isSeparator s.toList).map fun w =>
    String.ofList (w.map Char.toLower)

variable [Codecs]

/-- Looks a name up. -/
def ofName (s : String) : Named := Codecs.lookUp (normalize s)

/-- The characters that the bytes spell in an encoding. -/
def decode (e : Encoding) (bs : Bytes) : Except (Failure Text.Malformed) (List Char) := Codecs.decode e bs

end Encoding

end BinRecord
