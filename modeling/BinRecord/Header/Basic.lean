/-
Record headers as decoded, and their JSON text. A header says how long the payload is; it may also
carry the schema of the payload and the way the payload is compressed.
-/
import BinRecord.Compression.Error
import BinRecord.OrderedMap
import BinRecord.Value.Json

namespace BinRecord

/-- A decoded header. `layout` names the layout that it was found in. -/
structure Header where
  layout : String
  dataSize : Nat
  fields : OrderedMap String
  magic : Bytes
  version : Option Int
  deriving DecidableEq, Repr

namespace Header

/-- The schema text that the header carries. -/
def schemaText? (h : Header) : Option String := h.fields.get? "format"

/-- The name of the way the payload is compressed. -/
def compressionName? (h : Header) : Option String := h.fields.get? "compress_type"

/-- The way the payload is compressed. -/
def compression? (h : Header) : Option CompressionMethod :=
  h.compressionName?.bind CompressionMethod.ofName?

/-- The entries of a JSON object whose values are texts. -/
def writeEntries : List (String × String) → List Char
  | [] => []
  | [(key, value)] => Json.string key ++ ':' :: Json.string value
  | (key, value) :: e :: es =>
    Json.string key ++ ':' :: Json.string value ++ ',' :: writeEntries (e :: es)

/-- The fields of the header as a JSON object, in increasing order of their keys. -/
def toJson (h : Header) : String :=
  let sorted := h.fields.mergeSort fun a b => !(b.1 < a.1)
  String.ofList ('\x7b' :: writeEntries sorted ++ ['\x7d'])

end Header

end BinRecord
