/-
Records and the ways of reading them. A record is a header followed by a payload; its schema comes
from the header unless the reader is given another.
-/
import BinRecord.Header.Detect
import BinRecord.Payload.Decode
import BinRecord.Schema.Compile

namespace BinRecord

/-- How records are read. `maxBytes` limits how much of the data is looked at; a negative limit
leaves out so many bytes at the end. -/
structure ReaderOptions where
  readBody : Bool := true
  ignoreDataSize : Bool := false
  schemaText : Option String := none
  root : Option String := none
  maxBytes : Option Int := none
  layouts : List HeaderLayout := HeaderLayout.standard

/-- A record. It has no value if only header and schema were read. -/
structure Record where
  header : Header
  schema : Schema
  schemaText : String
  value : Option Value
  offset : Nat
  payloadOffset : Nat

namespace Record

/-- The offset right after the payload. -/
def stop (r : Record) : Nat := r.payloadOffset + r.header.dataSize

/-- The bytes that the header and the payload take. -/
def consumed (r : Record) : Nat := r.stop - r.offset

end Record

/-- A fault that the library reports, with the part of it that found the fault. -/
inductive RecordError where
  | schema (e : SchemaError)
  | header (e : HeaderError)
  | decode (e : DecodeError)
  deriving DecidableEq, Repr

/-- How the error is shown. -/
def RecordError.diagnostic : RecordError → Diagnostic
  | schema e => e.diagnostic
  | header e => e.diagnostic
  | decode e => e.diagnostic

/-- Why reading fails. -/
abbrev ReadFailure := Failure RecordError

/-- An error in a payload, as an error in a record. -/
def RecordError.ofPayload : PayloadError → RecordError
  | .header e => .header e
  | .decode e => .decode e

end BinRecord
