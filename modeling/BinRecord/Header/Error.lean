/-
What can be wrong with a record header, or with the extent of the payload that it declares, and how
it is reported.
-/
import BinRecord.Diagnostic
import BinRecord.Failure
import BinRecord.Text.Decoding
import BinRecord.Text.Integer

namespace BinRecord

/-- Why a layout does not recognize a header by its magic. -/
inductive MagicFault where
  | absent (magic : Bytes)
  | different (magic found : Bytes)
  deriving DecidableEq, Repr

/-- How a message says so. -/
def MagicFault.text : MagicFault → String
  | absent magic => s!"no {Text.quoteBytes magic} magic line"
  | different magic found =>
    s!"expected magic {Text.quoteBytes magic}, found {Text.quoteBytes found}"

/-- A layout, by its name, that does not recognize a header. -/
structure LayoutMismatch where
  layout : String
  fault : MagicFault
  deriving DecidableEq, Repr

/-- What is wrong with a header or with the extent of a payload. -/
inductive HeaderFault where
  | unknownMagic (fault : MagicFault)
  | noLayout (mismatches : List LayoutMismatch)
  | endBeforeSeparator
  | unterminatedLine
  | endInsideMagic
  | tooShort (needed : Nat) (available : Int)
  | noEquals (line : Bytes)
  | notUtf8 (malformed : Text.Malformed)
  | noDataSize
  | dataSizeNotDecimal (value : String)
  | unknownCompression (name : String)
  | negativeDataSize (size : Int)
  | noSchema
  | missingBytes (declared available : Int)
  | recordPastEnd (record wanted : Nat)
  deriving DecidableEq, Repr

namespace HeaderFault

/-- The kind of a fault. -/
def kind : HeaderFault → HeaderErrorKind
  | unknownMagic _ | noLayout _ => .notRecognized
  | endBeforeSeparator | unterminatedLine | endInsideMagic | tooShort .. => .truncatedHeader
  | noEquals _ | notUtf8 _ | noDataSize | dataSizeNotDecimal _ | unknownCompression _
  | negativeDataSize _ | noSchema => .malformed
  | missingBytes .. | recordPastEnd .. => .truncatedPayload

/-- How many bytes of a bad line a message shows. -/
def shownBytes : Nat := 40

/-- What a message says after the kind. -/
def detail : HeaderFault → String
  | unknownMagic fault => fault.text
  | noLayout [] => "no layouts given"
  | noLayout mismatches =>
    "; ".intercalate (mismatches.map fun m => s!"{m.layout}: {m.fault.text}")
  | endBeforeSeparator => "end of data before separator"
  | unterminatedLine => "unterminated header line"
  | endInsideMagic => "end of data inside magic"
  | tooShort needed available => s!"header needs {needed} bytes, only {available} available"
  | noEquals line => s!"field line without '=': {Text.quoteBytes (line.take shownBytes)}"
  | notUtf8 _ => "header field is not valid UTF-8"
  | noDataSize => "missing data_size field"
  | dataSizeNotDecimal value => s!"data_size is not a decimal number: {Text.quote value}"
  | unknownCompression name => s!"unsupported compress_type {Text.quote name}"
  | negativeDataSize size => s!"negative data_size {size}"
  | noSchema => "header has no format field and no schema was given"
  | missingBytes declared available =>
    s!"data_size declares {declared} byte(s), only {available} available"
  | recordPastEnd record wanted =>
    s!"record {record} extends past the end of the data, record {wanted} not found"

/-- The numbers that a message shows and that a layout or a header can make as large as it likes. Places
and indexes are not among them. -/
def numbers : HeaderFault → List Int
  | tooShort needed available => [needed, available]
  | missingBytes declared available => [declared, available]
  | _ => []

/-- The failures behind a fault. -/
def causes : HeaderFault → List String
  | notUtf8 malformed => [malformed.message]
  | _ => []

/-- The layouts that did not recognize a header, if that is the fault. -/
def mismatches : HeaderFault → List LayoutMismatch
  | noLayout mismatches => mismatches
  | _ => []

end HeaderFault

/-- A fault in a header and the byte where it lies. -/
structure HeaderError where
  fault : HeaderFault
  offset : Int
  deriving DecidableEq, Repr

/-- How the error is shown. -/
def HeaderError.diagnostic (e : HeaderError) : Diagnostic :=
  ⟨.header e.fault.kind, e.fault.detail, some (.byte e.offset), e.fault.causes⟩

/-- Why a header cannot be decoded. -/
abbrev HeaderFailure := Failure HeaderError

/-- The failure with an error. Where its message cannot be written, there is no error. -/
def HeaderError.failure (e : HeaderError) : HeaderFailure :=
  if e.fault.numbers.all Text.isWritable then .error e else .escaped .unwritable

end BinRecord
