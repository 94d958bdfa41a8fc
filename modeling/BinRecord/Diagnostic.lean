/-
What every fault of the library comes down to when it is shown: its kind, what it is about, where
it lies, and the failures that led to it.
-/
import BinRecord.Position
import BinRecord.Text.Quoted

namespace BinRecord

/-! ## Kinds of fault -/

/-- What can be wrong with schema text. -/
inductive SchemaErrorKind where
  | unknownToken
  | unexpectedToken
  | unexpectedEnd
  | emptySchema
  | unknownType
  | duplicateField
  | duplicateStruct
  | malformedLiteral
  | misplacedInfiniteArray
  | nestedInfiniteArray
  | zeroWidthElement
  | cyclicReference
  | unknownRoot
  deriving DecidableEq, Repr

/-- What can be wrong with a record header or the extent of its payload. -/
inductive HeaderErrorKind where
  | notRecognized
  | malformed
  | truncatedHeader
  | truncatedPayload
  deriving DecidableEq, Repr

/-- What can be wrong with a payload. -/
inductive DecodeErrorKind where
  | truncated
  | invalidEncoding
  | corruptCompression
  deriving DecidableEq, Repr

/-- The kind of a fault, with the part of the library it belongs to. -/
inductive ErrorKind where
  | schema (kind : SchemaErrorKind)
  | header (kind : HeaderErrorKind)
  | decode (kind : DecodeErrorKind)
  | unreadableSource
  deriving DecidableEq, Repr

/-- The words for a kind of fault. -/
def ErrorKind.text : ErrorKind → String
  | .schema .unknownToken => "unknown token found"
  | .schema .unexpectedToken => "unexpected token found"
  | .schema .unexpectedEnd => "unexpected end of the schema reached"
  | .schema .emptySchema => "schema declares no struct"
  | .schema .unknownType => "unknown type reference"
  | .schema .duplicateField => "duplicate field name"
  | .schema .duplicateStruct => "duplicate struct name"
  | .schema .malformedLiteral => "malformed width or length"
  | .schema .misplacedInfiniteArray => "infinite array not in trailing position"
  | .schema .nestedInfiniteArray => "unbounded type used as an array element"
  | .schema .zeroWidthElement => "array of zero-width elements"
  | .schema .cyclicReference => "cyclic struct reference"
  | .schema .unknownRoot => "unknown root struct"
  | .header .notRecognized => "header not recognized"
  | .header .malformed => "malformed header"
  | .header .truncatedHeader => "truncated header"
  | .header .truncatedPayload => "truncated payload"
  | .decode .truncated => "truncated data"
  | .decode .invalidEncoding => "invalid text encoding"
  | .decode .corruptCompression => "corrupt compressed payload"
  | .unreadableSource => "cannot read source"

/-! ## Causes -/

/-- A failure that led to a fault: it tells its own story, names a key that was not found, or has
nothing to say beyond its name. -/
inductive Cause where
  | told (text : String) (name : String)
  | missingKey (key : String)
  | silent (name : String)
  deriving DecidableEq, Repr

/-- The line that reports a cause. -/
def Cause.message : Cause → String
  | .told text name => if text.isEmpty then name else text
  | .missingKey key => Text.quote key
  | .silent name => name

/-! ## Diagnostics -/

/-- A fault as it is shown. `causes` starts with the nearest one. -/
structure Diagnostic where
  kind : ErrorKind
  detail : String
  position : Option Position
  causes : List String := []
  deriving DecidableEq, Repr

/-- The kind of the fault, followed by what it is about unless there is nothing to add. -/
def Diagnostic.message (d : Diagnostic) : String :=
  if d.detail.isEmpty then d.kind.text else d.kind.text ++ ": " ++ d.detail

/-- The whole report: place and message on the first line, then a line for each cause. -/
def Diagnostic.render (d : Diagnostic) : String :=
  let head := match d.position with
    | none => d.message
    | some p => p.describe ++ ": " ++ d.message
  "\n".intercalate (head :: d.causes.map ("caused by: " ++ ·))

end BinRecord
