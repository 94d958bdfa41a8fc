/-
What can be wrong with a payload, and how it is reported. The place in the payload is shown as the
names and indexes on the way to it from the root struct.
-/
import BinRecord.Compression.Error
import BinRecord.Diagnostic
import BinRecord.Text.Encoding
import BinRecord.Text.Integer

namespace BinRecord

/-- A step down into a value. -/
inductive PathStep where
  | field (name : String)
  | item (index : Nat)
  deriving DecidableEq, Repr

/-- The way from the root struct down to a value; the last step comes first. -/
structure Path where
  root : String
  steps : List PathStep
  deriving DecidableEq, Repr

namespace Path

/-- How a step is shown. -/
def stepText : PathStep → String
  | .field name => "." ++ name
  | .item index => s!"[{index}]"

/-- How a path is shown. -/
def text (p : Path) : String := p.root ++ String.join (p.steps.reverse.map stepText)

/-- The path one step further down to a field. -/
def field (p : Path) (name : String) : Path := ⟨p.root, .field name :: p.steps⟩

/-- The path one step further down to an item. -/
def item (p : Path) (index : Nat) : Path := ⟨p.root, .item index :: p.steps⟩

end Path

/-- What is wrong with a payload. -/
inductive DecodeFault where
  | tooShort (path : Path) (needed : Nat) (left : Int)
  | partialElement (path : Path) (left : Int) (width : Nat)
  | partialPadding (path : Path)
  | notText (path : Path) (encoding : Encoding) (malformed : Text.Malformed)
  | corrupt (method : CompressionMethod) (size : Nat) (fault : CompressionFault)
  deriving DecidableEq, Repr

namespace DecodeFault

/-- The kind of a fault. -/
def kind : DecodeFault → DecodeErrorKind
  | tooShort .. | partialElement .. | partialPadding _ => .truncated
  | notText .. => .invalidEncoding
  | corrupt .. => .corruptCompression

/-- What a message says after the kind. -/
def detail : DecodeFault → String
  | tooShort path needed left => s!"{path.text} needs {needed} byte(s), {left} left in payload"
  | partialElement path left width =>
    s!"{path.text} ends with a partial element: {left} byte(s) left, element needs {width}"
  | partialPadding path => s!"{path.text} ends with partial padding"
  | notText path encoding _ => s!"{path.text} is not valid {encoding.name}"
  | corrupt method size _ => s!"{method.name} payload of {size} byte(s)"

/-- The failures behind a fault. -/
def causes : DecodeFault → List String
  | notText _ _ malformed => [malformed.message]
  | corrupt _ _ fault => [fault.message]
  | _ => []

/-- The numbers that a message shows and that can have any number of digits. -/
def numbers : DecodeFault → List Int
  | tooShort _ needed left => [needed, left]
  | partialElement _ left width => [left, width]
  | _ => []

end DecodeFault

/-- A fault in a payload and the byte where it lies. -/
structure DecodeError where
  fault : DecodeFault
  offset : Int
  deriving DecidableEq, Repr

/-- How the error is shown. -/
def DecodeError.diagnostic (e : DecodeError) : Diagnostic :=
  ⟨.decode e.fault.kind, e.fault.detail, some (.byte e.offset), e.fault.causes⟩

/-- Why what stands in a payload cannot be read. -/
abbrev DecodeFailure := Failure DecodeError

/-- The failure with an error. Where its message cannot be written, there is no error; a place in the
data can always be written, but the payload may start behind them (`beyond`). -/
def DecodeError.failure (beyond : Bool) (e : DecodeError) : DecodeFailure :=
  if e.fault.numbers.all Text.isWritable && (!beyond || Text.isWritable e.offset) then .error e
  else .escaped .unwritable

end BinRecord
