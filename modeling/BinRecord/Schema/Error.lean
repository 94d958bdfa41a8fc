/-
What can be wrong with schema text, and how it is reported.
-/
import BinRecord.Diagnostic
import BinRecord.Failure
import BinRecord.Schema.Primitive

namespace BinRecord

/-- What a place in schema text calls for. -/
inductive Expectation where
  | structKeyword
  | structName
  | fieldName
  | fieldType
  | encodingName
  | width
  | length
  | mark (c : Char)
  deriving DecidableEq, Repr

/-- How a message names what was expected. -/
def Expectation.text : Expectation → String
  | structKeyword => "'struct'"
  | structName => "a struct name"
  | fieldName => "a field name or '\x7d'"
  | fieldType => "a type"
  | encodingName => "an encoding name"
  | width => "a width"
  | length => "an array length or '+'"
  | mark c => Text.quote (String.singleton c)

/-- The three families of types whose width is part of their name. -/
inductive NumericFamily where
  | unsigned
  | signed
  | float
  deriving DecidableEq, Repr

/-- The widths in bits that a family knows, in increasing order. -/
def NumericFamily.widths : NumericFamily → List Nat
  | float => [16, 32, 64]
  | _ => [8, 16, 32, 64]

/-- What is wrong with schema text. -/
inductive SchemaFault where
  | unknownToken (c : Char)
  | unexpectedToken (expected : Expectation) (found : String)
  | unexpectedEnd (expected : Expectation)
  | notFigures (expected : Expectation) (found : String)
  | builtInName (name : String)
  | unknownWidth (name : String) (family : NumericFamily)
  | zeroWidth (keyword : String)
  | needlessEncoding (keyword : String)
  | unknownEncoding (name : String)
  | notTextEncoding (name : String)
  | emptySchema
  | duplicateField (field struct : String) (first : TextPosition)
  | duplicateStruct (struct : String) (first : TextPosition)
  | unknownType (name : String)
  | cycle (structs : List String)
  | fieldAfterUnbounded (field unbounded struct : String)
  | unboundedElement (field : String)
  | emptyElement (field : String)
  | unknownRoot (name : String)
  deriving DecidableEq, Repr

namespace SchemaFault

/-- The kind of a fault. -/
def kind : SchemaFault → SchemaErrorKind
  | unknownToken _ => .unknownToken
  | unexpectedToken .. | builtInName _ => .unexpectedToken
  | unexpectedEnd _ => .unexpectedEnd
  | notFigures .. | unknownWidth .. | zeroWidth _ | needlessEncoding _ | unknownEncoding _
  | notTextEncoding _ => .malformedLiteral
  | emptySchema => .emptySchema
  | duplicateField .. => .duplicateField
  | duplicateStruct .. => .duplicateStruct
  | unknownType _ => .unknownType
  | cycle _ => .cyclicReference
  | fieldAfterUnbounded .. => .misplacedInfiniteArray
  | unboundedElement _ => .nestedInfiniteArray
  | emptyElement _ => .zeroWidthElement
  | unknownRoot _ => .unknownRoot

/-- What a message says after the kind. -/
def detail : SchemaFault → String
  | unknownToken c => Text.quote (String.singleton c)
  | unexpectedToken expected found =>
    s!"expected {expected.text}, found {Text.quote found}"
  | unexpectedEnd expected => s!"expected {expected.text}"
  | notFigures expected found => s!"expected {expected.text}, found {Text.quote found}"
  | builtInName name => s!"{Text.quote name} is a built-in type name"
  | unknownWidth name family =>
    let widths := ", ".intercalate (family.widths.map toString)
    s!"{Text.quote name}: width must be one of ({widths}) bits"
  | zeroWidth keyword => s!"{keyword} width must be positive"
  | needlessEncoding keyword => s!"{keyword} takes no encoding"
  | unknownEncoding name => s!"unknown encoding {Text.quote name}"
  | notTextEncoding name => s!"{Text.quote name} is not a text encoding"
  | emptySchema => ""
  | duplicateField field struct first =>
    s!"{Text.quote field} already declared in struct {Text.quote struct} at {first.describe}"
  | duplicateStruct struct first =>
    s!"{Text.quote struct} already declared at {first.describe}"
  | unknownType name => Text.quote name
  | cycle structs => " -> ".intercalate structs
  | fieldAfterUnbounded field unbounded struct =>
    s!"field {Text.quote field} follows unbounded field {Text.quote unbounded} in struct " ++
      Text.quote struct
  | unboundedElement field => s!"element of {Text.quote field} has no fixed width"
  | emptyElement field => Text.quote field
  | unknownRoot name => Text.quote name

/-- The failures behind a fault. -/
def causes : SchemaFault → List String
  | unknownEncoding name => [s!"unknown encoding: {name}"]
  | _ => []

end SchemaFault

/-- A fault in schema text and where it lies. `schemaText` is the text, if a record named it. -/
structure SchemaError where
  fault : SchemaFault
  position : Option TextPosition
  schemaText : Option String := none
  deriving DecidableEq, Repr

/-- How the error is shown. -/
def SchemaError.diagnostic (e : SchemaError) : Diagnostic :=
  ⟨.schema e.fault.kind, e.fault.detail, e.position.map .text, e.fault.causes⟩

/-- Why schema text cannot be compiled. -/
abbrev SchemaFailure := Failure SchemaError

end BinRecord
