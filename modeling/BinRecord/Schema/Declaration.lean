/-
Struct declarations as they are written, before names are resolved, and the names of the built-in
types. A numeric type's name says its family, its width in bits and perhaps its byte order; text,
bytes and padding have their width in angle brackets.
-/
import BinRecord.Schema.Token
import BinRecord.Text.Integer

namespace BinRecord

/-- A field of a declaration; `ρ` is how structs are referred to. `bracket` is the place of the
bracket that makes the type an array. -/
structure FieldDeclaration (ρ : Type) where
  name : String
  position : TextPosition
  type : FieldType ρ
  typePosition : TextPosition
  bracket : Option TextPosition
  deriving DecidableEq, Repr

/-- A struct declaration. -/
structure Declaration (ρ : Type) where
  name : String
  position : TextPosition
  fields : List (FieldDeclaration ρ)
  deriving DecidableEq, Repr

/-! ## Built-in names -/

/-- Older names of numeric types. -/
def typeAliases : List (String × String) :=
  [("UINT8", "U8"), ("UINT16", "U16"), ("UINT32", "U32"), ("UINT64", "U64"), ("INT8", "I8"),
    ("INT16", "I16"), ("INT32", "I32"), ("INT64", "I64"), ("FLOAT32", "F32"), ("FLOAT64", "F64")]

/-- The types whose width is given in angle brackets. -/
inductive SizedFamily where
  | text
  | bytes
  | padding
  deriving DecidableEq, Repr

/-- The type with a given name. -/
def SizedFamily.ofName? (name : String) : Option SizedFamily :=
  if name = "NSTR" then some text
  else if name = "BYTES" then some bytes
  else if name = "PAD" then some padding
  else none

/-- What the name of a numeric type says: its family, the figures of its width in bits and its byte
order. -/
structure NumericName where
  family : NumericFamily
  figures : List Char
  order : ByteOrder
  deriving DecidableEq, Repr

/-- The family that a letter stands for. -/
def NumericFamily.ofLetter? (c : Char) : Option NumericFamily :=
  if c = 'U' then some unsigned
  else if c = 'I' then some signed
  else if c = 'F' then some float
  else none

/-- The byte order that the end of a name stands for. -/
def orderOfEnding? (cs : List Char) : Option ByteOrder :=
  if cs = ['L', 'E'] then some .little
  else if cs = [] ∨ cs = ['B', 'E'] then some .big
  else none

/-- Reads the name of a numeric type: a letter, figures, and perhaps a byte order. -/
def NumericName.ofChars? : List Char → Option NumericName
  | [] => none
  | c :: cs =>
    let figures := cs.takeWhile Char.isDigit
    match NumericFamily.ofLetter? c, orderOfEnding? (cs.dropWhile Char.isDigit) with
    | some family, some order =>
      if figures.isEmpty then none else some ⟨family, figures, order⟩
    | _, _ => none

/-- The numeric type's name behind a name. -/
def NumericName.ofName? (name : String) : Option NumericName :=
  ofChars? ((typeAliases.lookup name).getD name).toList

/-- Whether a name belongs to a built-in type. -/
def isBuiltIn (name : String) : Bool :=
  (SizedFamily.ofName? name).isSome || (NumericName.ofName? name).isSome

/-- The integer width of so many bits. -/
def IntegerWidth.ofBits? (bits : Nat) : Option IntegerWidth :=
  if bits = 8 then some one
  else if bits = 16 then some two
  else if bits = 32 then some four
  else if bits = 64 then some eight
  else none

/-- The floating-point format of so many bits. -/
def FloatFormat.ofBits? (bits : Nat) : Option FloatFormat :=
  if bits = 16 then some half
  else if bits = 32 then some single
  else if bits = 64 then some double
  else none

/-- The type of a family with so many bits; none if the family has no such width. -/
def NumericFamily.primitive? (family : NumericFamily) (bits : Nat) (order : ByteOrder) :
    Option Primitive :=
  match family with
  | .unsigned => (IntegerWidth.ofBits? bits).map (.unsigned · order)
  | .signed => (IntegerWidth.ofBits? bits).map (.signed · order)
  | .float => (FloatFormat.ofBits? bits).map (.float · order)

end BinRecord
