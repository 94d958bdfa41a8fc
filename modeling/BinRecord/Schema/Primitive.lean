/-
The types of a schema: primitives, references to structs, and arrays of either. Arrays do not nest;
an array without a length runs to the end of the payload.
-/
import BinRecord.Bytes
import BinRecord.Float.Format
import BinRecord.Text.Encoding

namespace BinRecord

/-- The widths of stored integers. -/
inductive IntegerWidth where
  | one
  | two
  | four
  | eight
  deriving DecidableEq, Repr

/-- The number of bytes. -/
def IntegerWidth.bytes : IntegerWidth → Nat
  | one => 1
  | two => 2
  | four => 4
  | eight => 8

/-- A width that a schema gives in figures: at least one byte. -/
abbrev Width := { n : Nat // 0 < n }

/-- A type without parts. Padding takes room and has no value. -/
inductive Primitive where
  | unsigned (width : IntegerWidth) (order : ByteOrder)
  | signed (width : IntegerWidth) (order : ByteOrder)
  | float (format : FloatFormat) (order : ByteOrder)
  | text (width : Width) (encoding : Encoding)
  | bytes (width : Width)
  | padding (width : Width)
  deriving DecidableEq, Repr

namespace Primitive

/-- The number of bytes that a primitive takes. -/
def width : Primitive → Nat
  | unsigned w _ | signed w _ => w.bytes
  | float f _ => f.width
  | text w _ | bytes w | padding w => w

theorem width_pos (p : Primitive) : 0 < p.width := by
  cases p with
  | unsigned w _ | signed w _ => cases w <;> simp [width, IntegerWidth.bytes]
  | float f _ => cases f <;> simp [width, FloatFormat.width]
  | text w _ | bytes w | padding w => exact w.2

/-- Whether a primitive is padding. -/
def isPadding : Primitive → Bool
  | padding _ => true
  | _ => false

/-- How a numeric type is spelled. -/
def numericKeyword (letter : Char) (bytes : Nat) (order : ByteOrder) : String :=
  let ending := if order = .little then "LE" else ""
  s!"{letter}{bytes * 8}{ending}"

/-- How a primitive is spelled. UTF-8 is the encoding that goes without saying. -/
def keyword : Primitive → String
  | unsigned w order => numericKeyword 'U' w.bytes order
  | signed w order => numericKeyword 'I' w.bytes order
  | float f order => numericKeyword 'F' f.width order
  | text w encoding =>
    if encoding = .utf8 then s!"NSTR<{w.1}>" else s!"NSTR<{w.1}, {encoding.name}>"
  | bytes w => s!"BYTES<{w.1}>"
  | padding w => s!"PAD<{w.1}>"

end Primitive

/-- A type that can be an array's element; `ρ` is how structs are referred to. -/
inductive BaseType (ρ : Type) where
  | primitive (p : Primitive)
  | struct (reference : ρ)
  deriving DecidableEq, Repr

/-- How often a type is repeated: not at all, a number of times, or up to the end. -/
inductive Arity where
  | single
  | times (length : Nat)
  | toEnd
  deriving DecidableEq, Repr

/-- The type of a field. -/
structure FieldType (ρ : Type) where
  base : BaseType ρ
  arity : Arity
  deriving DecidableEq, Repr

/-- Whether the fields of a type produce no value: padding, and arrays of padding. -/
def BaseType.isPadding {ρ : Type} : BaseType ρ → Bool
  | primitive p => p.isPadding
  | struct _ => false

/-- The width of a repeated type, from that of one element; none if it is unbounded. -/
def Arity.width (element : Option Nat) : Arity → Option Nat
  | single => element
  | times length => element.map (· * length)
  | toEnd => none

/-- How the repetition is spelled after the element. -/
def Arity.suffix : Arity → String
  | single => ""
  | times length => s!"[{length}]"
  | toEnd => "[+]"

end BinRecord
