/-
Headers of a fixed size with fields at fixed offsets: a magic at the start, the size of the payload,
and perhaps a version. Sizes and versions are integers in a format that a short code names.
-/
import BinRecord.Header.Basic
import BinRecord.Header.Error
import BinRecord.Schema.Primitive
import BinRecord.Text.Integer

namespace BinRecord

/-! ## Integer formats -/

/-- How an integer is stored. -/
structure IntegerFormat where
  width : IntegerWidth
  signed : Bool
  order : ByteOrder
  deriving DecidableEq, Repr

namespace IntegerFormat

/-- The width and sign that a letter stands for. `l` takes eight bytes in the machine's own sizes
and four in the standard ones. -/
def ofLetter? (native : Bool) (c : Char) : Option (IntegerWidth × Bool) :=
  let long : IntegerWidth := if native then .eight else .four
  [('b', .one, true), ('B', .one, false), ('h', .two, true), ('H', .two, false),
    ('i', .four, true), ('I', .four, false), ('l', long, true), ('L', long, false),
    ('q', .eight, true), ('Q', .eight, false)].lookup c

/-- The byte order that a mark in front of the letter stands for, and whether sizes are the
machine's own; the machine puts the least significant byte first. -/
def ofMark? (c : Char) : Option (ByteOrder × Bool) :=
  [('<', .little, false), ('>', .big, false), ('=', .little, false), ('!', .big, false),
    ('@', .little, true)].lookup c

/-- The format that a code names: a letter, perhaps after a mark. -/
def ofCode? (code : String) : Option IntegerFormat :=
  match code.toList with
  | [letter] => (ofLetter? true letter).map fun (width, signed) => ⟨width, signed, .little⟩
  | [m, letter] =>
    (ofMark? m).bind fun (order, native) =>
      (ofLetter? native letter).map fun (width, signed) => ⟨width, signed, order⟩
  | _ => none

/-- The integer stored at an offset. -/
def read (f : IntegerFormat) (offset : Nat) (bs : Bytes) : Int :=
  let stored : Bytes := (bs.drop offset).take f.width.bytes
  if f.signed then stored.toInt f.order else stored.toNat f.order

end IntegerFormat

/-! ## Layouts -/

/-- An integer field of a header. A code that names no format leaves the format open. -/
structure IntegerField where
  offset : Nat
  format : Option IntegerFormat
  deriving DecidableEq, Repr

/-- A layout with fields at fixed offsets. `size` is the least size of the header. -/
structure BinaryLayout where
  name : String := "binary"
  magic : Bytes
  dataSize : IntegerField
  size : Nat := 0
  version : Option IntegerField := none
  deriving DecidableEq, Repr

namespace BinaryLayout

/-- An integer field whose format is known. -/
structure Slot where
  offset : Nat
  format : IntegerFormat
  deriving DecidableEq, Repr

/-- Where a slot ends. -/
def Slot.stop (s : Slot) : Nat := s.offset + s.format.width.bytes

/-- The slot of a field. -/
def slot (f : IntegerField) : Except HeaderFailure Slot :=
  match f.format with
  | some format => .ok ⟨f.offset, format⟩
  | none => .error (.escaped .badFormat)

/-- The slot of a field that there may be. -/
def slot? : Option IntegerField → Except HeaderFailure (Option Slot)
  | none => .ok none
  | some f => (slot f).map some

/-- The size of a header: as declared, but enough for the magic and every field. -/
def headerSize (layout : BinaryLayout) (dataSize : Slot) (version : Option Slot) : Nat :=
  max (max layout.size layout.magic.length) (max dataSize.stop ((version.map Slot.stop).getD 0))

/-- The header in `bs`, which starts at `start` and holds all of it. -/
def headerOf (layout : BinaryLayout) (dataSize : Slot) (version : Option Slot) (start : Nat)
    (bs : Bytes) : Except HeaderFailure Header :=
  match dataSize.format.read dataSize.offset bs with
  | .negSucc n =>
    .error (.error ⟨.negativeDataSize (.negSucc n), (start + dataSize.offset : Nat)⟩)
  | .ofNat size =>
    let version := version.map fun v => v.format.read v.offset bs
    let field (n : Int) : String := String.ofList (Text.decimal n)
    let fields := ("data_size", field size) :: version.toList.map fun n => ("version", field n)
    .ok ⟨layout.name, size, fields, layout.magic, version⟩

/-- Decodes the header that starts at `start` in `data`, and says how many bytes it takes. -/
def decode (layout : BinaryLayout) (data : Bytes) (start : Nat) :
    Except HeaderFailure (Header × Nat) :=
  let bs := data.drop start
  let found := bs.take layout.magic.length
  if found ≠ layout.magic then
    if found.isPrefixOf layout.magic then
      .error (.error ⟨.endInsideMagic, (start + found.length : Nat)⟩)
    else .error (.error ⟨.unknownMagic (.different layout.magic found), start⟩)
  else do
    let dataSize ← slot layout.dataSize
    let version ← slot? layout.version
    let size := layout.headerSize dataSize version
    let available := (data.length : Int) - start
    if available < size then
      .error (HeaderError.failure ⟨.tooShort size available, data.length⟩)
    else
      let header ← layout.headerOf dataSize version start bs
      .ok (header, size)

end BinaryLayout

end BinRecord
