/-
Reading a payload by its shape. Values stand one after the other without gaps; padding takes room
and gives no value. An array without a length takes as many whole elements as the region still
holds, and nothing of the region may be left after the last.
-/
import BinRecord.Header.Error
import BinRecord.Payload.Cursor
import BinRecord.Schema.Shape
import BinRecord.Value.Basic

namespace BinRecord

variable [Codecs]

namespace Primitive

/-- Reads a primitive at the cursor. -/
def read (p : Primitive) (path : Path) (c : Cursor) : Except DecodeFailure (Value × Cursor) := do
  let (bs, after) ← c.take path p.width
  match p with
  | unsigned _ order => .ok (.int (bs.toNat order), after)
  | signed _ order => .ok (.int (bs.toInt order), after)
  | float f order => .ok (.float f (Double.ofBits f (bs.toNat order)), after)
  | text _ encoding =>
    match encoding.decode bs with
    | .ok cs => .ok (.text (String.ofList cs), after)
    | .error e => .error (e.map fun m => ⟨.notText path encoding m, c.offset + m.start⟩)
  | bytes _ | padding _ => .ok (.bytes bs, after)

end Primitive

/-- Reads `count` elements, the next of which has index `i`; `done` holds those before, the latest
first. -/
def readItems (element : Path → Cursor → Except DecodeFailure (Value × Cursor)) (path : Path)
    (i : Nat) (done : List Value) : Nat → Cursor → Except DecodeFailure (List Value × Cursor)
  | 0, c => .ok (done.reverse, c)
  | count + 1, c => do
    let (v, c) ← element (path.item i) c
    readItems element path (i + 1) (v :: done) count c

/-- Reads a value of some arity. Elements that go on to the end must have a width. -/
def readArity (element : Path → Cursor → Except DecodeFailure (Value × Cursor)) (width : Nat)
    (path : Path) : Arity → Cursor → Except DecodeFailure (Value × Cursor)
  | .single, c => element path c
  | .times length, c => do
    let (vs, c) ← readItems element path 0 [] length c
    .ok (.array vs, c)
  | .toEnd, c => do
    let (vs, c) ← readItems element path 0 [] (c.left.toNat / width) c
    if 0 < c.left then .error (.error ⟨.partialElement path c.left width, c.offset⟩)
    else .ok (.array vs, c)

/-- Passes padding of some arity, each piece of `unit` bytes. -/
def skipPadding (unit : Nat) (path : Path) : Arity → Cursor → Except DecodeFailure Cursor
  | .single, c => do
    let (_, c) ← c.take path unit
    .ok c
  | .times length, c => do
    let (_, c) ← c.take path (unit * length)
    .ok c
  | .toEnd, c =>
    let extra := c.left % unit
    if extra ≠ 0 then
      .error (.error ⟨.partialPadding path, c.offset + c.left - extra⟩)
    else .ok (c.skip c.left)

namespace Shape

mutual

/-- Reads a value of a shape at the cursor. -/
def read : Shape → Path → Cursor → Except DecodeFailure (Value × Cursor)
  | primitive p, path, c => p.read path c
  | struct _ fields, path, c => do
    let (entries, c) ← readFields fields path c
    .ok (.struct entries, c)

/-- Reads the fields of a struct; those that are padding leave no entry. -/
def readFields : List (String × Arity × Shape) → Path → Cursor →
    Except DecodeFailure (List (String × Value) × Cursor)
  | [], _, c => .ok ([], c)
  | (name, arity, shape) :: fields, path, c =>
    match shape.paddingUnit? with
    | some unit => do
      let c ← skipPadding unit (path.field name) arity c
      readFields fields path c
    | none => do
      let (v, c) ← readArity (read shape) (shape.width.getD 0) (path.field name) arity c
      let (entries, c) ← readFields fields path c
      .ok ((name, v) :: entries, c)

end

end Shape

/-- Why a payload cannot be read: fewer bytes exist than were declared, or its bytes are wrong. -/
inductive PayloadError where
  | header (e : HeaderError)
  | decode (e : DecodeError)
  deriving DecidableEq, Repr

/-- Why decoding a payload fails. -/
abbrev PayloadFailure := Failure PayloadError

/-- How the error is shown. -/
def PayloadError.diagnostic : PayloadError → Diagnostic
  | header e => e.diagnostic
  | decode e => e.diagnostic

/-- The failure to find as many bytes as were declared. -/
def PayloadError.missing (declared available : Int) (offset : Nat) : PayloadFailure :=
  (HeaderError.failure ⟨.missingBytes declared available, offset⟩).map .header

/-- How a failure to read a payload leaves decoding. -/
def PayloadError.ofRead (beyond : Bool) : DecodeFailure → PayloadFailure
  | .error e => (e.failure beyond).map .decode
  | .escaped x => .escaped x

namespace Schema

/-- Reads what stands at a cursor as a payload. -/
def readAt (s : Schema) (c : Cursor) : Except DecodeFailure (Value × Cursor) :=
  s.shape.read ⟨s.rootStruct.name, []⟩ c

/-- Decodes the payload that starts at `offset` in `data` and has `size` bytes, or goes on to the
end. Bytes of it that are left over are of no interest. -/
def decode (s : Schema) (data : Bytes) (offset : Nat) (size : Option Int) :
    Except PayloadFailure Value :=
  let total := data.length
  let region (stop : Int) : Except PayloadFailure Value :=
    match s.readAt (.ofRegion data offset stop) with
    | .ok (v, _) => .ok v
    | .error e => .error (PayloadError.ofRead (total < offset) e)
  match size with
  | none => region total
  | some size =>
    let available := total - offset
    if (available : Int) < size then .error (PayloadError.missing size available total)
    else region (offset + size)

end Schema

end BinRecord
