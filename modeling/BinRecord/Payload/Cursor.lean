/-
A place in the region of a payload. The bytes before the place and beyond the region are out of
reach: a cursor holds only what is left of the region, so nothing else can be read through it.
-/
import BinRecord.Payload.Error

namespace BinRecord

/-- What is left of a region: the bytes, the offset of the first of them, and how far the region
goes on. The count is negative for a region that ends before it starts, which holds no bytes. -/
structure Cursor where
  rest : Bytes
  offset : Int
  left : Int
  deriving DecidableEq, Repr

namespace Cursor

/-- The region of `data` that starts at `start` and ends at `stop`. -/
def ofRegion (data : Bytes) (start : Nat) (stop : Int) : Cursor :=
  let left := stop - start
  ⟨(data.drop start).take left.toNat, start, left⟩

/-- Passes `n` bytes. -/
def skip (c : Cursor) (n : Int) : Cursor := ⟨c.rest.drop n.toNat, c.offset + n, c.left - n⟩

/-- Takes the next `n` bytes for what stands at `path`. -/
def take (c : Cursor) (path : Path) (n : Nat) : Except DecodeFailure (Bytes × Cursor) :=
  if c.left < n then .error (.error ⟨.tooShort path n c.left, c.offset⟩)
  else .ok (c.rest.take n, c.skip n)

end Cursor

end BinRecord
