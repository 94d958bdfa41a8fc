/-
Cyclic redundancy checks of 32 bits, over one polynomial in two bit orders.
-/
import BinRecord.Bytes

namespace BinRecord.Checksum

/-- One bit of the check that takes the least significant bit of each byte first. -/
def stepLow (c : UInt32) : UInt32 :=
  if c &&& 1 = 1 then (c >>> 1) ^^^ 0xedb88320 else c >>> 1

/-- One bit of the check that takes the most significant bit of each byte first. -/
def stepHigh (c : UInt32) : UInt32 :=
  if c &&& 0x80000000 ≠ 0 then (c <<< 1) ^^^ 0x04c11db7 else c <<< 1

/-- Eight steps. -/
def eight (step : UInt32 → UInt32) (c : UInt32) : UInt32 :=
  step (step (step (step (step (step (step (step c)))))))

/-- The check after one more byte, least significant bits first. -/
def byteLow (c : UInt32) (b : UInt8) : UInt32 := eight stepLow (c ^^^ b.toUInt32)

/-- The check after one more byte, most significant bits first. -/
def byteHigh (c : UInt32) (b : UInt8) : UInt32 := eight stepHigh (c ^^^ (b.toUInt32 <<< 24))

/-- The check of bytes, least significant bits first. -/
def low (bs : Bytes) : UInt32 := bs.foldl byteLow 0xffffffff ^^^ 0xffffffff

/-- The check of bytes, most significant bits first. -/
def high (bs : Bytes) : UInt32 := bs.foldl byteHigh 0xffffffff ^^^ 0xffffffff

end BinRecord.Checksum
