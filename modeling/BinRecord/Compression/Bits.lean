/-
Bytes as runs of bits, and readers of such runs. A reader that needs more bits than there are finds
that the data have ended; one that finds bits it cannot accept says that they are bad.
-/
import BinRecord.Bytes

namespace BinRecord

/-- Why bits cannot be read on. -/
inductive BitFault where
  | ended
  | bad
  deriving DecidableEq, Repr

/-- A reader of bits. -/
abbrev BitReader := StateT (List Bool) (Except BitFault)

namespace Bits

/-- The bits of a byte, the least significant first. -/
def ofByteLow (b : UInt8) : List Bool := (List.range 8).map b.toNat.testBit

/-- The bits of bytes, the least significant of each byte first. -/
def ofBytesLow (bs : Bytes) : List Bool := bs.flatMap ofByteLow

/-- The bits of bytes, the most significant of each byte first. -/
def ofBytesHigh (bs : Bytes) : List Bool := bs.flatMap fun b => (ofByteLow b).reverse

/-- The bytes that no bit has been read of, when `rest` is left of the bits of `bs`. -/
def untouched (bs : Bytes) (rest : List Bool) : Bytes := bs.drop (bs.length - rest.length / 8)

/-- Reads a bit. -/
def next : BitReader Bool
  | [] => .error .ended
  | b :: bs => .ok (b, bs)

/-- Reads a number of `n` bits, the least significant first. -/
def readLow : Nat → BitReader Nat
  | 0 => pure 0
  | n + 1 => do
    let b ← next
    let high ← readLow n
    return b.toNat + 2 * high

/-- Reads `n` bits after those that make up `value`, the most significant first. -/
def readHighFrom (value : Nat) : Nat → BitReader Nat
  | 0 => pure value
  | n + 1 => do
    let b ← next
    readHighFrom (2 * value + b.toNat) n

/-- Reads a number of `n` bits, the most significant first. -/
def readHigh (n : Nat) : BitReader Nat := readHighFrom 0 n

/-- Passes the bits up to the next byte of the data. -/
def alignToByte : BitReader Unit := modify fun bits => bits.drop (bits.length % 8)

end Bits

end BinRecord
