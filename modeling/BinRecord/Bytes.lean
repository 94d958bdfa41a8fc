/-
Byte strings and what every format here needs of them: hexadecimal text, integers in either byte
order, cutting a region out, and the search for a first occurrence, both plain and in windows of a
bounded size.
-/
namespace BinRecord

/-- A finite run of bytes. -/
abbrev Bytes := List UInt8

/-- Which end of a number is stored first. -/
inductive ByteOrder where
  | big
  | little
  deriving DecidableEq, Repr, Inhabited

/-- The name under which a byte order is shown. -/
def ByteOrder.name : ByteOrder → String
  | .big => "big"
  | .little => "little"

namespace Bytes

/-! ## Hexadecimal text -/

/-- The two lower-case hexadecimal digits of a byte. -/
def hexOfByte (b : UInt8) : List Char :=
  [Nat.digitChar (b.toNat / 16), Nat.digitChar (b.toNat % 16)]

/-- Two lower-case hexadecimal digits for each byte. -/
def toHex (bs : Bytes) : List Char := bs.flatMap hexOfByte

/-- The number whose base-256 digits are the bytes, most significant first. -/
def ofBigEndian (bs : Bytes) : Nat := bs.foldl (fun n b => n * 256 + b.toNat) 0

/-- The unsigned integer that the bytes store. -/
def toNat : ByteOrder → Bytes → Nat
  | .big, bs => ofBigEndian bs
  | .little, bs => ofBigEndian bs.reverse

/-- The signed integer that the bytes store in two's complement. -/
def toInt (order : ByteOrder) (bs : Bytes) : Int :=
  let n := toNat order bs
  let modulus := Nat.pow 256 bs.length
  if 2 * n < modulus then n else (n : Int) - modulus

/-! ## Regions -/

/-- The bytes from `start` up to `stop`, both counted from the end when negative, as far as they
exist. -/
def slice (bs : Bytes) (start : Int) (stop : Option Int) : Bytes :=
  let size := bs.length
  let place (i : Int) : Nat := (if i < 0 then i + size else i).toNat
  let first := place start
  match stop with
  | none => bs.drop first
  | some stop => (bs.take (place stop)).drop first

theorem slice_zero_none (bs : Bytes) : slice bs 0 none = bs := by simp [slice]

/-! ## Search -/

/-- The first place at or after the head of `bs`, numbered from `i`, where `needle` stands. -/
def findFrom (needle : Bytes) (i : Nat) : Bytes → Option Nat
  | [] => if needle.isEmpty then some i else none
  | b :: bs => if needle.isPrefixOf (b :: bs) then some i else findFrom needle (i + 1) bs

/-- The first place where `needle` stands in `bs`. -/
def find? (needle bs : Bytes) : Option Nat := findFrom needle 0 bs

/-- The first place where `needle` stands, numbered from `i`, looking at windows of `chunk` new
bytes that overlap by one byte less than the needle. No place exists in an exhausted `bs`. -/
def findInWindows (chunk : Nat) (needle : Bytes) (i : Nat) (bs : Bytes) : Option Nat :=
  if _h : bs = [] ∨ chunk = 0 then none
  else
    match find? needle (bs.take (chunk + needle.length - 1)) with
    | some k => some (i + k)
    | none => findInWindows chunk needle (i + chunk) (bs.drop chunk)
termination_by bs.length
decreasing_by
  have : bs.length ≠ 0 := fun e => _h (.inl (List.length_eq_zero_iff.1 e))
  simp only [List.length_drop]
  omega

/-- How many new bytes one step of a search looks at. -/
def searchChunk : Nat := 65536

/-- The first place where `needle` stands in `bs`, searched window by window. -/
def search? (needle bs : Bytes) : Option Nat := findInWindows searchChunk needle 0 bs

end Bytes

end BinRecord
