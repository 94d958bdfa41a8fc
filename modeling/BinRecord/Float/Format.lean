/-
The binary floating-point formats of 16, 32 and 64 bits. A number is a sign and a magnitude; the
magnitudes in the order of their bit patterns are the multiples `m · 2^e` in increasing order, with
infinity after the largest and what is no number beyond it. A fraction goes to the nearest
magnitude, and from the middle between two to the one with even bits.
-/
import BinRecord.Float.Ratio

namespace BinRecord

/-- A floating-point format, by its width. -/
inductive FloatFormat where
  | half
  | single
  | double
  deriving DecidableEq, Repr, Inhabited

namespace FloatFormat

/-- The width in bytes. -/
def width : FloatFormat → Nat
  | half => 2
  | single => 4
  | double => 8

/-- The number of binary digits of a magnitude, the leading one included. -/
def precision : FloatFormat → Nat
  | half => 11
  | single => 24
  | double => 53

/-- The exponent of the smallest positive magnitude. -/
def leastExponent : FloatFormat → Int
  | half => -24
  | single => -149
  | double => -1074

/-- The number of patterns of one sign. -/
def patterns (f : FloatFormat) : Nat := Nat.pow 2 (8 * f.width - 1)

/-- The number of patterns from one power of two to the next. -/
def binade (f : FloatFormat) : Nat := Nat.pow 2 (f.precision - 1)

/-- The pattern of infinity. -/
def infinity : FloatFormat → Nat
  | half => 0x7c00
  | single => 0x7f800000
  | double => 0x7ff0000000000000

/-- The fraction that a pattern below infinity stands for. -/
def value (f : FloatFormat) (pattern : Nat) : Ratio :=
  if pattern < f.binade then .scaled pattern 2 f.leastExponent
  else
    .scaled (pattern % f.binade + f.binade) 2 (f.leastExponent + (pattern / f.binade - 1 : Nat))

/-- The pattern of the magnitude nearest to a fraction; none when it is too large for the format. -/
def round (f : FloatFormat) (r : Ratio) : Option Nat :=
  if r.num = 0 then some 0
  else
    let steps := (r.log2 - (f.precision - 1 : Nat) - f.leastExponent).toNat
    let pattern := steps * f.binade + (r.shift 2 (-(f.leastExponent + steps))).round
    if pattern < f.infinity then some pattern else none

/-- The sign and the pattern of a stored number. -/
def split (f : FloatFormat) (bits : Nat) : Bool × Nat :=
  (f.patterns ≤ bits, bits % f.patterns)

end FloatFormat

/-- The bits of a number of the 64-bit format, in which every number of the others exists too. -/
abbrev Double := UInt64

namespace Double

/-- The number with a given sign and pattern. -/
def ofParts (negative : Bool) (pattern : Nat) : Double :=
  UInt64.ofNat ((if negative then FloatFormat.double.patterns else 0) + pattern)

/-- Whether the sign is negative, which zero can be. -/
def isNegative (x : Double) : Bool := (FloatFormat.double.split x.toNat).1

/-- The pattern of the magnitude. -/
def magnitude (x : Double) : Nat := (FloatFormat.double.split x.toNat).2

/-- Whether the bits stand for no number. -/
def isNaN (x : Double) : Bool := FloatFormat.double.infinity < x.magnitude

/-- Whether the magnitude is infinity. -/
def isInfinite (x : Double) : Bool := x.magnitude = FloatFormat.double.infinity

/-- The pattern that stands for no number. -/
def notANumber : Nat := 0x7ff8000000000000

/-- The number that bits of a format stand for. What is no number stays so. -/
def ofBits (f : FloatFormat) (bits : Nat) : Double :=
  let (negative, pattern) := f.split bits
  if pattern = f.infinity then ofParts negative FloatFormat.double.infinity
  else if f.infinity < pattern then ofParts negative notANumber
  else ofParts negative ((FloatFormat.double.round (f.value pattern)).getD 0)

end Double

/-- The pattern, in the 64-bit format, of a magnitude of that format rounded to another. -/
def FloatFormat.narrow (f : FloatFormat) (pattern : Nat) : Option Nat :=
  (f.round (FloatFormat.double.value pattern)).bind fun p => FloatFormat.double.round (f.value p)

end BinRecord
