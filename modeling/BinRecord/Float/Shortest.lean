/-
Decimal text of floating-point numbers. Among the decimals that read back as the number the text has
the fewest digits, and of those it is the nearest. Numbers from one ten-thousandth up to ten to the
sixteenth are written with a point and at least one digit after it; others have one digit before the
point and an exponent of at least two digits.
-/
import BinRecord.Float.Format

namespace BinRecord

/-- The decimal number `digits · 10 ^ exponent`. -/
structure Decimal where
  digits : Nat
  exponent : Int
  deriving DecidableEq, Repr

namespace Decimal

/-- The fraction that a decimal stands for. -/
def value (d : Decimal) : Ratio := Ratio.scaled d.digits 10 d.exponent

/-- The decimal without zeros at its end. -/
def trim (d : Decimal) : Decimal :=
  let ds := (Nat.toDigits 10 d.digits).reverse
  let zeros := if d.digits = 0 then 0 else (ds.takeWhile (· = '0')).length
  ⟨d.digits / Nat.pow 10 zeros, d.exponent + zeros⟩

/-- The decimal with a given exponent nearest to a fraction, the even one of two. -/
def nearest (exponent : Int) (r : Ratio) : Decimal := ⟨(r.shift 10 (-exponent)).round, exponent⟩

/-- The text of a decimal: with a point while its first digit stands for a power from ten to the
minus fourth to ten to the fifteenth, otherwise with an exponent. -/
def text (d : Decimal) : List Char :=
  let d := d.trim
  let ds := Nat.toDigits 10 d.digits
  let point : Int := ds.length + d.exponent
  if d.digits = 0 then "0.0".toList
  else if -4 < point && point ≤ 16 then
    if point ≤ 0 then '0' :: '.' :: List.replicate (-point).toNat '0' ++ ds
    else if ds.length ≤ point then ds ++ List.replicate (point - ds.length).toNat '0' ++ ['.', '0']
    else ds.take point.toNat ++ '.' :: ds.drop point.toNat
  else
    let power := point - 1
    let exponent := Nat.toDigits 10 power.natAbs
    let fraction := match ds.drop 1 with
      | [] => []
      | rest => '.' :: rest
    ds.take 1 ++ fraction ++ 'e' :: (if power < 0 then '-' else '+') ::
      List.replicate (2 - exponent.length) '0' ++ exponent

end Decimal

namespace FloatFormat

/-- The exponents of decimals of one digit, two digits and so on to seventeen, for a positive
fraction. -/
def exponents (r : Ratio) : List Int :=
  let first := r.log10
  (List.range 17).map fun (more : Nat) => first - more

/-- Of the two decimals with a given exponent around a positive magnitude, those that read back as
it; the nearer of them, the even one at equal distance. -/
def decimalOf? (f : FloatFormat) (pattern : Nat) (exponent : Int) : Option Decimal :=
  let scaled := (f.value pattern).shift 10 (-exponent)
  let near := scaled.round
  let far := if near = scaled.floor then near + 1 else scaled.floor
  [near, far].findSome? fun n =>
    let d : Decimal := ⟨n, exponent⟩
    if f.round d.value = some pattern then some d else none

/-- The decimal of fewest digits that reads back as a magnitude below infinity. -/
def shortest (f : FloatFormat) (pattern : Nat) : Decimal :=
  if pattern = 0 then ⟨0, 0⟩
  else
    let r := f.value pattern
    ((exponents r).findSome? (f.decimalOf? pattern)).getD (.nearest (r.log10 - 16) r)

end FloatFormat

namespace Double

/-- The text of a number that is finite, at full width. -/
def text (x : Double) : List Char :=
  (if x.isNegative then ['-'] else []) ++ (FloatFormat.double.shortest x.magnitude).text

/-- The decimals of one digit, two digits and so on to seventeen that lie nearest to a magnitude. -/
def approximations (pattern : Nat) : List Decimal :=
  if pattern = 0 then [⟨0, 0⟩]
  else
    let r := FloatFormat.double.value pattern
    (FloatFormat.exponents r).map fun exponent => .nearest exponent r

/-- The magnitude to write for a number of a narrower format: that of the first approximation that
reads back as the number after rounding to the format, or else the number's own. -/
def writtenMagnitude (f : FloatFormat) (pattern : Nat) : Nat :=
  if f = .double then pattern
  else
    ((approximations pattern).findSome? fun d =>
      (FloatFormat.double.round d.value).bind fun candidate =>
        if f.narrow candidate = some pattern then some candidate else none).getD pattern

/-- The text of a number of a format. What is not finite is written as a word in quotes. -/
def format (x : Double) (f : FloatFormat) : List Char :=
  if x.isNaN then "\"NaN\"".toList
  else if x.isInfinite then
    if x.isNegative then "\"-Infinity\"".toList else "\"Infinity\"".toList
  else text (ofParts x.isNegative (writtenMagnitude f x.magnitude))

end Double

end BinRecord
