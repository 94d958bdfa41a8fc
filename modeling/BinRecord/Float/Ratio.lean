/-
Non-negative fractions, exact: the common ground of binary and decimal numbers. Rounding goes to the
nearest whole number, and from the middle between two to the even one.
-/
namespace BinRecord

/-- The fraction `num / den`; `den` is positive in every fraction built here. -/
structure Ratio where
  num : Nat
  den : Nat
  deriving DecidableEq, Repr

namespace Ratio

/-- The fraction `n · base ^ k`. -/
def scaled (n base : Nat) (k : Int) : Ratio :=
  ⟨n * Nat.pow base k.toNat, Nat.pow base (-k).toNat⟩

/-- The fraction times `base ^ k`. -/
def shift (r : Ratio) (base : Nat) (k : Int) : Ratio :=
  ⟨r.num * Nat.pow base k.toNat, r.den * Nat.pow base (-k).toNat⟩

/-- Whether one fraction is at most the other. -/
def le (a b : Ratio) : Bool := a.num * b.den ≤ b.num * a.den

/-- The largest whole number that is not above the fraction. -/
def floor (r : Ratio) : Nat := r.num / r.den

/-- The nearest whole number, the even one of two. -/
def round (r : Ratio) : Nat :=
  let q := r.num / r.den
  let rest := 2 * (r.num % r.den)
  if rest < r.den then q else if r.den < rest then q + 1 else q + q % 2

/-- The `e` with `base ^ e ≤ r < base ^ (e + 1)`, found from the lengths of both parts in that base;
`size n` is the number of digits of `n`. -/
def logWith (base : Nat) (size : Nat → Nat) (r : Ratio) : Int :=
  let e : Int := size r.num - size r.den
  if (scaled 1 base e).le r then e else e - 1

/-- The exponent of the largest power of two that is not above a positive fraction. -/
def log2 (r : Ratio) : Int := r.logWith 2 Nat.log2

/-- The exponent of the largest power of ten that is not above a positive fraction. -/
def log10 (r : Ratio) : Int := r.logWith 10 fun n => (Nat.toDigits 10 n).length

end Ratio

end BinRecord
