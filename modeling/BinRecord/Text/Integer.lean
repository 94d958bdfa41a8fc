/-
Integers in decimal. A run of digits is read, and an integer written, unless it has too many digits.
A user may type blanks around an integer, one sign, then decimal digits of any script, between which
single underscores may stand.
-/
import BinRecord.Failure
import BinRecord.Text.Blank
import BinRecord.Text.DecimalDigit

namespace BinRecord.Text

/-! ## Typed integers -/

/-- The value of digits read after `n`, where a digit has just been read. -/
def readDigits (n : Nat) : List Char → Option Nat
  | [] => some n
  | '_' :: d :: cs => (digitValue? d).bind fun v => readDigits (10 * n + v) cs
  | d :: cs => (digitValue? d).bind fun v => readDigits (10 * n + v) cs

/-- The value of a run of digits without a sign. -/
def readNatural : List Char → Option Nat
  | [] => none
  | d :: cs => (digitValue? d).bind fun v => readDigits v cs

/-- The integer that a typed text stands for. -/
def readInteger (s : String) : Option Int :=
  let cs := trimBlanks s.toList
  if digitLimit < cs.countP fun c => (digitValue? c).isSome then none
  else
    match cs with
    | '-' :: cs => (readNatural cs).map fun n => -(n : Int)
    | '+' :: cs => (readNatural cs).map fun n => (n : Int)
    | cs => (readNatural cs).map fun n => (n : Int)

/-! ## Digits -/

/-- The value of a run of ASCII digits, zero for none. -/
def decimalValue (cs : List Char) : Nat := cs.foldl (fun n c => 10 * n + (c.toNat - '0'.toNat)) 0

/-- A run of digits is short enough to be read. -/
def Readable (cs : List Char) : Prop := cs.length ≤ digitLimit

instance (cs : List Char) : Decidable (Readable cs) := inferInstanceAs (Decidable (_ ≤ _))

/-- Reads a run of ASCII digits. -/
def readDecimal {ε : Type} (cs : List Char) : Except (Failure ε) Nat :=
  if Readable cs then .ok (decimalValue cs) else .error (.escaped (.unreadable cs.length))

theorem readDecimal_eq_ok {ε : Type} {cs : List Char} {n : Nat} :
    (readDecimal cs : Except (Failure ε) Nat) = .ok n ↔ Readable cs ∧ n = decimalValue cs := by
  unfold readDecimal
  split
  · rename_i h
    simp [h, eq_comm]
  · rename_i h
    simp [h]

theorem readDecimal_eq_error {ε : Type} {cs : List Char} {e : Failure ε} :
    readDecimal cs = .error e ↔ ¬ Readable cs ∧ e = .escaped (.unreadable cs.length) := by
  unfold readDecimal
  split
  · rename_i h
    simp [h]
  · rename_i h
    simp [h, eq_comm]

/-- The decimal digits of an integer, after a minus sign if it is negative. -/
def decimal (n : Int) : List Char :=
  (if n < 0 then ['-'] else []) ++ Nat.toDigits 10 n.natAbs

/-- Whether an integer has few enough digits to be written. -/
def isWritable (n : Int) : Bool := (Nat.toDigits 10 n.natAbs).length ≤ digitLimit

end BinRecord.Text
