/-
The decimal digits of a number: they write it, and their number bounds it. So a number can be written exactly if it
is small enough, and one that was read can be written again.
-/
import BinRecord.Text.Integer
import Mathlib.Tactic

namespace BinRecord.Text

/-! ## The value of digits -/

theorem decimalValue_append (v w : List Char) :
    decimalValue (v ++ w) = decimalValue v * 10 ^ w.length + decimalValue w := by
  change Nat.ofDigitChars 10 (v ++ w) 0 = Nat.ofDigitChars 10 v 0 * _ + Nat.ofDigitChars 10 w 0
  rw [Nat.ofDigitChars_append, Nat.ofDigitChars_eq_ofDigitChars_zero, Nat.mul_comm]

theorem decimalValue_zeros (n : Nat) : decimalValue (List.replicate n '0') = 0 := by
  change Nat.ofDigitChars 10 _ 0 = 0
  rw [Nat.ofDigitChars_replicate_zero, Nat.mul_zero]

theorem decimalValue_toDigits (n : Nat) : decimalValue (Nat.toDigits 10 n) = n := Nat.ofDigitChars_ten_toDigits

theorem decimalValue_repr (n : Nat) : decimalValue n.repr.toList = n := by
  rw [Nat.toList_repr, decimalValue_toDigits]

theorem decimalValue_lt {cs : List Char} (h : cs.all Char.isDigit = true) : decimalValue cs < 10 ^ cs.length := by
  induction cs using List.reverseRecOn with
  | nil => exact Nat.one_pos
  | append_singleton cs c ih =>
    simp only [List.all_append, List.all_cons, List.all_nil, Bool.and_true, Bool.and_eq_true,
      Char.isDigit_iff_toNat] at h
    have hcs := ih h.1
    have hvalue : decimalValue (cs ++ [c]) = 10 * decimalValue cs + (c.toNat - '0'.toNat) := by simp [decimalValue]
    have hzero : '0'.toNat = 48 := rfl
    have hnine : '9'.toNat = 57 := rfl
    rw [hvalue, List.length_append, List.length_singleton, pow_succ]
    omega

/-! ## Numbers with few enough digits -/

/-- A number that was read can be read again from its own figures, which have no zeros in front. -/
theorem readable_repr {cs : List Char} (hcs : cs.all Char.isDigit = true) (h : Readable cs) :
    Readable (decimalValue cs).repr.toList := by
  rw [Nat.toList_repr]
  refine Nat.toDigits_length _ _ _ (by decide) ?_
  exact (decimalValue_lt hcs).trans_le (Nat.pow_le_pow_right (by decide) h)

theorem isWritable_iff {n : Int} : isWritable n = true ↔ n.natAbs < 10 ^ digitLimit := by
  rw [isWritable, decide_eq_true_eq]
  exact Nat.length_toDigits_le_iff (by decide) (by decide)

theorem isWritable_of_le {m n : Int} (h : m.natAbs ≤ n.natAbs) (hn : isWritable n = true) : isWritable m = true :=
  isWritable_iff.2 (h.trans_lt (isWritable_iff.1 hn))

end BinRecord.Text
