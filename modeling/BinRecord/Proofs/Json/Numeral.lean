/-
The decimal number that a number literal denotes, exactly. The text of a decimal denotes the same number as the decimal.
-/
import BinRecord.Proofs.Float.Shortest
import BinRecord.Proofs.Json.Scalar
import BinRecord.Proofs.Json.Unambiguous

namespace BinRecord

namespace Json

/-- Whether a literal has a minus sign. -/
def literalSign (w : List Char) : Bool := w.head? = some '-'

/-- What a literal denotes, its sign apart: the whole number that all its digits before the exponent write, with an
exponent that is less by one for each digit behind the point. -/
def literalDecimal (w : List Char) : Decimal :=
  let mantissa := w.takeWhile fun c => c ≠ 'e' && c ≠ 'E'
  let fraction := (mantissa.dropWhile (· ≠ '.')).drop 1
  ⟨Text.decimalValue (mantissa.filter Char.isDigit), exponentValue (w.drop (mantissa.length + 1)) - fraction.length⟩

example : literalDecimal "-12.50e-3".toList = ⟨1250, -5⟩ := by decide

/-! ## Zeros at the end -/

/-- The zeros at the end of the digits of a number say how often ten divides it. -/
theorem pow_zeros_dvd {n : ℕ} (hn : n ≠ 0) :
    10 ^ ((Nat.toDigits 10 n).reverse.takeWhile (· = '0')).length ∣ n := by
  induction n using Nat.strongRecOn with
  | ind n ih =>
    rw [Nat.toDigits_eq_if (by decide)]
    by_cases hsmall : n < 10
    · rw [if_pos hsmall, List.reverse_singleton, List.takeWhile_cons_of_neg (by simpa using hn)]
      exact one_dvd n
    · rw [if_neg hsmall, List.reverse_append, List.reverse_singleton, List.singleton_append]
      by_cases hlast : n % 10 = 0
      · have hmore := ih (n / 10) (by omega) (by omega)
        rw [hlast, List.takeWhile_cons_of_pos (by decide), List.length_cons, pow_succ]
        have hsplit : n = n / 10 * 10 := by omega
        conv_rhs => rw [hsplit]
        exact Nat.mul_dvd_mul_right hmore 10
      · rw [List.takeWhile_cons_of_neg (by simpa using hlast)]
        exact one_dvd n

theorem toRat_trim (d : Decimal) : d.trim.toRat = d.toRat := by
  unfold Decimal.trim Decimal.toRat
  dsimp only
  by_cases hd : d.digits = 0
  · simp [hd]
  · rw [if_neg hd]
    obtain ⟨k, hk⟩ := pow_zeros_dvd hd
    generalize ((Nat.toDigits 10 d.digits).reverse.takeWhile (· = '0')).length = zeros at hk
    rw [hk, Nat.pow_eq, Nat.mul_div_cancel_left _ (by positivity), zpow_add₀ (by decide), zpow_natCast]
    push_cast
    ring

/-! ## Literals -/

variable {minus whole fraction exponent : List Char}

theorem filter_digits {w : List Char} (h : Digits w) : w.filter Char.isDigit = w := List.filter_eq_self.2 h

theorem literalSign_eq (hminus : IsMinus minus) (hwhole : IsWhole whole) (rest : List Char) :
    literalSign (minus ++ (whole ++ rest)) = !minus.isEmpty := by
  cases hminus with
  | minus => rfl
  | none =>
    cases hwhole with
    | zero => rfl
    | positive hd =>
      simp only [literalSign, List.nil_append, List.cons_append, List.head?_cons, List.isEmpty_nil, Bool.not_true,
        decide_eq_false_iff_not, Option.some.injEq]
      rintro rfl
      cases hd

/-- The digits of a literal before its exponent are those before and those behind the point. -/
theorem filter_mantissa (hminus : IsMinus minus) (hwhole : IsWhole whole) (hfraction : IsFraction fraction) :
    (minus ++ (whole ++ fraction)).filter Char.isDigit = whole ++ fraction.drop 1 := by
  have hsign : minus.filter Char.isDigit = [] := by cases hminus <;> rfl
  have hbehind : fraction.filter Char.isDigit = fraction.drop 1 := by
    cases hfraction with
    | none => rfl
    | digits hds =>
      rw [List.filter_cons_of_neg (by decide), filter_digits hds]
      rfl
  rw [List.filter_append, List.filter_append, hsign, filter_digits hwhole.digits, hbehind, List.nil_append]

/-- A literal denotes what its parts say. -/
theorem literalDecimal_eq (hminus : IsMinus minus) (hwhole : IsWhole whole) (hfraction : IsFraction fraction)
    (hexponent : IsExponent exponent) :
    literalDecimal (minus ++ (whole ++ (fraction ++ exponent))) =
      ⟨Text.decimalValue (whole ++ fraction.drop 1), exponentValue (exponent.drop 1) - (fraction.drop 1).length⟩ := by
  have hfilter := filter_mantissa hminus hwhole hfraction
  have hall : minus ++ (whole ++ (fraction ++ exponent)) = minus ++ (whole ++ fraction) ++ exponent := by
    simp only [List.append_assoc]
  -- no part but the exponent has its letter, and the fraction alone a point
  have hother {c : Char} (hc : c.isDigit = false) (hc' : c ≠ '-') : c ∉ minus ++ whole := by
    rw [List.mem_append, not_or]
    refine ⟨?_, hwhole.digits.notMem hc⟩
    cases hminus with
    | none => exact List.not_mem_nil
    | minus => simpa using hc'
  have hletter {c : Char} (hc : c.isDigit = false) (hc' : c ≠ '-') (hc'' : c ≠ '.') :
      c ∉ minus ++ (whole ++ fraction) := by
    rw [← List.append_assoc, List.mem_append, not_or]
    refine ⟨hother hc hc', ?_⟩
    cases hfraction with
    | none => exact List.not_mem_nil
    | digits hds => simpa [hc''] using Digits.notMem hds hc
  have htake : (minus ++ (whole ++ fraction) ++ exponent).takeWhile (fun c => c ≠ 'e' && c ≠ 'E') =
      minus ++ (whole ++ fraction) := by
    rw [List.takeWhile_append_of_pos]
    · cases hexponent with
      | none => simp
      | unsigned he => rcases he with rfl | rfl <;> simp
      | signed he => rcases he with rfl | rfl <;> simp
    · intro c hc
      rw [Bool.and_eq_true, decide_eq_true_eq, decide_eq_true_eq]
      constructor <;> rintro rfl
      · exact hletter (by decide) (by decide) (by decide) hc
      · exact hletter (by decide) (by decide) (by decide) hc
  have hpoint : ((minus ++ (whole ++ fraction)).dropWhile (· ≠ '.')).drop 1 = fraction.drop 1 := by
    rw [← List.append_assoc, List.dropWhile_append_of_pos]
    · cases hfraction <;> simp
    · intro c hc
      rw [decide_eq_true_eq]
      rintro rfl
      exact hother (by decide) (by decide) hc
  unfold literalDecimal
  dsimp only
  rw [hall, htake, hfilter, hpoint, ← List.drop_drop, List.drop_left]

/-- What writes a decimal denotes it. -/
theorem IsDecimal.denotes {w : List Char} {d : Decimal} (h : IsDecimal w d) (hminus : IsMinus minus) :
    literalSign (minus ++ w) = !minus.isEmpty ∧ (literalDecimal (minus ++ w)).toRat = d.toRat := by
  cases h with
  | zero hd =>
    have hfraction : IsFraction ['.', '0'] := .digits digits_zero (by simp)
    have hliteral := literalDecimal_eq hminus .zero hfraction .none
    refine ⟨literalSign_eq hminus .zero _, ?_⟩
    change (literalDecimal (minus ++ (['0'] ++ (['.', '0'] ++ [])))).toRat = d.toRat
    rw [hliteral, Decimal.toRat, Decimal.toRat, hd]
    simp [Text.decimalValue]
  | parts zeros hwhole hfraction hexponent hw hdigits hpower =>
    rw [hw]
    refine ⟨literalSign_eq hminus hwhole _, ?_⟩
    rw [literalDecimal_eq hminus hwhole hfraction hexponent, hdigits, hpower, Decimal.toRat, Decimal.toRat,
      zpow_sub₀ (by decide), zpow_natCast]
    push_cast
    field_simp

/-- The text of a decimal denotes the decimal. -/
theorem literal_text (hminus : IsMinus minus) (d : Decimal) :
    literalSign (minus ++ d.text) = !minus.isEmpty ∧ (literalDecimal (minus ++ d.text)).toRat = d.toRat := by
  rw [← toRat_trim d]
  exact (isDecimal_text d).denotes hminus

end Json

end BinRecord
