/-
What is written for numbers, texts and bytes. The digits of an integer have no zero in front, the text of a decimal
writes its digits with some zeros and its exponent (`IsDecimal`), and strings have nothing in them that would end them
early.
-/
import BinRecord.Proofs.Json.Grammar
import BinRecord.Proofs.Text.Integer
import BinRecord.Value.Json

namespace BinRecord

namespace Json

/-- The literal of an integer: a minus sign before its digits if it is below zero. -/
inductive IsInteger : List Char → Int → Prop
  | natural {w : List Char} : IsWhole w → IsInteger w (Text.decimalValue w)
  | negative {w : List Char} : IsWhole w → IsInteger ('-' :: w) (-(Text.decimalValue w : Int))

/-- The whole number that the digits of an exponent and the sign before them write. -/
def exponentValue : List Char → Int
  | '-' :: ds => -(Text.decimalValue ds : Int)
  | '+' :: ds => Text.decimalValue ds
  | ds => Text.decimalValue ds

/-- A literal without a sign that writes a decimal: its digits are those of the decimal and some zeros behind them, and
its exponent, less by one for each digit behind the point, is that of the decimal, less by the number of these zeros. -/
inductive IsDecimal : List Char → Decimal → Prop
  | zero {d : Decimal} : d.digits = 0 → IsDecimal ['0', '.', '0'] d
  | parts {w whole fraction exponent : List Char} {d : Decimal} (zeros : Nat) : IsWhole whole → IsFraction fraction →
      IsExponent exponent → w = whole ++ (fraction ++ exponent) →
      Text.decimalValue (whole ++ fraction.drop 1) = d.digits * 10 ^ zeros →
      exponentValue (exponent.drop 1) - (fraction.drop 1).length = d.exponent - zeros → IsDecimal w d

/-! ## Digits -/

theorem digits_toDigits (n : Nat) : Digits (Nat.toDigits 10 n) :=
  fun _ hc => Nat.isDigit_of_mem_toDigits (by decide) (by decide) hc

theorem digits_zeros (n : Nat) : Digits (List.replicate n '0') := by
  intro c hc
  rw [List.eq_of_mem_replicate hc]
  decide

theorem digits_zero : Digits ['0'] := digits_zeros 1

theorem Digits.notMem {w : List Char} (h : Digits w) {c : Char} (hc : c.isDigit = false) : c ∉ w := by
  intro hmem
  rw [h c hmem] at hc
  cases hc

theorem Digits.append {v w : List Char} (hv : Digits v) (hw : Digits w) : Digits (v ++ w) :=
  List.forall_mem_append.2 ⟨hv, hw⟩

/-- The first digit of a positive number is no zero. -/
theorem exists_toDigits_cons {n : Nat} (hn : n ≠ 0) :
    ∃ d ds, Nat.toDigits 10 n = d :: ds ∧ d.isDigit = true ∧ d ≠ '0' ∧ Digits ds := by
  induction n using Nat.strongRecOn with
  | ind n ih =>
    have hdigits := digits_toDigits n
    rw [Nat.toDigits_eq_if (by decide)] at hdigits ⊢
    split at hdigits
    · rw [if_pos ‹_›]
      exact ⟨_, [], rfl, hdigits _ (List.mem_cons_self ..), by simpa using hn, List.forall_mem_nil _⟩
    · rw [if_neg ‹_›]
      obtain ⟨d, ds, h, hd, hne, -⟩ := ih (n / 10) (by omega) (by omega)
      rw [h, List.cons_append] at hdigits ⊢
      exact ⟨d, _, rfl, hd, hne, fun c hc => hdigits c (List.mem_cons_of_mem _ hc)⟩

theorem IsInteger.isNumber {w : List Char} {n : Int} (h : IsInteger w n) : IsNumber w := by
  cases h with
  | natural hw => simpa using IsNumber.mk .none hw .none .none
  | negative hw => simpa using IsNumber.mk .minus hw .none .none

theorem isExponent_power (power : Int) : IsExponent ('e' :: (if power < 0 then '-' else '+') ::
    (List.replicate (2 - (Nat.toDigits 10 power.natAbs).length) '0' ++ Nat.toDigits 10 power.natAbs)) := by
  have hdigits := (digits_zeros (2 - (Nat.toDigits 10 power.natAbs).length)).append (digits_toDigits power.natAbs)
  have hsign : (if power < 0 then '-' else '+') = '+' ∨ (if power < 0 then '-' else '+') = '-' := by split <;> simp
  exact .signed (.inl rfl) hsign hdigits (by simp)

/-- The written exponent is read as the power. -/
theorem exponentValue_power (power : Int) : exponentValue ((if power < 0 then '-' else '+') ::
    (List.replicate (2 - (Nat.toDigits 10 power.natAbs).length) '0' ++ Nat.toDigits 10 power.natAbs)) = power := by
  have hvalue : Text.decimalValue (List.replicate (2 - (Nat.toDigits 10 power.natAbs).length) '0' ++
      Nat.toDigits 10 power.natAbs) = power.natAbs := by
    rw [Text.decimalValue_append, Text.decimalValue_zeros, Text.decimalValue_toDigits, zero_mul, zero_add]
  by_cases hneg : power < 0
  · rw [if_pos hneg, exponentValue, hvalue]
    omega
  · rw [if_neg hneg, exponentValue, hvalue]
    omega

section

variable {first : Char} {others : List Char} {d : Decimal} {point : Int}

/-- All digits stand behind the point. -/
theorem isDecimal_behind (hdigits : Digits (first :: others)) (hvalue : Text.decimalValue (first :: others) = d.digits)
    (hpoint : ((first :: others).length : Int) + d.exponent = point) (hle : point ≤ 0) :
    IsDecimal ('0' :: '.' :: List.replicate (-point).toNat '0' ++ first :: others) d := by
  have hfraction := IsFraction.digits ((digits_zeros (-point).toNat).append hdigits) (by simp)
  refine .parts 0 .zero hfraction .none (by simp) ?_ ?_
  · rw [List.drop_one, List.tail_cons, Text.decimalValue_append, Text.decimalValue_append, Text.decimalValue_zeros, hvalue]
    simp [Text.decimalValue]
  · simp only [List.drop_nil, exponentValue, Text.decimalValue, List.foldl_nil, List.drop_one, List.tail_cons,
      List.length_append, List.length_replicate]
    omega

/-- All digits stand before the point. -/
theorem isDecimal_before (hwhole : IsWhole (first :: others ++ List.replicate (point - (first :: others).length).toNat '0'))
    (hvalue : Text.decimalValue (first :: others) = d.digits)
    (hpoint : ((first :: others).length : Int) + d.exponent = point) (hle : (first :: others).length ≤ point) :
    IsDecimal (first :: others ++ List.replicate (point - (first :: others).length).toNat '0' ++ ['.', '0']) d := by
  generalize hzeros : (point - (first :: others).length).toNat = zeros at hwhole ⊢
  refine .parts (zeros + 1) hwhole (.digits digits_zero (by simp)) .none (by simp) ?_ ?_
  · rw [Text.decimalValue_append, Text.decimalValue_append, Text.decimalValue_zeros, hvalue, List.length_replicate]
    simp [Text.decimalValue, pow_succ, mul_assoc]
  · simp only [List.drop_nil, exponentValue, Text.decimalValue, List.foldl_nil, List.drop_one, List.tail_cons,
      List.length_singleton]
    omega

/-- The point stands between the digits, the first before it. -/
theorem isDecimal_between {k : Nat} (hwhole : IsWhole (first :: others.take k)) (hothers : Digits others)
    (hvalue : Text.decimalValue (first :: others) = d.digits)
    (hpoint : ((first :: others).length : Int) + d.exponent = k + 1) (hlt : k < others.length) :
    IsDecimal (first :: others.take k ++ '.' :: others.drop k) d := by
  have hrest : Digits (others.drop k) := fun c hc => hothers c (List.mem_of_mem_drop hc)
  refine .parts 0 hwhole (.digits hrest (by simpa using hlt)) .none (by simp) ?_ ?_
  · rw [List.drop_one, List.tail_cons, List.cons_append, List.take_append_drop, hvalue, pow_zero, mul_one]
  · rw [List.length_cons] at hpoint
    simp only [List.drop_nil, exponentValue, Text.decimalValue, List.foldl_nil, List.drop_one, List.tail_cons,
      List.length_drop]
    omega

end

/-- The text of a decimal writes the decimal without its last zeros. -/
theorem isDecimal_text (d : Decimal) : IsDecimal d.text d.trim := by
  unfold Decimal.text
  dsimp only
  generalize d.trim = d
  by_cases hn : d.digits = 0
  · rw [if_pos hn]
    exact .zero hn
  rw [if_neg hn]
  obtain ⟨first, others, h, hfirst, hne, hothers⟩ := exists_toDigits_cons hn
  have hvalue : Text.decimalValue (first :: others) = d.digits := h ▸ Text.decimalValue_toDigits d.digits
  have hwhole {ds : List Char} (hds : Digits ds) : IsWhole (first :: ds) := .positive hfirst hne hds
  rw [h]
  generalize hpoint : ((first :: others).length : Int) + d.exponent = point
  by_cases hplain : (-4 < point && point ≤ 16) = true
  · rw [if_pos hplain]
    by_cases hbehind : point ≤ 0
    · rw [if_pos hbehind]
      exact isDecimal_behind (h ▸ digits_toDigits d.digits) hvalue hpoint hbehind
    rw [if_neg hbehind]
    by_cases hbefore : ((first :: others).length : Int) ≤ point
    · rw [if_pos hbefore]
      exact isDecimal_before (hwhole (hothers.append (digits_zeros _))) hvalue hpoint hbefore
    · rw [if_neg hbefore]
      obtain ⟨k, rfl⟩ : ∃ k : Nat, point = k + 1 := ⟨point.toNat - 1, by omega⟩
      have hlt : k < others.length := by
        rw [List.length_cons] at hbefore
        omega
      have htake : Digits (others.take k) := fun c hc => hothers c (List.mem_of_mem_take hc)
      exact isDecimal_between (hwhole htake) hothers hvalue hpoint hlt
  · -- one digit stands before the point, and the exponent follows
    rw [if_neg hplain]
    have hexponent := isExponent_power (point - 1)
    have hpower := exponentValue_power (point - 1)
    have hone := hwhole (List.forall_mem_nil _)
    cases others with
    | nil =>
      refine .parts 0 hone .none hexponent (by simp) ?_ ?_
      · rw [List.drop_nil, List.append_nil, hvalue, pow_zero, mul_one]
      · rw [List.drop_one, List.tail_cons, hpower, ← hpoint]
        simp
    | cons second others =>
      refine .parts 0 hone (.digits hothers (by simp)) hexponent (by simp) ?_ ?_
      · rw [List.drop_one, List.tail_cons, List.singleton_append, hvalue, pow_zero, mul_one]
      · rw [List.drop_one, List.tail_cons, hpower, ← hpoint]
        simp only [List.drop_one, List.tail_cons, List.length_cons]
        omega

theorem IsDecimal.isNumber {minus w : List Char} {d : Decimal} (h : IsDecimal w d) (hminus : IsMinus minus) :
    IsNumber (minus ++ w) := by
  cases h with
  | zero => exact .mk hminus .zero (.digits digits_zero (by simp)) .none
  | parts _ hwhole hfraction hexponent hw => exact hw ▸ .mk hminus hwhole hfraction hexponent

theorem isNumber_decimalText {minus : List Char} (hminus : IsMinus minus) (d : Decimal) :
    IsNumber (minus ++ d.text) := (isDecimal_text d).isNumber hminus

/-- A control character has four digits, of which the first two are zeros. -/
theorem hexDigits_control : ∀ n < 0x20,
    Text.hexDigits 4 n = ['0', '0', Nat.digitChar (n / 16), Nat.digitChar (n % 16)] ∧
      unit? '0' '0' (Nat.digitChar (n / 16)) (Nat.digitChar (n % 16)) = some n := by decide +kernel

theorem piece_escapeChar (c : Char) : Piece (escapeChar c) c := by
  unfold escapeChar
  split_ifs with hmark hnewline hreturn htab hbackspace hfeed hcontrol
  · rw [Bool.or_eq_true, decide_eq_true_eq, decide_eq_true_eq] at hmark
    rcases hmark with rfl | rfl <;> exact .short rfl
  · exact hnewline ▸ .short rfl
  · exact hreturn ▸ .short rfl
  · exact htab ▸ .short rfl
  · exact hbackspace ▸ .short rfl
  · exact hfeed ▸ .short rfl
  · obtain ⟨hdigits, hunit⟩ := hexDigits_control c.toNat hcontrol
    rw [hdigits]
    exact .unit hunit
  · rw [Bool.or_eq_true, decide_eq_true_eq, decide_eq_true_eq, not_or] at hmark
    exact .plain (by omega) hmark.1 hmark.2

theorem inside_escape (cs : List Char) : Inside (escape cs) cs := by
  induction cs with
  | nil => exact .nil
  | cons c cs ih =>
    rw [escape, List.flatMap_cons]
    exact .cons (piece_escapeChar c) ih

theorem isString_string (s : String) : IsString (string s) s := .mk (inside_escape s.toList)

/-- A character that needs no escape. -/
def IsPlain (c : Char) : Prop := 0x20 ≤ c.toNat ∧ c ≠ '"' ∧ c ≠ '\\'

instance (c : Char) : Decidable (IsPlain c) := inferInstanceAs (Decidable (_ ∧ _))

end Json

end BinRecord
