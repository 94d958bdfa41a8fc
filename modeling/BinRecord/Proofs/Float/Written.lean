/-
The text of a finite number of a format reads back: it is a number in JSON, and the decimal that it denotes is read at
the width of the format as the number, sign included.
-/
import BinRecord.Proofs.Json.Numeral

namespace BinRecord

/-! ## Signs and magnitudes -/

namespace Double

theorem toNat_ofParts {negative : Bool} {pattern : ℕ} (h : pattern < FloatFormat.double.patterns) :
    (ofParts negative pattern).toNat = (if negative then FloatFormat.double.patterns else 0) + pattern := by
  rw [show FloatFormat.double.patterns = 2 ^ 63 from rfl] at h
  rw [ofParts, show FloatFormat.double.patterns = 2 ^ 63 from rfl, UInt64.toNat_ofNat']
  apply Nat.mod_eq_of_lt
  split <;> omega

theorem isNegative_ofParts {negative : Bool} {pattern : ℕ} (h : pattern < FloatFormat.double.patterns) :
    (ofParts negative pattern).isNegative = negative := by
  rw [isNegative, FloatFormat.split, toNat_ofParts h]
  cases negative with
  | true => simp
  | false => simpa using h

theorem magnitude_ofParts {negative : Bool} {pattern : ℕ} (h : pattern < FloatFormat.double.patterns) :
    (ofParts negative pattern).magnitude = pattern := by
  rw [magnitude, FloatFormat.split, toNat_ofParts h]
  cases negative with
  | true => simpa using Nat.mod_eq_of_lt h
  | false => simpa using Nat.mod_eq_of_lt h

/-- A number is its sign and its magnitude. -/
theorem ofParts_self (x : Double) : ofParts x.isNegative x.magnitude = x := by
  have hx : x.toNat < 2 ^ 64 := x.toNat_lt
  have hmagnitude : x.magnitude = x.toNat % 2 ^ 63 := rfl
  apply UInt64.toNat_inj.1
  rw [toNat_ofParts (hmagnitude ▸ Nat.mod_lt _ (by decide)), hmagnitude, isNegative, FloatFormat.split,
    show FloatFormat.double.patterns = 2 ^ 63 from rfl]
  by_cases h : 2 ^ 63 ≤ x.toNat
  · simp only [h, decide_true, if_true]
    omega
  · simp only [h, decide_false, Bool.false_eq_true, if_false]
    omega

end Double

namespace FloatFormat

variable {f : FloatFormat} {x : Double}

/-- The number is finite and one of the format. -/
def Holds (f : FloatFormat) (x : Double) : Prop := ∃ p < f.infinity, f.toRat p = double.toRat x.magnitude

/-- A sign and a number without one are read as a number of the format. -/
def Reads (f : FloatFormat) (negative : Bool) (q : ℚ) (x : Double) : Prop :=
  ∃ m, f.ReadsAs q m ∧ x = Double.ofParts negative m

theorem Holds.finite (h : f.Holds x) : x.magnitude < double.infinity := by
  obtain ⟨p, hp, he⟩ := h
  exact finite_of_toRat_eq hp he

theorem Holds.readsAs (h : f.Holds x) : f.ReadsAs (double.toRat x.magnitude) x.magnitude := by
  obtain ⟨p, hp, he⟩ := h
  exact readsAs_toRat hp he

/-- Whether a number is one of the format can be computed: it is if it stays as it is at the width of the format. -/
theorem holds_iff : f.Holds x ↔ x.magnitude < double.infinity ∧ f.narrow x.magnitude = some x.magnitude := by
  rw [narrow_eq_some_iff]
  constructor
  · rintro ⟨p, hp, he⟩
    exact ⟨finite_of_toRat_eq hp he, p, he ▸ nearest_toRat hp, he⟩
  · rintro ⟨-, p, hp, he⟩
    exact ⟨p, hp.finite, he⟩

theorem lt_patterns {m : ℕ} (h : m < double.infinity) : m < double.patterns := h.trans (by decide)

theorem reads_iff {negative : Bool} {q : ℚ} :
    f.Reads negative q x ↔ negative = x.isNegative ∧ f.ReadsAs q x.magnitude := by
  constructor
  · rintro ⟨m, hm, rfl⟩
    have hlt : m < double.patterns := by
      obtain ⟨c, p, -, hp, h⟩ := hm
      exact lt_patterns (finite_of_toRat_eq hp.finite h)
    rw [Double.isNegative_ofParts hlt, Double.magnitude_ofParts hlt]
    exact ⟨rfl, hm⟩
  · rintro ⟨rfl, h⟩
    exact ⟨_, h, x.ofParts_self.symm⟩

/-! ## What is written -/

/-- What an approximation gives for the number that is to be written. -/
theorem approximation_eq_some_iff {d : Decimal} {m c : ℕ} :
    ((double.round d.value).bind fun candidate => if f.narrow candidate = some m then some candidate else none) =
      some c ↔ double.Nearest d.toRat c ∧ f.narrow c = some m := by
  rw [Option.bind_eq_some_iff]
  simp only [round_eq_some_iff (Decimal.den_value d), Decimal.toRat_value]
  constructor
  · rintro ⟨candidate, hnearest, h⟩
    by_cases hnarrow : f.narrow candidate = some m
    · rw [if_pos hnarrow, Option.some.injEq] at h
      exact h ▸ ⟨hnearest, hnarrow⟩
    · rw [if_neg hnarrow] at h
      cases h
  · rintro ⟨hnearest, hnarrow⟩
    exact ⟨c, hnearest, if_pos hnarrow⟩

/-- The magnitude that is written is read as the number. -/
theorem readsAs_writtenMagnitude (h : f.Holds x) :
    f.ReadsAs (double.toRat (Double.writtenMagnitude f x.magnitude)) x.magnitude ∧
      Double.writtenMagnitude f x.magnitude < double.infinity := by
  unfold Double.writtenMagnitude
  by_cases hf : f = double
  · rw [if_pos hf]
    exact ⟨h.readsAs, h.finite⟩
  rw [if_neg hf]
  generalize hfind : List.findSome? _ _ = found
  cases found with
  | none => exact ⟨h.readsAs, h.finite⟩
  | some c =>
    obtain ⟨d, -, hd⟩ := List.exists_of_findSome?_eq_some hfind
    obtain ⟨hnearest, hnarrow⟩ := approximation_eq_some_iff.1 hd
    exact ⟨(narrow_eq_some_iff_readsAs hnearest.finite).1 hnarrow, hnearest.finite⟩

/-- The text of a finite number is that of the decimal chosen for the magnitude that is written, after its sign. -/
theorem literal_format (h : f.Holds x) :
    Json.IsNumber (x.format f) ∧ Json.literalSign (x.format f) = x.isNegative ∧
      (Json.literalDecimal (x.format f)).toRat =
        (double.shortest (Double.writtenMagnitude f x.magnitude)).toRat := by
  obtain ⟨-, hlt⟩ := readsAs_writtenMagnitude h
  have hnan : ¬ x.isNaN = true := by
    rw [Double.isNaN, decide_eq_true_eq]
    exact h.finite.le.not_gt
  have hinf : ¬ x.isInfinite = true := by
    rw [Double.isInfinite, decide_eq_true_eq]
    exact h.finite.ne
  rw [Double.format, if_neg hnan, if_neg hinf, Double.text, Double.isNegative_ofParts (lt_patterns hlt),
    Double.magnitude_ofParts (lt_patterns hlt)]
  generalize double.shortest (Double.writtenMagnitude f x.magnitude) = d
  have hminus : Json.IsMinus (if x.isNegative then ['-'] else []) := by
    cases x.isNegative with
    | true => exact .minus
    | false => exact .none
  obtain ⟨hsign, hvalue⟩ := Json.literal_text hminus d
  refine ⟨Json.isNumber_decimalText hminus d, ?_, hvalue⟩
  rw [hsign]
  cases x.isNegative <;> rfl

/-- The text of a finite number of a format is a number in JSON, and the decimal that it denotes is read as the number:
it goes to the nearest number of 64 bits, that to the nearest of the format, and the sign stays. -/
theorem format_reads_back (h : f.Holds x) :
    Json.IsNumber (x.format f) ∧
      f.Reads (Json.literalSign (x.format f)) (Json.literalDecimal (x.format f)).toRat x := by
  obtain ⟨hnumber, hsign, hvalue⟩ := literal_format h
  obtain ⟨hread, hlt⟩ := readsAs_writtenMagnitude h
  refine ⟨hnumber, reads_iff.2 ⟨hsign, ?_⟩⟩
  rw [hvalue]
  exact hread.of_nearest (nearest_shortest hlt)

/-- The number of 32 bits next to minus a tenth. -/
theorem format_reads_back_tenth : single.Holds 0xbfb99999a0000000 ∧
    Double.format 0xbfb99999a0000000 single = "-0.1".toList ∧ single.Reads true (1 / 10) 0xbfb99999a0000000 := by
  have hholds : single.Holds 0xbfb99999a0000000 := holds_iff.2 (by decide +kernel)
  have htext : Double.format 0xbfb99999a0000000 single = "-0.1".toList := by decide +kernel
  obtain ⟨-, hreads⟩ := format_reads_back hholds
  rw [htext] at hreads
  have hvalue : (Json.literalDecimal "-0.1".toList).toRat = 1 / 10 := by
    rw [show Json.literalDecimal "-0.1".toList = ⟨1, -1⟩ by decide, Decimal.toRat]
    norm_num
  rw [hvalue] at hreads
  exact ⟨hholds, htext, hreads⟩

end FloatFormat

end BinRecord
