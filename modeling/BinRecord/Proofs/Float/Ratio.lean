/-
Fractions as rational numbers, and what is computed with them: the order, the whole numbers next to a fraction, and
the powers of two and of ten that it lies between.
-/
import BinRecord.Float.Ratio
import Mathlib.Algebra.Order.Field.Power
import Mathlib.Data.Nat.Digits.Defs
import Mathlib.Tactic

namespace BinRecord

namespace Ratio

/-- The number that a fraction is. -/
def toRat (r : Ratio) : ℚ := r.num / r.den

theorem toRat_nonneg (r : Ratio) : 0 ≤ r.toRat := by
  unfold toRat
  positivity

/-- Every number that is not negative is a fraction. -/
theorem exists_toRat_eq {q : ℚ} (hq : 0 ≤ q) : ∃ r : Ratio, r.den ≠ 0 ∧ r.toRat = q := by
  refine ⟨⟨q.num.toNat, q.den⟩, q.den_nz, ?_⟩
  have hnum : ((q.num.toNat : ℤ) : ℚ) = q.num := by rw [Int.toNat_of_nonneg (Rat.num_nonneg.2 hq)]
  calc (q.num.toNat : ℚ) / q.den = (q.num : ℚ) / q.den := by rw [← hnum, Int.cast_natCast]
    _ = q := q.num_div_den

/-! ## Powers -/

section

variable {base : ℕ} (hbase : base ≠ 0)
include hbase

/-- A power with an exponent that may be negative, as the fraction of two powers. -/
theorem pow_div_pow (k : ℤ) : (base : ℚ) ^ k.toNat / (base : ℚ) ^ (-k).toNat = (base : ℚ) ^ k := by
  have hb : (base : ℚ) ≠ 0 := by exact_mod_cast hbase
  rw [← zpow_natCast, ← zpow_natCast, ← zpow_sub₀ hb]
  congr 1
  omega

theorem toRat_scaled (n : ℕ) (k : ℤ) : (scaled n base k).toRat = n * (base : ℚ) ^ k := by
  simp only [toRat, scaled, Nat.pow_eq, Nat.cast_mul, Nat.cast_pow]
  rw [mul_div_assoc, pow_div_pow hbase]

theorem toRat_shift (r : Ratio) (k : ℤ) : (r.shift base k).toRat = r.toRat * (base : ℚ) ^ k := by
  simp only [toRat, shift, Nat.pow_eq, Nat.cast_mul, Nat.cast_pow]
  rw [mul_div_mul_comm, pow_div_pow hbase]

theorem den_scaled (n : ℕ) (k : ℤ) : (scaled n base k).den ≠ 0 := pow_ne_zero _ hbase

theorem den_shift {r : Ratio} (hr : r.den ≠ 0) (k : ℤ) : (r.shift base k).den ≠ 0 :=
  mul_ne_zero hr (pow_ne_zero _ hbase)

end

/-! ## Order and rounding -/

theorem le_iff {a b : Ratio} (ha : a.den ≠ 0) (hb : b.den ≠ 0) : a.le b = true ↔ a.toRat ≤ b.toRat := by
  have ha' : (0 : ℚ) < a.den := by positivity
  have hb' : (0 : ℚ) < b.den := by positivity
  unfold le toRat
  rw [decide_eq_true_eq, div_le_div_iff₀ ha' hb']
  exact_mod_cast Iff.rfl

/-- A fraction is its whole part and what is left over. -/
theorem toRat_eq_floor_add {r : Ratio} (hr : r.den ≠ 0) :
    r.toRat = r.floor + ((r.num % r.den : ℕ) : ℚ) / r.den := by
  have hden : (r.den : ℚ) ≠ 0 := by exact_mod_cast hr
  have hsplit : (r.num : ℚ) = r.den * r.floor + (r.num % r.den : ℕ) := by
    exact_mod_cast (Nat.div_add_mod r.num r.den).symm
  rw [toRat, hsplit, add_div, mul_div_cancel_left₀ _ hden]

theorem floor_le {r : Ratio} (hr : r.den ≠ 0) : (r.floor : ℚ) ≤ r.toRat := by
  rw [toRat_eq_floor_add hr]
  have : (0 : ℚ) ≤ ((r.num % r.den : ℕ) : ℚ) / r.den := by positivity
  linarith

theorem lt_floor_add_one {r : Ratio} (hr : r.den ≠ 0) : r.toRat < r.floor + 1 := by
  have hden : (0 : ℚ) < r.den := by positivity
  have hrest : ((r.num % r.den : ℕ) : ℚ) < r.den := by exact_mod_cast Nat.mod_lt _ (Nat.pos_of_ne_zero hr)
  have : ((r.num % r.den : ℕ) : ℚ) / r.den < 1 := by rwa [div_lt_one hden]
  rw [toRat_eq_floor_add hr]
  linarith

/-- A fraction is rounded to one of the whole numbers next to it. -/
theorem round_eq_floor_or (r : Ratio) : r.round = r.floor ∨ r.round = r.floor + 1 := by
  unfold round floor
  dsimp only
  split_ifs <;> omega

/-- A whole number is nearest to a fraction, and even if another one is as near. -/
structure IsNear (n : ℕ) (q : ℚ) : Prop where
  below : (n : ℚ) - 1 / 2 ≤ q
  above : q ≤ n + 1 / 2
  even : q = n - 1 / 2 ∨ q = n + 1 / 2 → n % 2 = 0

theorem round_isNear {r : Ratio} (hr : r.den ≠ 0) : IsNear r.round r.toRat := by
  have hden : (0 : ℚ) < r.den := by positivity
  have hsplit := toRat_eq_floor_add hr
  generalize hq : r.floor = q at hsplit
  generalize hrest : r.num % r.den = rest at hsplit
  have hlt : (rest : ℚ) / r.den < 1 := by
    have : rest < r.den := hrest ▸ Nat.mod_lt _ (Nat.pos_of_ne_zero hr)
    rw [div_lt_one hden]
    exact_mod_cast this
  have hnonneg : (0 : ℚ) ≤ (rest : ℚ) / r.den := by positivity
  have hround : r.round = if 2 * rest < r.den then q else if r.den < 2 * rest then q + 1 else q + q % 2 := by
    rw [← hq, ← hrest]
    rfl
  rw [hround]
  split_ifs with hless hmore
  · have : (rest : ℚ) / r.den < 1 / 2 := by
      rw [div_lt_div_iff₀ hden two_pos]
      exact_mod_cast (by omega : rest * 2 < 1 * r.den)
    refine ⟨by linarith, by linarith, ?_⟩
    rintro (h | h) <;> linarith
  · have : 1 / 2 < (rest : ℚ) / r.den := by
      rw [div_lt_div_iff₀ two_pos hden]
      exact_mod_cast (by omega : 1 * r.den < rest * 2)
    refine ⟨by push_cast; linarith, by push_cast; linarith, ?_⟩
    rintro (h | h) <;> push_cast at h <;> linarith
  · have hhalf : (rest : ℚ) / r.den = 1 / 2 := by
      rw [div_eq_div_iff hden.ne' two_ne_zero]
      exact_mod_cast (by omega : rest * 2 = 1 * r.den)
    have hparity : q % 2 = 0 ∨ q % 2 = 1 := by omega
    rcases hparity with h | h <;> rw [h]
    · exact ⟨by push_cast; linarith, by push_cast; linarith, fun _ => by omega⟩
    · exact ⟨by push_cast; linarith, by push_cast; linarith, fun _ => by omega⟩

/-! ## Logarithms -/

/-- The exponent is that of the largest power that is not above the fraction, if the sizes of numbers are, but for
a constant, the exponents of their largest powers. -/
theorem logWith_spec {base : ℕ} (hbase : 1 < base) {size : ℕ → ℕ} (slack : ℕ)
    (hsize : ∀ n, n ≠ 0 → base ^ size n ≤ n * base ^ slack ∧ n * base ^ slack < base ^ (size n + 1)) {r : Ratio}
    (hnum : r.num ≠ 0) (hden : r.den ≠ 0) :
    (base : ℚ) ^ r.logWith base size ≤ r.toRat ∧ r.toRat < (base : ℚ) ^ (r.logWith base size + 1) := by
  have hb : (0 : ℚ) < base := by positivity
  have hd : (0 : ℚ) < r.den := by positivity
  have hs : (0 : ℚ) < (base : ℚ) ^ slack := by positivity
  obtain ⟨hnlow, hnhigh⟩ := hsize r.num hnum
  obtain ⟨hdlow, hdhigh⟩ := hsize r.den hden
  have hnlow' : (base : ℚ) ^ size r.num ≤ r.num * (base : ℚ) ^ slack := by exact_mod_cast hnlow
  have hnhigh' : r.num * (base : ℚ) ^ slack < (base : ℚ) ^ (size r.num + 1) := by exact_mod_cast hnhigh
  have hdlow' : (base : ℚ) ^ size r.den ≤ r.den * (base : ℚ) ^ slack := by exact_mod_cast hdlow
  have hdhigh' : r.den * (base : ℚ) ^ slack < (base : ℚ) ^ (size r.den + 1) := by exact_mod_cast hdhigh
  -- the constant is the same for both parts
  have hratio : r.toRat = (r.num * (base : ℚ) ^ slack) / (r.den * (base : ℚ) ^ slack) := by
    rw [mul_div_mul_right _ _ hs.ne', toRat]
  generalize he : (size r.num : ℤ) - size r.den = e
  have hhigh : r.toRat < (base : ℚ) ^ (e + 1) := by
    rw [hratio, div_lt_iff₀ (mul_pos hd hs)]
    calc r.num * (base : ℚ) ^ slack < (base : ℚ) ^ (size r.num + 1) := hnhigh'
      _ = (base : ℚ) ^ (e + 1) * (base : ℚ) ^ size r.den := by
        rw [← zpow_natCast, ← zpow_natCast, ← zpow_add₀ hb.ne']
        congr 1
        omega
      _ ≤ (base : ℚ) ^ (e + 1) * (r.den * (base : ℚ) ^ slack) := by gcongr
  have hlow : (base : ℚ) ^ (e - 1) ≤ r.toRat := by
    rw [hratio, le_div_iff₀ (mul_pos hd hs)]
    calc (base : ℚ) ^ (e - 1) * (r.den * (base : ℚ) ^ slack) ≤ (base : ℚ) ^ (e - 1) * (base : ℚ) ^ (size r.den + 1) := by
          gcongr
      _ = (base : ℚ) ^ size r.num := by
        rw [← zpow_natCast, ← zpow_natCast, ← zpow_add₀ hb.ne']
        congr 1
        omega
      _ ≤ r.num * (base : ℚ) ^ slack := hnlow'
  have hpower : (scaled 1 base e).le r = true ↔ (base : ℚ) ^ e ≤ r.toRat := by
    rw [le_iff (den_scaled (by omega) 1 e) hden, toRat_scaled (by omega), Nat.cast_one, one_mul]
  have hlog : r.logWith base size = if (scaled 1 base e).le r = true then e else e - 1 := by
    rw [← he]
    rfl
  rw [hlog]
  by_cases h : (scaled 1 base e).le r = true
  · rw [if_pos h]
    exact ⟨hpower.1 h, hhigh⟩
  · rw [if_neg h, sub_add_cancel]
    exact ⟨hlow, not_le.1 fun h' => h (hpower.2 h')⟩

theorem log2_spec {r : Ratio} (hnum : r.num ≠ 0) (hden : r.den ≠ 0) :
    (2 : ℚ) ^ r.log2 ≤ r.toRat ∧ r.toRat < (2 : ℚ) ^ (r.log2 + 1) := by
  have hsize : ∀ n, n ≠ 0 → 2 ^ n.log2 ≤ n * 2 ^ 0 ∧ n * 2 ^ 0 < 2 ^ (n.log2 + 1) := fun n hn => by
    rw [pow_zero, mul_one]
    exact ⟨Nat.log2_self_le hn, Nat.lt_log2_self⟩
  exact_mod_cast logWith_spec one_lt_two 0 hsize hnum hden

theorem log10_spec {r : Ratio} (hnum : r.num ≠ 0) (hden : r.den ≠ 0) :
    (10 : ℚ) ^ r.log10 ≤ r.toRat ∧ r.toRat < (10 : ℚ) ^ (r.log10 + 1) := by
  -- a number with some digits has one power of ten fewer
  have hsize : ∀ n, n ≠ 0 → 10 ^ (Nat.toDigits 10 n).length ≤ n * 10 ^ 1 ∧
      n * 10 ^ 1 < 10 ^ ((Nat.toDigits 10 n).length + 1) := fun n hn => by
    obtain ⟨k, hk⟩ := Nat.exists_eq_succ_of_ne_zero (Nat.length_toDigits_pos (b := 10) (n := n)).ne'
    have hhigh : n < 10 ^ (k + 1) := (Nat.length_toDigits_le_iff (by decide) (by omega)).1 hk.le
    have hlow : 10 ^ k ≤ n := by
      by_contra hlt
      rcases Nat.eq_zero_or_pos k with rfl | hpos
      · omega
      · have := (Nat.length_toDigits_le_iff (by decide) hpos).2 (not_le.1 hlt)
        omega
    rw [hk, Nat.succ_eq_add_one, pow_one]
    exact ⟨by rw [pow_succ]; omega, by rw [pow_succ]; omega⟩
  exact_mod_cast logWith_spec (by decide) 1 hsize hnum hden

end Ratio

end BinRecord
