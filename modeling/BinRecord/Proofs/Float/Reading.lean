/-
Reading a decimal number at the width of a format: it goes to the nearest number of 64 bits, and that to the nearest
number of the format. The decimals that are read as one number lie next to each other, and unless the number is a power
of two they lie evenly on its two sides.
-/
import BinRecord.Float.Shortest
import BinRecord.Proofs.Float.Nearest

namespace BinRecord

namespace Decimal

/-- The number that a decimal stands for. -/
def toRat (d : Decimal) : ℚ := d.digits * 10 ^ d.exponent

theorem toRat_value (d : Decimal) : d.value.toRat = d.toRat := by
  rw [value, Ratio.toRat_scaled (by decide)]
  rfl

theorem den_value (d : Decimal) : d.value.den ≠ 0 := Ratio.den_scaled (by decide) _ _

theorem toRat_nonneg (d : Decimal) : 0 ≤ d.toRat := by
  unfold toRat
  positivity

end Decimal

namespace FloatFormat

variable {f : FloatFormat} {p m : ℕ} {q : ℚ}

/-- A number is read as a magnitude of 64 bits at the width of a format: it goes to the nearest magnitude of 64 bits,
and from there to the nearest of the format, which is the same number. (At the width of 64 bits the second step leaves
everything as it is.) -/
def ReadsAs (f : FloatFormat) (q : ℚ) (m : ℕ) : Prop :=
  ∃ c p, double.Nearest q c ∧ f.Nearest (double.toRat c) p ∧ f.toRat p = double.toRat m

/-! ## Narrow numbers among those of 64 bits -/

theorem binade_le (hf : f ≠ double) : f.binade ≤ 2 ^ 23 := by
  cases f with
  | half | single => decide
  | double => exact absurd rfl hf

/-- The spacing of a narrower format in terms of one of 64 bits, for numbers with `t + 1` binary digits. -/
theorem exists_spacing (hf : f ≠ double) (s : ℕ) {t : ℕ} (ht : t ≤ 52) :
    ∃ s', f.spacing s = 2 ^ (52 - t) * double.spacing s' := by
  have hleast : -149 ≤ f.leastExponent := by
    cases f with
    | half | single => decide
    | double => exact absurd rfl hf
  refine ⟨(f.leastExponent + s + t + 1022).toNat, ?_⟩
  unfold spacing
  rw [← zpow_natCast, ← zpow_add₀ two_ne_zero, show double.leastExponent = -1074 from rfl]
  congr 1
  omega

theorem pow_log2_mul {n : ℕ} (ht : n.log2 ≤ 52) :
    2 ^ n.log2 * 2 ^ (52 - n.log2) = 2 ^ 52 ∧ 2 ^ (n.log2 + 1) * 2 ^ (52 - n.log2) = 2 ^ 53 := by
  rw [← pow_add, ← pow_add, Nat.add_sub_cancel' ht, add_right_comm, Nat.add_sub_cancel' ht]
  exact ⟨rfl, rfl⟩

/-- A whole number with its leading binary digit brought to the place that it has in 64 bits. -/
theorem log2_scaled {n : ℕ} (hn : n ≠ 0) (ht : n.log2 ≤ 52) :
    2 ^ 52 ≤ n * 2 ^ (52 - n.log2) ∧ n * 2 ^ (52 - n.log2) < 2 ^ 53 := by
  obtain ⟨hlow, hhigh⟩ := pow_log2_mul ht
  rw [← hlow, ← hhigh]
  exact ⟨Nat.mul_le_mul_right _ (Nat.log2_self_le hn), Nat.mul_lt_mul_of_pos_right Nat.lt_log2_self (by positivity)⟩

theorem log2_le_of_lt_binade {n : ℕ} (hf : f ≠ double) (hn : n ≠ 0) (hlt : n < f.binade * 2) : n.log2 ≤ 23 := by
  have hle := binade_le hf
  have : n < 2 ^ 24 := by omega
  exact Nat.lt_succ_iff.1 ((Nat.log2_lt hn).2 this)

/-- Between the powers of two of 64 bits, magnitudes are the multiples of one spacing. -/
theorem toRat_double {s i : ℕ} (hlow : 2 ^ 52 ≤ i) (hhigh : i ≤ 2 ^ 53) :
    double.toRat (s * 2 ^ 52 + i) = i * double.spacing s :=
  toRat_add (f := double) (.inr hlow) hhigh

/-- The magnitude of infinity of a narrower format can be stored in 64 bits. -/
theorem toRat_infinity_lt (hf : f ≠ double) : f.toRat f.infinity < double.toRat double.infinity := by
  have hdouble : double.toRat double.infinity = 2 ^ (1024 : ℤ) := by
    have h := toRat_double (s := 2046) (i := 2 ^ 52) le_rfl (by decide)
    rw [show double.infinity = 2046 * 2 ^ 52 + 2 ^ 52 from rfl, h, spacing, show double.leastExponent = -1074 from rfl,
      Nat.cast_pow, Nat.cast_ofNat, ← zpow_natCast, ← zpow_add₀ two_ne_zero]
    rfl
  rw [hdouble]
  cases f with
  | half =>
    have h := half.toRat_add (s := 30) (n := 1024) (.inr (by decide)) (by decide)
    rw [show half.infinity = 30 * half.binade + 1024 from rfl, h, spacing, show half.leastExponent = -24 from rfl,
      show ((1024 : ℕ) : ℚ) = 2 ^ (10 : ℤ) by norm_num, ← zpow_add₀ two_ne_zero]
    exact zpow_lt_zpow_right₀ one_lt_two (by decide)
  | single =>
    have h := single.toRat_add (s := 254) (n := 2 ^ 23) (.inr (by decide)) (by decide)
    rw [show single.infinity = 254 * single.binade + 2 ^ 23 from rfl, h, spacing,
      show single.leastExponent = -149 from rfl, Nat.cast_pow, Nat.cast_ofNat, ← zpow_natCast,
      ← zpow_add₀ two_ne_zero]
    exact zpow_lt_zpow_right₀ one_lt_two (by decide)
  | double => exact absurd rfl hf

/-- Every number of a format is one of 64 bits. -/
theorem exists_double (hp : p < f.infinity) : ∃ m < double.infinity, double.toRat m = f.toRat p := by
  by_cases hf : f = double
  · subst hf
    exact ⟨p, hp, rfl⟩
  suffices h : ∃ m, double.toRat m = f.toRat p by
    obtain ⟨m, hm⟩ := h
    refine ⟨m, double.toRat_strictMono.lt_iff_lt.1 ?_, hm⟩
    rw [hm]
    exact (f.toRat_strictMono hp).trans (toRat_infinity_lt hf)
  obtain ⟨s, n, rfl, hlow, hhigh⟩ := f.exists_parts p
  rw [toRat_add hlow hhigh.le]
  by_cases hn : n = 0
  · refine ⟨0, ?_⟩
    rw [toRat_zero, hn]
    simp
  · have ht := log2_le_of_lt_binade hf hn hhigh
    obtain ⟨s', hs⟩ := exists_spacing hf s (t := n.log2) (by omega)
    obtain ⟨hlow', hhigh'⟩ := log2_scaled hn (by omega)
    refine ⟨s' * 2 ^ 52 + n * 2 ^ (52 - n.log2), ?_⟩
    rw [toRat_double hlow' hhigh'.le, hs]
    push_cast
    ring

theorem finite_of_toRat_eq (hp : p < f.infinity) (h : f.toRat p = double.toRat m) : m < double.infinity := by
  obtain ⟨m', hm', h'⟩ := exists_double hp
  rwa [double.toRat_strictMono.injective (h.symm.trans h'.symm)]

/-! ## What is read -/

theorem readsAs_double : double.ReadsAs q m ↔ double.Nearest q m := by
  constructor
  · rintro ⟨c, p, hc, hp, h⟩
    obtain rfl := double.toRat_strictMono.injective h
    rwa [← (nearest_toRat hc.finite).unique hp]
  · intro h
    exact ⟨m, m, h, nearest_toRat h.finite, rfl⟩

/-- A number of the format is read as itself. -/
theorem readsAs_toRat (hp : p < f.infinity) (h : f.toRat p = double.toRat m) : f.ReadsAs (double.toRat m) m :=
  ⟨m, p, nearest_toRat (finite_of_toRat_eq hp h), h ▸ nearest_toRat hp, h⟩

/-- What is read as a number of 64 bits is read at the width of a format as that number is. -/
theorem ReadsAs.of_nearest {c : ℕ} (hq : double.Nearest q c) (h : f.ReadsAs (double.toRat c) m) : f.ReadsAs q m := by
  obtain ⟨c', p, hc', hp, hm⟩ := h
  obtain rfl := (nearest_toRat hq.finite).unique hc'
  exact ⟨c, p, hq, hp, hm⟩

/-- What lies between numbers that are read alike is read as they are. -/
theorem ReadsAs.between {a b : ℚ} (ha : f.ReadsAs a m) (hb : f.ReadsAs b m) (h0 : 0 ≤ q) (haq : a ≤ q) (hqb : q ≤ b) :
    f.ReadsAs q m := by
  obtain ⟨c, p, hac, hcp, hp⟩ := ha
  obtain ⟨c', p', hbc, hcp', hp'⟩ := hb
  obtain rfl := f.toRat_strictMono.injective (hp.trans hp'.symm)
  obtain ⟨k, hk⟩ := double.exists_isBetween h0
  have hck := hac.isBetween.mono hk haq
  have hkc := hk.mono hbc.isBetween hqb
  refine ⟨k, p, nearest_iff.2 ⟨hkc.trans_lt hbc.finite, hk⟩, ?_, hp⟩
  exact hcp.between hcp' (double.toRat_strictMono.monotone hck) (double.toRat_strictMono.monotone hkc)

/-- What is computed as the number of 64 bits that has another one's value in the format. -/
theorem narrow_eq_some_iff {c : ℕ} :
    f.narrow c = some m ↔ ∃ p, f.Nearest (double.toRat c) p ∧ f.toRat p = double.toRat m := by
  unfold narrow
  rw [Option.bind_eq_some_iff]
  refine exists_congr fun p => ?_
  rw [round_eq_some_iff (double.den_value c)]
  refine and_congr_right fun hp => ?_
  rw [round_eq_some_iff (f.den_value p)]
  obtain ⟨m', hm', h'⟩ := exists_double hp.finite
  constructor
  · intro h
    change double.Nearest (f.toRat p) m at h
    rw [← h'] at h
    rw [← h', (nearest_toRat hm').unique h]
  · intro h
    obtain rfl := double.toRat_strictMono.injective (h'.trans h)
    change double.Nearest (f.toRat p) m'
    rw [← h']
    exact nearest_toRat hm'

theorem readsAs_iff_narrow : f.ReadsAs q m ↔ ∃ c, double.Nearest q c ∧ f.narrow c = some m := by
  simp only [narrow_eq_some_iff]
  exact ⟨fun ⟨c, p, hc, hp, h⟩ => ⟨c, hc, p, hp, h⟩, fun ⟨c, hc, p, hp, h⟩ => ⟨c, p, hc, hp, h⟩⟩

theorem narrow_eq_some_iff_readsAs {c : ℕ} (hc : c < double.infinity) :
    f.narrow c = some m ↔ f.ReadsAs (double.toRat c) m := by
  rw [readsAs_iff_narrow]
  constructor
  · intro h
    exact ⟨c, nearest_toRat hc, h⟩
  · rintro ⟨c', hc', h⟩
    rwa [(nearest_toRat hc).unique hc']

/-- What a decimal is read as can be computed. -/
theorem readsAs_toRat_iff {d : Decimal} : f.ReadsAs d.toRat m ↔ (double.round d.value).bind f.narrow = some m := by
  rw [Option.bind_eq_some_iff, readsAs_iff_narrow]
  simp only [round_eq_some_iff (Decimal.den_value d), Decimal.toRat_value]

/-! ## The stretch of what is read as a number -/

/-- A number of 64 bits and the next are apart by a small part of them, or by the least distance. -/
theorem toRat_succ_sub_le (c : ℕ) :
    double.toRat (c + 1) - double.toRat c ≤ double.toRat c / 2 ^ 52 + double.spacing 0 := by
  obtain ⟨s, n, rfl, hlow, hlt⟩ := double.exists_parts c
  rw [toRat_succ hlow hlt, add_sub_cancel_left]
  rcases hlow with rfl | hlow
  · exact le_add_of_nonneg_left (div_nonneg (double.toRat_nonneg _) (by positivity))
  · have hn : (2 : ℚ) ^ 52 ≤ n := by exact_mod_cast hlow
    have hscaled := mul_le_mul_of_nonneg_right hn (double.spacing_pos s).le
    rw [toRat_add (.inr hlow) hlt.le]
    calc double.spacing s ≤ n * double.spacing s / 2 ^ 52 := by
          rw [le_div_iff₀ (by positivity), mul_comm]
          exact hscaled
      _ ≤ n * double.spacing s / 2 ^ 52 + double.spacing 0 := le_add_of_nonneg_right (double.spacing_pos 0).le

/-- The most by which a number up to some magnitude moves when it goes to the nearest of 64 bits. -/
def slack (f : FloatFormat) (p : ℕ) : ℚ := f.toRat p / 2 ^ 52

theorem toRat_succ_sub_lt_slack {c : ℕ} (hf : f ≠ double) (hp : p ≠ 0) (hc : double.toRat c ≤ f.toRat p) :
    double.toRat (c + 1) - double.toRat c < 2 * f.slack p := by
  have hleast : double.spacing 0 < f.slack p := by
    have hone : f.toRat 1 = f.spacing 0 := by
      have := f.toRat_add (s := 0) (n := 1) (.inl rfl) (by have := f.binade_pos; omega)
      rwa [zero_mul, zero_add, Nat.cast_one, one_mul] at this
    have hexponent : double.leastExponent + 52 < f.leastExponent := by
      cases f with
      | half | single => decide
      | double => exact absurd rfl hf
    rw [slack, lt_div_iff₀ (by positivity)]
    calc double.spacing 0 * 2 ^ 52 = 2 ^ (double.leastExponent + 52) := by
          rw [spacing, Nat.cast_zero, add_zero, zpow_add₀ two_ne_zero]
          rfl
      _ < f.spacing 0 := zpow_lt_zpow_right₀ one_lt_two (by simpa using hexponent)
      _ = f.toRat 1 := hone.symm
      _ ≤ f.toRat p := f.toRat_strictMono.monotone (Nat.one_le_iff_ne_zero.2 hp)
  have hgap := toRat_succ_sub_le c
  have hpart : double.toRat c / 2 ^ 52 ≤ f.slack p := div_le_div_of_nonneg_right hc (by positivity)
  linarith

/-- What is read as a number lies between the middles to its neighbours in the format, or not far beyond. -/
theorem ReadsAs.bounds (h : f.ReadsAs q m) (hf : f ≠ double) (hp : f.toRat (p + 1) = double.toRat m) :
    f.middle p - f.slack (p + 2) ≤ q ∧ q ≤ f.middle (p + 1) + f.slack (p + 2) := by
  obtain ⟨c, p', hc, hp', he⟩ := h
  obtain rfl := f.toRat_strictMono.injective (he.trans hp.symm)
  have hc' := hc.isBetween
  have hlow := hp'.isBetween.middle_le (Nat.lt_succ_self p)
  have hhigh := hp'.isBetween.le_middle le_rfl
  have hnext := f.middle_lt (p + 1)
  have hslack {i : ℕ} (hi : double.toRat i ≤ f.toRat (p + 2)) := toRat_succ_sub_lt_slack hf (p + 1).succ_ne_zero hi
  constructor
  · have hc0 : c ≠ 0 := by
      rintro rfl
      rw [toRat_zero] at hlow
      exact ((f.toRat_nonneg p).trans_lt (f.lt_middle p)).not_ge hlow
    obtain ⟨i, rfl⟩ := Nat.exists_eq_succ_of_ne_zero hc0
    have hi := double.toRat_strictMono (Nat.lt_succ_self i)
    have hgap := hslack (i := i) (by linarith)
    have hmiddle := hc'.middle_le (Nat.lt_succ_self i)
    unfold middle at hmiddle
    linarith
  · have hgap := hslack (i := c) (by linarith)
    have hmiddle := hc'.le_middle le_rfl
    unfold middle at hmiddle
    linarith

/-- What lies well between these middles is read as the number. -/
theorem readsAs_of_bounds (hf : f ≠ double) (hfinite : p + 1 < f.infinity) (hp : f.toRat (p + 1) = double.toRat m)
    (hlow : f.middle p + f.slack (p + 2) ≤ q) (hhigh : q ≤ f.middle (p + 1) - f.slack (p + 2)) : f.ReadsAs q m := by
  have hnext := f.middle_lt (p + 1)
  have hslack {i : ℕ} (hi : double.toRat i ≤ f.toRat (p + 2)) := toRat_succ_sub_lt_slack hf (p + 1).succ_ne_zero hi
  have hpos : 0 ≤ f.slack (p + 2) := div_nonneg (f.toRat_nonneg _) (by positivity)
  have hmiddle : 0 ≤ f.middle p := (f.toRat_nonneg p).trans (f.lt_middle p).le
  obtain ⟨c, hc⟩ := double.exists_isBetween (q := q) (by linarith)
  have habove : double.toRat c < f.middle (p + 1) := by
    rcases Nat.eq_zero_or_eq_succ_pred c with hc0 | hc0
    · rw [hc0, toRat_zero]
      exact (f.toRat_nonneg _).trans_lt (f.lt_middle _)
    · generalize c.pred = i at hc0
      subst hc0
      have hi := double.lt_middle i
      have hle := hc.middle_le (Nat.lt_succ_self i)
      have hgap := hslack (i := i) (by linarith)
      unfold middle at hle
      rw [← Nat.succ_eq_add_one] at hgap hle
      linarith
  have hbelow : f.middle p < double.toRat c := by
    have hgap := hslack (i := c) (by linarith)
    have hle := hc.le_middle le_rfl
    unfold middle at hle
    linarith
  refine ⟨c, p + 1, nearest_iff.2 ⟨?_, hc⟩, nearest_iff.2 ⟨hfinite, ?_, .inl habove⟩, hp⟩
  · -- it is no infinity, since infinity is no number of the format
    rw [← double.toRat_strictMono.lt_iff_lt]
    calc double.toRat c < f.toRat (p + 2) := habove.trans hnext
      _ ≤ f.toRat f.infinity := f.toRat_strictMono.monotone hfinite
      _ < double.toRat double.infinity := toRat_infinity_lt hf
  · intro k hk
    obtain rfl := Nat.succ.inj hk
    exact .inl hbelow

end FloatFormat

end BinRecord
