/-
The decimal that is chosen for a magnitude of 64 bits: it is read as that magnitude, for which seventeen digits always
suffice, and no decimal with fewer significant digits is. Decimals with few digits are sought among the two neighbours
of the magnitude on each grid of powers of ten, which is enough, since what is read as one magnitude lies together.
-/
import BinRecord.Proofs.Float.Reading

namespace BinRecord

/-! ## Significant digits -/

namespace Decimal

/-- The number of digits of a decimal without zeros at its front and at its end. -/
def significant (d : Decimal) : ℕ := ((Nat.digits 10 d.digits).dropWhile (· = 0)).length

/-- The digits of a decimal are those of a number that does not end in zero, and zeros. -/
theorem exists_significant {d : Decimal} (hd : d.digits ≠ 0) :
    ∃ n zeros, d.digits = n * 10 ^ zeros ∧ n % 10 ≠ 0 ∧ d.significant = (Nat.digits 10 n).length := by
  obtain ⟨zeros, n, hn, hsplit⟩ := Nat.exists_eq_pow_mul_and_not_dvd hd 10 (by decide)
  have hlast : n % 10 ≠ 0 := fun h => hn (Nat.dvd_of_mod_eq_zero h)
  have hpos : 0 < n := Nat.pos_of_ne_zero fun h => hlast (by rw [h])
  refine ⟨n, zeros, by rw [hsplit, mul_comm], hlast, ?_⟩
  have hzeros : ∀ x ∈ List.replicate zeros 0, decide (x = 0) = true := fun x hx => by
    rw [List.eq_of_mem_replicate hx]
    rfl
  unfold significant
  rw [hsplit, Nat.digits_base_pow_mul (by decide) hpos, List.dropWhile_append_of_pos hzeros,
    Nat.digits_def' (by decide) hpos, List.dropWhile_cons_of_neg (by simpa using hlast)]

/-- A decimal has at most some number of significant digits if a number with so many digits times a power of ten is
the same number. -/
theorem significant_le_iff {d : Decimal} {n : ℕ} :
    d.significant ≤ n ↔ ∃ (k : ℕ) (e : ℤ), k < 10 ^ n ∧ d.toRat = k * 10 ^ e := by
  by_cases hd : d.digits = 0
  · have hsignificant : d.significant = 0 := by simp [significant, hd]
    rw [hsignificant]
    exact iff_of_true (Nat.zero_le n) ⟨0, 0, by positivity, by simp [toRat, hd]⟩
  obtain ⟨k, zeros, hsplit, hlast, hsignificant⟩ := exists_significant hd
  have hvalue : d.toRat = k * 10 ^ (zeros + d.exponent) := by
    rw [toRat, hsplit, zpow_add₀ (by decide), zpow_natCast]
    push_cast
    ring
  rw [hsignificant, Nat.digits_length_le_iff (by decide)]
  constructor
  · intro hk
    exact ⟨k, _, hk, hvalue⟩
  · rintro ⟨k', e, hk', hvalue'⟩
    refine lt_of_le_of_lt ?_ hk'
    have hsame : (k : ℚ) * 10 ^ (zeros + d.exponent) = k' * 10 ^ e := hvalue.symm.trans hvalue'
    generalize (zeros + d.exponent : ℤ) = a at hsame
    have hshift : (k : ℚ) * 10 ^ (a - e) = k' := by
      rw [zpow_sub₀ (by decide), ← mul_div_assoc, hsame, mul_div_assoc, div_self (by positivity), mul_one]
    rcases le_or_gt e a with hle | hlt
    · -- the other number ends in zeros
      obtain ⟨more, hmore⟩ := Int.eq_ofNat_of_zero_le (sub_nonneg.2 hle)
      rw [hmore, zpow_natCast] at hshift
      have : k * 10 ^ more = k' := by exact_mod_cast hshift
      exact this ▸ Nat.le_mul_of_pos_right k (by positivity)
    · obtain ⟨less, hless⟩ := Int.eq_ofNat_of_zero_le (sub_nonneg.2 hlt.le)
      have hback : (k : ℚ) = k' * 10 ^ less := by
        rw [← hshift, ← zpow_natCast, ← hless, mul_assoc, ← zpow_add₀ (by decide)]
        simp
      have hnat : k = k' * 10 ^ less := by exact_mod_cast hback
      obtain ⟨l, rfl⟩ := Nat.exists_eq_succ_of_ne_zero (show less ≠ 0 by omega)
      refine absurd ?_ hlast
      rw [hnat, pow_succ, ← mul_assoc, Nat.mul_mod_left]

theorem significant_congr {d d' : Decimal} (h : d.toRat = d'.toRat) : d.significant = d'.significant := by
  apply eq_of_forall_ge_iff
  intro n
  rw [significant_le_iff, significant_le_iff, h]

theorem significant_le_of_digits {d : Decimal} {n : ℕ} (hn : n ≠ 0) (hd : d.digits ≤ 10 ^ n) : d.significant ≤ n := by
  rw [significant_le_iff]
  rcases hd.lt_or_eq with h | h
  · exact ⟨d.digits, d.exponent, h, rfl⟩
  · refine ⟨1, n + d.exponent, Nat.one_lt_pow hn (by decide), ?_⟩
    rw [toRat, h, zpow_add₀ (by decide), zpow_natCast]
    push_cast
    ring

/-! ## Neighbours -/

/-- The decimal with a given exponent that is not above a fraction and next to it. -/
def below (exponent : ℤ) (r : Ratio) : Decimal := ⟨(r.shift 10 (-exponent)).floor, exponent⟩

/-- The decimal with a given exponent that is above a fraction and next to it. -/
def above (exponent : ℤ) (r : Ratio) : Decimal := ⟨(r.shift 10 (-exponent)).floor + 1, exponent⟩

variable {r : Ratio} {e : ℤ}

theorem den_shift_ten (hr : r.den ≠ 0) (k : ℤ) : (r.shift 10 k).den ≠ 0 := Ratio.den_shift (by decide) hr k

theorem toRat_shift_mul (r : Ratio) (e : ℤ) : (r.shift 10 (-e)).toRat * 10 ^ e = r.toRat := by
  rw [Ratio.toRat_shift (by decide), Nat.cast_ofNat, mul_assoc, ← zpow_add₀ (by decide), neg_add_cancel, zpow_zero,
    mul_one]

theorem below_le (hr : r.den ≠ 0) : (below e r).toRat ≤ r.toRat := by
  rw [← toRat_shift_mul r e]
  exact mul_le_mul_of_nonneg_right (Ratio.floor_le (den_shift_ten hr _)) (by positivity)

theorem lt_above (hr : r.den ≠ 0) : r.toRat < (above e r).toRat := by
  rw [← toRat_shift_mul r e]
  refine mul_lt_mul_of_pos_right ?_ (by positivity)
  have := Ratio.lt_floor_add_one (den_shift_ten hr (-e))
  exact_mod_cast this

/-- The nearest decimal is one of the neighbours. -/
theorem nearest_eq (e : ℤ) (r : Ratio) : nearest e r = below e r ∨ nearest e r = above e r := by
  unfold nearest below above
  rcases (r.shift 10 (-e)).round_eq_floor_or with h | h <;> rw [h]
  · exact .inl rfl
  · exact .inr rfl

/-- The nearest decimal is at most half a unit of its last digit away. -/
theorem abs_nearest_sub_le (hr : r.den ≠ 0) : |(nearest e r).toRat - r.toRat| ≤ 10 ^ e / 2 := by
  obtain ⟨hlow, hhigh, -⟩ := Ratio.round_isNear (den_shift_ten hr (-e))
  rw [← toRat_shift_mul r e, show (nearest e r).toRat = (r.shift 10 (-e)).round * 10 ^ e from rfl, ← sub_mul, abs_mul,
    abs_of_pos (show (0 : ℚ) < 10 ^ e by positivity)]
  have hhalf : |((r.shift 10 (-e)).round : ℚ) - (r.shift 10 (-e)).toRat| ≤ 1 / 2 := by
    rw [abs_le]
    constructor <;> linarith
  calc _ ≤ 1 / 2 * (10 : ℚ) ^ e := mul_le_mul_of_nonneg_right hhalf (by positivity)
    _ = 10 ^ e / 2 := by ring

theorem toRat_above (e : ℤ) (r : Ratio) : (above e r).toRat = (below e r).toRat + 10 ^ e := by
  unfold above below toRat
  push_cast
  ring

/-- The nearest decimal is at least as near as the neighbour on either side. -/
theorem nearest_between (hr : r.den ≠ 0) :
    2 * r.toRat - (above e r).toRat ≤ (nearest e r).toRat ∧ (nearest e r).toRat ≤ 2 * r.toRat - (below e r).toRat := by
  have hgap := toRat_above e r
  have hbelow := below_le (e := e) hr
  have habove := lt_above (e := e) hr
  have hhalf := abs_le.1 (abs_nearest_sub_le (e := e) hr)
  rcases nearest_eq e r with h | h <;> rw [h] at hhalf ⊢ <;> constructor <;> linarith [hhalf.1, hhalf.2]

/-- A neighbour with `n` digits behind the first has no more digits, or is a power of ten. -/
theorem digits_above_le (hnum : r.num ≠ 0) (hr : r.den ≠ 0) (n : ℕ) :
    (above (r.log10 - n) r).digits ≤ 10 ^ (n + 1) := by
  obtain ⟨-, hhigh⟩ := Ratio.log10_spec hnum hr
  have hfloor := Ratio.floor_le (den_shift_ten hr (-(r.log10 - n)))
  rw [Ratio.toRat_shift (by decide), Nat.cast_ofNat] at hfloor
  have hlt : ((r.shift 10 (-(r.log10 - n))).floor : ℚ) < (10 ^ (n + 1) : ℕ) := by
    calc _ ≤ r.toRat * 10 ^ (-(r.log10 - n)) := hfloor
      _ < 10 ^ (r.log10 + 1) * 10 ^ (-(r.log10 - n)) := mul_lt_mul_of_pos_right hhigh (by positivity)
      _ = (10 ^ (n + 1) : ℕ) := by
        rw [← zpow_add₀ (by decide)]
        push_cast
        rw [← zpow_natCast]
        congr 1
        push_cast
        ring
  have : (r.shift 10 (-(r.log10 - n))).floor < 10 ^ (n + 1) := by exact_mod_cast hlt
  exact this

theorem significant_below_le (hnum : r.num ≠ 0) (hr : r.den ≠ 0) (n : ℕ) :
    (below (r.log10 - n) r).significant ≤ n + 1 :=
  significant_le_of_digits n.succ_ne_zero ((Nat.le_succ _).trans (digits_above_le hnum hr n))

theorem significant_above_le (hnum : r.num ≠ 0) (hr : r.den ≠ 0) (n : ℕ) :
    (above (r.log10 - n) r).significant ≤ n + 1 :=
  significant_le_of_digits n.succ_ne_zero (digits_above_le hnum hr n)

theorem significant_nearest_le (hnum : r.num ≠ 0) (hr : r.den ≠ 0) (n : ℕ) :
    (nearest (r.log10 - n) r).significant ≤ n + 1 := by
  rcases nearest_eq (r.log10 - n) r with h | h <;> rw [h]
  · exact significant_below_le hnum hr n
  · exact significant_above_le hnum hr n

/-- If something holds of a fraction, of a decimal with few digits and of all that lies between, it holds of one of
the two neighbours of the fraction with so many digits. -/
theorem neighbour_of_significant {P : ℚ → Prop} (hP : ∀ a b q, P a → P b → 0 ≤ q → a ≤ q → q ≤ b → P q)
    (hnum : r.num ≠ 0) (hr : r.den ≠ 0) (hx : P r.toRat) {n : ℕ} {d : Decimal} (hd : P d.toRat)
    (hn : d.significant ≤ n + 1) : P (below (r.log10 - n) r).toRat ∨ P (above (r.log10 - n) r).toRat := by
  obtain ⟨hlow, -⟩ := Ratio.log10_spec hnum hr
  have hbelow := below_le (e := r.log10 - n) hr
  have habove := lt_above (e := r.log10 - n) hr
  -- a decimal with this exponent of which it holds, too, has a neighbour between it and the fraction
  have hgrid (j : ℕ) (hj : P (j * 10 ^ (r.log10 - n))) :
      P (below (r.log10 - n) r).toRat ∨ P (above (r.log10 - n) r).toRat := by
    have hpos : (0 : ℚ) < 10 ^ (r.log10 - n) := by positivity
    rcases Nat.lt_or_ge (r.shift 10 (-(r.log10 - n))).floor j with h | h
    · refine .inr (hP _ _ _ hx hj (toRat_nonneg _) habove.le ?_)
      exact mul_le_mul_of_nonneg_right (by exact_mod_cast h) hpos.le
    · refine .inl (hP _ _ _ hj hx (toRat_nonneg _) ?_ hbelow)
      exact mul_le_mul_of_nonneg_right (by exact_mod_cast h) hpos.le
  obtain ⟨k, e, hk, hvalue⟩ := significant_le_iff.1 hn
  have hk' : (k : ℚ) < 10 ^ (n + 1) := by exact_mod_cast hk
  by_cases hsmall : d.toRat < 10 ^ r.log10
  · -- the power of ten at or below the fraction has this exponent as well
    have hpower : P (10 ^ r.log10) := hP _ _ _ hd hx (by positivity) hsmall.le hlow
    refine hgrid (10 ^ n) ?_
    rw [Nat.cast_pow, Nat.cast_ofNat, ← zpow_natCast, ← zpow_add₀ (by decide), add_sub_cancel]
    exact hpower
  · have he : r.log10 - n ≤ e := by
      by_contra hlt
      refine hsmall ?_
      calc d.toRat = k * 10 ^ e := hvalue
        _ < 10 ^ (n + 1) * 10 ^ e := mul_lt_mul_of_pos_right hk' (by positivity)
        _ = 10 ^ ((n + 1 : ℕ) + e) := by rw [← zpow_natCast, ← zpow_add₀ (by decide)]
        _ ≤ 10 ^ r.log10 := zpow_le_zpow_right₀ (by decide) (by omega)
    obtain ⟨more, hmore⟩ := Int.eq_ofNat_of_zero_le (sub_nonneg.2 he)
    refine hgrid (k * 10 ^ more) ?_
    have : (k * 10 ^ more : ℕ) * (10 : ℚ) ^ (r.log10 - n) = d.toRat := by
      rw [hvalue, Nat.cast_mul, Nat.cast_pow, Nat.cast_ofNat, mul_assoc, ← zpow_natCast, ← zpow_add₀ (by decide),
        ← hmore, sub_add_cancel]
    rw [this]
    exact hd

end Decimal

/-! ## The search -/

namespace FloatFormat

variable {f : FloatFormat} {p : ℕ}

/-- The first of the exponents that gives something, or that none of them does. -/
theorem findSome?_exponents {α : Type} (r : Ratio) (g : ℤ → Option α) :
    (∃ (n : ℕ) (a : α), n < 17 ∧ (exponents r).findSome? g = some a ∧ g (r.log10 - n) = some a ∧
      ∀ k : ℕ, k < n → g (r.log10 - k) = none) ∨
      (exponents r).findSome? g = none ∧ ∀ n : ℕ, n < 17 → g (r.log10 - n) = none := by
  unfold exponents
  dsimp only
  rw [List.findSome?_map]
  cases hfind : (List.range 17).findSome? (g ∘ fun more : ℕ => r.log10 - more) with
  | none =>
    rw [List.findSome?_eq_none_iff] at hfind
    exact .inr ⟨rfl, fun n hn => hfind n (List.mem_range.2 hn)⟩
  | some a =>
    obtain ⟨before, n, after, hsplit, ha, hnone⟩ := List.findSome?_eq_some_iff.1 hfind
    have hlength := congrArg List.length hsplit
    rw [List.length_range, List.length_append, List.length_cons] at hlength
    -- the list counts its places
    have hplace (k : ℕ) (hk : k < 17) : (before ++ n :: after)[k]? = some k := by
      rw [← hsplit, List.getElem?_range hk]
    have hn := hplace before.length (by omega)
    rw [List.getElem?_append_right le_rfl, Nat.sub_self, List.getElem?_cons_zero, Option.some.injEq] at hn
    refine .inl ⟨n, a, by omega, rfl, ha, fun k hk => hnone k ?_⟩
    have hk' := hplace k (by omega)
    rw [List.getElem?_append_left (by omega)] at hk'
    exact List.mem_of_getElem? hk'

/-- The two numbers that are tried are those next to the fraction. -/
theorem mem_tried_iff {r : Ratio} {n : ℕ} :
    n ∈ [r.round, if r.round = r.floor then r.round + 1 else r.floor] ↔ n = r.floor ∨ n = r.floor + 1 := by
  have hround := r.round_eq_floor_or
  rw [List.mem_cons, List.mem_singleton]
  split_ifs <;> omega

/-- The decimal that is found for an exponent is a neighbour of the magnitude and read as it. -/
theorem decimalOf?_eq_some {e : ℤ} {d : Decimal} (h : f.decimalOf? p e = some d) :
    f.Nearest d.toRat p ∧ (d = .below e (f.value p) ∨ d = .above e (f.value p)) := by
  unfold decimalOf? at h
  dsimp only at h
  obtain ⟨n, hn, hd⟩ := List.exists_of_findSome?_eq_some h
  by_cases hround : f.round (Decimal.value ⟨n, e⟩) = some p
  · rw [if_pos hround, Option.some.injEq] at hd
    subst hd
    rw [round_eq_some_iff (Decimal.den_value _), Decimal.toRat_value] at hround
    refine ⟨hround, ?_⟩
    rcases mem_tried_iff.1 hn with rfl | rfl
    · exact .inl rfl
    · exact .inr rfl
  · rw [if_neg hround] at hd
    cases hd

/-- If none is found, neither neighbour is read as the magnitude. -/
theorem not_nearest_of_decimalOf?_eq_none {e : ℤ} (h : f.decimalOf? p e = none) :
    ¬ f.Nearest (Decimal.below e (f.value p)).toRat p ∧ ¬ f.Nearest (Decimal.above e (f.value p)).toRat p := by
  unfold decimalOf? at h
  dsimp only at h
  rw [List.findSome?_eq_none_iff] at h
  have hnot (n : ℕ) (hn : n = ((f.value p).shift 10 (-e)).floor ∨ n = ((f.value p).shift 10 (-e)).floor + 1) :
      ¬ f.Nearest (Decimal.toRat ⟨n, e⟩) p := by
    intro hnearest
    rw [← Decimal.toRat_value, ← round_eq_some_iff (Decimal.den_value _)] at hnearest
    have htried := h n (mem_tried_iff.2 hn)
    rw [if_pos hnearest] at htried
    cases htried
  exact ⟨hnot _ (.inl rfl), hnot _ (.inr rfl)⟩

/-- The decimal chosen for a magnitude: it is read as the magnitude if one is found, otherwise it is the nearest one
of seventeen digits. -/
theorem shortest_eq (hp : p ≠ 0) :
    (∃ n : ℕ, n < 17 ∧ f.decimalOf? p ((f.value p).log10 - n) = some (f.shortest p) ∧
      ∀ k : ℕ, k < n → f.decimalOf? p ((f.value p).log10 - k) = none) ∨
      f.shortest p = .nearest ((f.value p).log10 - (16 : ℕ)) (f.value p) ∧
        ∀ n : ℕ, n < 17 → f.decimalOf? p ((f.value p).log10 - n) = none := by
  unfold shortest
  dsimp only
  rw [if_neg hp]
  rcases findSome?_exponents (f.value p) (f.decimalOf? p) with ⟨n, d, hn, hfind, hd, hnone⟩ | ⟨hfind, hnone⟩
  · rw [hfind]
    exact .inl ⟨n, hn, hd, hnone⟩
  · rw [hfind]
    exact .inr ⟨rfl, hnone⟩

/-! ## Seventeen digits suffice -/

/-- Magnitudes next to each other are apart by more than a certain part of them. -/
theorem toRat_succ_le (f : FloatFormat) (k : ℕ) :
    f.toRat (k + 1) ≤ (f.binade * 2 : ℕ) * (f.toRat (k + 1) - f.toRat k) := by
  obtain ⟨s, n, rfl, hlow, hlt⟩ := f.exists_parts k
  have hn : ((n + 1 : ℕ) : ℚ) ≤ (f.binade * 2 : ℕ) := by exact_mod_cast hlt
  rw [toRat_succ hlow hlt, add_sub_cancel_left]
  calc f.toRat (s * f.binade + n) + f.spacing s = (n + 1 : ℕ) * f.spacing s := by
        rw [toRat_add hlow hlt.le]
        push_cast
        ring
    _ ≤ (f.binade * 2 : ℕ) * f.spacing s := mul_le_mul_of_nonneg_right hn (f.spacing_pos s).le

theorem nearest_seventeen (hp : p ≠ 0) (hfinite : p < double.infinity) :
    double.Nearest (Decimal.nearest ((double.value p).log10 - (16 : ℕ)) (double.value p)).toRat p := by
  have hden := double.den_value p
  obtain ⟨hlow, -⟩ := Ratio.log10_spec (num_value hp) hden
  have hclose := abs_le.1 (Decimal.abs_nearest_sub_le (e := (double.value p).log10 - (16 : ℕ)) hden)
  change (10 : ℚ) ^ _ ≤ double.toRat p at hlow
  change _ ≤ _ - double.toRat p ∧ _ - double.toRat p ≤ _ at hclose
  generalize (Decimal.nearest ((double.value p).log10 - (16 : ℕ)) (double.value p)).toRat = q at hclose
  have hunit : 10 ^ 16 * (10 : ℚ) ^ ((double.value p).log10 - (16 : ℕ)) ≤ double.toRat p := by
    refine le_trans (le_of_eq ?_) hlow
    rw [← zpow_natCast, ← zpow_add₀ (by decide)]
    congr 1
    omega
  generalize (10 : ℚ) ^ ((double.value p).log10 - (16 : ℕ)) = unit at hunit hclose
  have hpos := toRat_pos (f := double) hp
  have hbinade : ((double.binade * 2 : ℕ) : ℚ) = 2 ^ 53 := by
    rw [show double.binade * 2 = 2 ^ 53 from rfl]
    push_cast
    rfl
  refine nearest_iff.2 ⟨hfinite, fun k hk => .inl ?_, .inl ?_⟩
  · subst hk
    have hgap := double.toRat_succ_le k
    rw [hbinade] at hgap
    unfold middle
    norm_num at hgap hunit
    linarith [hclose.1]
  · have hgap := double.toRat_succ_le p
    have hnext := double.toRat_strictMono (Nat.lt_succ_self p)
    rw [hbinade] at hgap
    unfold middle
    norm_num at hgap hunit hnext
    linarith [hclose.2]

/-- The decimal chosen for a magnitude of 64 bits is read as that magnitude. -/
theorem nearest_shortest (hfinite : p < double.infinity) : double.Nearest (double.shortest p).toRat p := by
  by_cases hp : p = 0
  · subst hp
    have hzero : (double.shortest 0).toRat = double.toRat 0 := by
      rw [toRat_zero, shortest, if_pos rfl]
      simp [Decimal.toRat]
    rw [hzero]
    exact nearest_toRat hfinite
  · rcases shortest_eq (f := double) hp with ⟨n, -, hd, -⟩ | ⟨hd, -⟩
    · exact (decimalOf?_eq_some hd).1
    · rw [hd]
      exact nearest_seventeen hp hfinite

/-! ## No decimal with fewer digits -/

theorem significant_shortest_le_seventeen (hp : p ≠ 0) : (f.shortest p).significant ≤ 17 := by
  have hnum := num_value (f := f) hp
  have hden := f.den_value p
  rcases shortest_eq (f := f) hp with ⟨n, hn, hd, -⟩ | ⟨hd, -⟩
  · rcases (decimalOf?_eq_some hd).2 with h | h <;> rw [h]
    · exact (Decimal.significant_below_le hnum hden n).trans hn
    · exact (Decimal.significant_above_le hnum hden n).trans hn
  · rw [hd]
    exact Decimal.significant_nearest_le hnum hden 16

/-- No decimal with fewer significant digits than the one chosen for a magnitude goes to that magnitude. -/
theorem significant_shortest_le (hp : p ≠ 0) {d : Decimal} (hd : f.Nearest d.toRat p) :
    (f.shortest p).significant ≤ d.significant := by
  have hnum := num_value (f := f) hp
  have hden := f.den_value p
  by_cases hmany : 17 ≤ d.significant
  · exact (significant_shortest_le_seventeen hp).trans hmany
  -- with as many digits as the decimal has, one of the neighbours goes to the magnitude
  have hpos : d.significant ≠ 0 := by
    intro hzero
    obtain ⟨k, e, hk, hvalue⟩ := Decimal.significant_le_iff.1 hzero.le
    obtain rfl : k = 0 := by omega
    rw [Nat.cast_zero, zero_mul] at hvalue
    rw [hvalue, ← f.toRat_zero] at hd
    exact hp (hd.unique (nearest_toRat f.infinity_pos))
  obtain ⟨n, hn⟩ := Nat.exists_eq_succ_of_ne_zero hpos
  have hself : f.Nearest (f.value p).toRat p := nearest_toRat hd.finite
  have hneighbour := Decimal.neighbour_of_significant (P := (f.Nearest · p))
    (fun a b q ha hb _ => ha.between hb) hnum hden hself hd hn.le
  have hfound : f.decimalOf? p ((f.value p).log10 - (n : ℕ)) ≠ none := fun hnone => by
    obtain ⟨hbelow, habove⟩ := not_nearest_of_decimalOf?_eq_none hnone
    exact hneighbour.elim hbelow habove
  rcases shortest_eq (f := f) hp with ⟨k, hk, hfirst, hnone⟩ | ⟨-, hnone⟩
  · have hkn : k ≤ n := by
      by_contra hlt
      exact hfound (hnone n (not_le.1 hlt))
    rw [hn]
    rcases (decimalOf?_eq_some hfirst).2 with h | h <;> rw [h]
    · exact (Decimal.significant_below_le hnum hden k).trans (by omega)
    · exact (Decimal.significant_above_le hnum hden k).trans (by omega)
  · exact absurd (hnone n (by omega)) hfound

end FloatFormat

end BinRecord
