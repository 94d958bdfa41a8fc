/-
Rounding to a floating-point format, said of rational numbers without a computation: the pattern of the magnitude that
is nearest to a number, and of two that are equally near the even one. Patterns stand for magnitudes in increasing
order, so the numbers that go to a pattern lie between the middles to the patterns beside it (`IsBetween`), and the
rounding that is computed finds the pattern.
-/
import BinRecord.Float.Format
import BinRecord.Proofs.Float.Ratio

namespace BinRecord

namespace FloatFormat

variable {f : FloatFormat} {p s : ℕ} {q : ℚ}

/-! ## Magnitudes -/

/-- The magnitude that a pattern stands for. That of infinity is the first that is too large for the format. -/
def toRat (f : FloatFormat) (pattern : ℕ) : ℚ := (f.value pattern).toRat

/-- The distance from a magnitude to the next, `steps` powers of two above the least ones. -/
def spacing (f : FloatFormat) (steps : ℕ) : ℚ := 2 ^ (f.leastExponent + steps)

theorem spacing_pos (f : FloatFormat) (s : ℕ) : 0 < f.spacing s := zpow_pos two_pos _

theorem binade_pos (f : FloatFormat) : 0 < f.binade := by cases f <;> decide

theorem cast_binade (f : FloatFormat) : (f.binade : ℚ) = 2 ^ (f.precision - 1) := by
  unfold binade
  rw [Nat.pow_eq]
  push_cast
  rfl

theorem even_binade (f : FloatFormat) : f.binade % 2 = 0 := by cases f <;> decide

theorem infinity_pos (f : FloatFormat) : 0 < f.infinity := by cases f <;> decide

theorem den_value (f : FloatFormat) (p : ℕ) : (f.value p).den ≠ 0 := by
  unfold value
  split_ifs <;> exact Ratio.den_scaled two_ne_zero _ _

/-- A pattern and how it is made up: it lies some powers of two above the least patterns, and `n` says where between
that power and the next. -/
theorem exists_parts (f : FloatFormat) (p : ℕ) :
    ∃ s n, p = s * f.binade + n ∧ (s = 0 ∨ f.binade ≤ n) ∧ n < f.binade * 2 := by
  have hdiv := Nat.div_add_mod p f.binade
  have hlt := Nat.mod_lt p f.binade_pos
  rcases Nat.eq_zero_or_eq_succ_pred (p / f.binade) with hk | hk
  · rw [hk] at hdiv
    exact ⟨0, p, by simp, .inl rfl, by omega⟩
  · generalize (p / f.binade).pred = s at hk
    rw [hk, Nat.succ_eq_add_one, mul_add, mul_one, mul_comm] at hdiv
    exact ⟨s, f.binade + p % f.binade, by omega, .inr (by omega), by omega⟩

/-- From a power of two up to the next, and below the first, magnitudes are the multiples of one spacing. -/
theorem toRat_add {n : ℕ} (hlow : s = 0 ∨ f.binade ≤ n) (hhigh : n ≤ f.binade * 2) :
    f.toRat (s * f.binade + n) = n * f.spacing s := by
  have hpos := f.binade_pos
  unfold toRat value spacing
  split_ifs with hsub
  · -- below the first power of two
    have hs : s = 0 := by
      rcases hlow with h | h
      · exact h
      · omega
    subst hs
    rw [Ratio.toRat_scaled two_ne_zero]
    simp
  · have hn : f.binade ≤ n := by
      rcases hlow with rfl | h
      · omega
      · exact h
    obtain ⟨rest, rfl⟩ := Nat.exists_eq_add_of_le hn
    have hsplit : s * f.binade + (f.binade + rest) = rest + f.binade * (s + 1) := by ring
    rw [Ratio.toRat_scaled two_ne_zero, hsplit, Nat.add_mul_mod_self_left, Nat.add_mul_div_left _ _ hpos]
    by_cases hrest : rest < f.binade
    · rw [Nat.mod_eq_of_lt hrest, Nat.div_eq_of_lt hrest, zero_add, Nat.add_sub_cancel, add_comm rest]
      push_cast
      rfl
    · -- the next power of two, of which the spacing is twice as large
      obtain rfl : rest = f.binade := by omega
      have hexponent : f.leastExponent + ((1 + (s + 1) - 1 : ℕ) : ℤ) = f.leastExponent + s + 1 := by omega
      rw [Nat.mod_self, Nat.div_self hpos, zero_add, hexponent, Nat.cast_ofNat, zpow_add_one₀ two_ne_zero]
      push_cast
      ring

theorem toRat_succ {n : ℕ} (hlow : s = 0 ∨ f.binade ≤ n) (hlt : n < f.binade * 2) :
    f.toRat (s * f.binade + n + 1) = f.toRat (s * f.binade + n) + f.spacing s := by
  have hnext : s = 0 ∨ f.binade ≤ n + 1 := hlow.imp_right (by omega)
  rw [add_assoc, toRat_add hnext hlt, toRat_add hlow hlt.le]
  push_cast
  ring

theorem toRat_zero (f : FloatFormat) : f.toRat 0 = 0 := by
  simpa using f.toRat_add (s := 0) (n := 0) (.inl rfl) (Nat.zero_le _)

/-- Larger patterns stand for larger magnitudes. -/
theorem toRat_strictMono (f : FloatFormat) : StrictMono f.toRat := by
  apply strictMono_nat_of_lt_succ
  intro p
  obtain ⟨s, n, rfl, hlow, hlt⟩ := f.exists_parts p
  rw [toRat_succ hlow hlt]
  exact lt_add_of_pos_right _ (f.spacing_pos s)

theorem toRat_pos (hp : p ≠ 0) : 0 < f.toRat p := by
  rw [← f.toRat_zero]
  exact f.toRat_strictMono (Nat.pos_of_ne_zero hp)

theorem toRat_nonneg (f : FloatFormat) (p : ℕ) : 0 ≤ f.toRat p := Ratio.toRat_nonneg _

theorem num_value (hp : p ≠ 0) : (f.value p).num ≠ 0 := by
  intro hnum
  have := f.toRat_pos hp
  rw [toRat, Ratio.toRat, hnum] at this
  simp at this

/-! ## The nearest magnitude -/

/-- The pattern of the magnitude of a format that is nearest to a number, the even one of two. What is nearest to the
magnitude of infinity is too large for the format. -/
structure Nearest (f : FloatFormat) (q : ℚ) (p : ℕ) : Prop where
  finite : p < f.infinity
  least : ∀ p' ≤ f.infinity, |f.toRat p - q| ≤ |f.toRat p' - q|
  even : ∀ p' ≤ f.infinity, p' ≠ p → |f.toRat p - q| = |f.toRat p' - q| → p % 2 = 0

/-- The middle between the magnitude of a pattern and the next. -/
def middle (f : FloatFormat) (p : ℕ) : ℚ := (f.toRat p + f.toRat (p + 1)) / 2

/-- A number lies between the middles to the magnitudes below and above that of a pattern, and in a middle only if the
pattern is even. -/
structure IsBetween (f : FloatFormat) (q : ℚ) (p : ℕ) : Prop where
  below : ∀ k, k + 1 = p → f.middle k < q ∨ f.middle k = q ∧ p % 2 = 0
  above : q < f.middle p ∨ q = f.middle p ∧ p % 2 = 0

theorem lt_middle (f : FloatFormat) (p : ℕ) : f.toRat p < f.middle p := by
  have := f.toRat_strictMono (Nat.lt_succ_self p)
  unfold middle
  linarith

theorem middle_lt (f : FloatFormat) (p : ℕ) : f.middle p < f.toRat (p + 1) := by
  have := f.toRat_strictMono (Nat.lt_succ_self p)
  unfold middle
  linarith

theorem middle_add {n : ℕ} (hlow : s = 0 ∨ f.binade ≤ n) (hlt : n < f.binade * 2) :
    f.middle (s * f.binade + n) = (n + 1 / 2) * f.spacing s := by
  rw [middle, toRat_succ hlow hlt, toRat_add hlow hlt.le]
  ring

theorem middle_mono (f : FloatFormat) : StrictMono f.middle := by
  apply strictMono_nat_of_lt_succ
  intro p
  exact (f.middle_lt p).trans (f.lt_middle (p + 1))

/-- Of two numbers the smaller one is at least as near exactly up to the middle between them. -/
theorem abs_sub_le_iff_le_middle {a b : ℚ} (hab : a < b) : |a - q| ≤ |b - q| ↔ q ≤ (a + b) / 2 := by
  rw [← sq_le_sq]
  constructor <;> intro h <;> nlinarith

theorem abs_sub_le_iff_middle_le {a b : ℚ} (hab : a < b) : |b - q| ≤ |a - q| ↔ (a + b) / 2 ≤ q := by
  rw [← sq_le_sq]
  constructor <;> intro h <;> nlinarith

theorem IsBetween.middle_le (h : f.IsBetween q p) {p' : ℕ} (hlt : p' < p) : f.middle p' ≤ q := by
  obtain ⟨k, rfl⟩ := Nat.exists_eq_succ_of_ne_zero (Nat.ne_zero_of_lt hlt)
  calc f.middle p' ≤ f.middle k := f.middle_mono.monotone (Nat.lt_succ_iff.1 hlt)
    _ ≤ q := (h.below k rfl).elim le_of_lt fun he => he.1.le

theorem IsBetween.le_middle (h : f.IsBetween q p) {p' : ℕ} (hle : p ≤ p') : q ≤ f.middle p' :=
  (h.above.elim le_of_lt fun he => he.1.le).trans (f.middle_mono.monotone hle)

/-- No magnitude is nearer to a number than one between whose middles the number lies. -/
theorem IsBetween.abs_sub_le (h : f.IsBetween q p) (p' : ℕ) : |f.toRat p - q| ≤ |f.toRat p' - q| := by
  rcases lt_trichotomy p' p with hlt | rfl | hlt
  · rw [abs_sub_le_iff_middle_le (f.toRat_strictMono hlt)]
    obtain ⟨k, rfl⟩ := Nat.exists_eq_succ_of_ne_zero (Nat.ne_zero_of_lt hlt)
    -- the middle to a pattern further below is not above that to the pattern below
    have hk := f.toRat_strictMono.monotone (Nat.lt_succ_iff.1 hlt)
    have hmid := h.middle_le (Nat.lt_succ_self k)
    unfold middle at hmid
    linarith
  · rfl
  · rw [abs_sub_le_iff_le_middle (f.toRat_strictMono hlt)]
    have hnext := f.toRat_strictMono.monotone (show p + 1 ≤ p' from hlt)
    have hmid := h.le_middle le_rfl
    unfold middle at hmid
    linarith

/-- If another magnitude is as near, the number lies in the middle between two, of which the pattern is the even one. -/
theorem IsBetween.even_of_abs_eq (h : f.IsBetween q p) {p' : ℕ} (hne : p' ≠ p)
    (he : |f.toRat p - q| = |f.toRat p' - q|) : p % 2 = 0 := by
  rcases lt_or_gt_of_ne hne with hlt | hlt
  · have hle := (abs_sub_le_iff_le_middle (f.toRat_strictMono hlt)).1 he.ge
    obtain ⟨k, rfl⟩ := Nat.exists_eq_succ_of_ne_zero (Nat.ne_zero_of_lt hlt)
    have hk := f.toRat_strictMono.monotone (Nat.lt_succ_iff.1 hlt)
    rcases h.below k rfl with hmid | hmid
    · unfold middle at hmid
      linarith
    · exact hmid.2
  · have hle := (abs_sub_le_iff_middle_le (f.toRat_strictMono hlt)).1 he.ge
    have hnext := f.toRat_strictMono.monotone (show p + 1 ≤ p' from hlt)
    rcases h.above with hmid | hmid
    · unfold middle at hmid
      linarith
    · exact hmid.2

theorem Nearest.isBetween (h : f.Nearest q p) : f.IsBetween q p := by
  obtain ⟨hfinite, hleast, heven⟩ := h
  constructor
  · rintro k rfl
    have hlt := f.toRat_strictMono (Nat.lt_succ_self k)
    have hle := hleast k (by omega)
    rcases ((abs_sub_le_iff_middle_le hlt).1 hle).lt_or_eq with hmid | hmid
    · exact .inl hmid
    · have hle' := (abs_sub_le_iff_le_middle hlt).2 hmid.ge
      exact .inr ⟨hmid, heven k (by omega) (by omega) (le_antisymm hle hle')⟩
  · have hlt := f.toRat_strictMono (Nat.lt_succ_self p)
    have hle := hleast (p + 1) (by omega)
    rcases ((abs_sub_le_iff_le_middle hlt).1 hle).lt_or_eq with hmid | hmid
    · exact .inl hmid
    · have hle' := (abs_sub_le_iff_middle_le hlt).2 hmid.ge
      exact .inr ⟨hmid, heven (p + 1) (by omega) (by omega) (le_antisymm hle hle')⟩

theorem nearest_iff : f.Nearest q p ↔ p < f.infinity ∧ f.IsBetween q p := by
  constructor
  · intro h
    exact ⟨h.finite, h.isBetween⟩
  · rintro ⟨hfinite, h⟩
    exact ⟨hfinite, fun p' _ => h.abs_sub_le p', fun p' _ hne he => h.even_of_abs_eq hne he⟩

/-- Larger numbers do not go to smaller patterns. -/
theorem IsBetween.mono {q' : ℚ} {p' : ℕ} (h : f.IsBetween q p) (h' : f.IsBetween q' p') (hq : q ≤ q') : p ≤ p' := by
  by_contra hlt
  rw [not_le] at hlt
  obtain ⟨k, rfl⟩ := Nat.exists_eq_succ_of_ne_zero (Nat.ne_zero_of_lt hlt)
  have hle := h'.le_middle (Nat.lt_succ_iff.1 hlt)
  -- both numbers lie in the middle between the two patterns, of which only one is even
  rcases h.below k rfl with hmid | ⟨hmid, heven⟩
  · linarith
  · have hsame : f.middle k ≤ f.middle p' := by
      rcases h'.above with habove | habove <;> linarith [habove]
    have hk : k = p' := le_antisymm (f.middle_mono.le_iff_le.1 hsame) (Nat.lt_succ_iff.1 hlt)
    subst hk
    rcases h'.above with habove | ⟨-, heven'⟩
    · linarith
    · omega

theorem Nearest.unique {p' : ℕ} (h : f.Nearest q p) (h' : f.Nearest q p') : p = p' := by
  rw [nearest_iff] at h h'
  exact le_antisymm (h.2.mono h'.2 le_rfl) (h'.2.mono h.2 le_rfl)

theorem isBetween_toRat (f : FloatFormat) (p : ℕ) : f.IsBetween (f.toRat p) p := by
  refine ⟨?_, .inl (f.lt_middle p)⟩
  rintro k rfl
  exact .inl (f.middle_lt k)

/-- A magnitude of the format is nearest to itself. -/
theorem nearest_toRat (hp : p < f.infinity) : f.Nearest (f.toRat p) p := nearest_iff.2 ⟨hp, f.isBetween_toRat p⟩

/-- What lies between numbers that go to a pattern goes to it as well. -/
theorem Nearest.between {a b : ℚ} (ha : f.Nearest a p) (hb : f.Nearest b p) (haq : a ≤ q) (hqb : q ≤ b) :
    f.Nearest q p := by
  rw [nearest_iff] at ha hb ⊢
  refine ⟨ha.1, fun k hk => ?_, ?_⟩
  · rcases ha.2.below k hk with h | ⟨h, heven⟩
    · exact .inl (h.trans_le haq)
    · rcases haq.lt_or_eq with hlt | heq
      · exact .inl (h.trans_lt hlt)
      · exact .inr ⟨h.trans heq, heven⟩
  · rcases hb.2.above with h | ⟨h, heven⟩
    · exact .inl (hqb.trans_lt h)
    · rcases hqb.lt_or_eq with hlt | heq
      · exact .inl (hlt.trans_eq h)
      · exact .inr ⟨heq.trans h, heven⟩

/-! ## The computed rounding -/

/-- A multiple of the spacing of a step that is a nearest one goes with the pattern of the multiple. -/
theorem isBetween_of_isNear {n : ℕ} (hn : Ratio.IsNear n (q / f.spacing s)) (hlow : s = 0 ∨ f.binade * f.spacing s ≤ q)
    (hhigh : q < f.binade * 2 * f.spacing s) (hq : 0 ≤ q) : f.IsBetween q (s * f.binade + n) := by
  have hpos := f.spacing_pos s
  generalize hy : q / f.spacing s = y at hn
  obtain rfl : q = y * f.spacing s := by rw [← hy, div_mul_cancel₀ _ hpos.ne']
  replace hlow : s = 0 ∨ (f.binade : ℚ) ≤ y := hlow.imp_right fun h => le_of_mul_le_mul_right h hpos
  replace hhigh : y < (f.binade * 2 : ℕ) := by
    push_cast
    exact lt_of_mul_lt_mul_right hhigh hpos.le
  obtain ⟨hbelow, habove, heven⟩ := hn
  have hparity : n % 2 = 0 → (s * f.binade + n) % 2 = 0 := fun h => by
    have := f.even_binade
    rw [Nat.add_mod, Nat.mul_mod, this, h]
    simp
  -- the whole number lies within the step
  have hn2 : n ≤ f.binade * 2 := by
    have : (n : ℚ) < (f.binade * 2 : ℕ) + 1 := by linarith
    exact Nat.lt_succ_iff.1 (by exact_mod_cast this)
  have hn1 : s = 0 ∨ f.binade ≤ n := by
    rcases hlow with h | h
    · exact .inl h
    · have : (f.binade : ℚ) < n + 1 := by linarith
      exact .inr (Nat.lt_succ_iff.1 (by exact_mod_cast this))
  have hvalue := toRat_add hn1 hn2
  refine ⟨fun k hk => ?_, ?_⟩
  · by_cases hfirst : n = 0 ∨ s ≠ 0 ∧ n = f.binade
    · -- the number is not below the least of the step, which is above the middle
      have hle : (n : ℚ) ≤ y := by
        rcases hfirst with rfl | ⟨hs, rfl⟩
        · have := nonneg_of_mul_nonneg_left hq hpos
          exact_mod_cast this
        · exact hlow.resolve_left hs
      refine .inl ((f.middle_lt k).trans_le ?_)
      rw [hk, hvalue]
      gcongr
    · rw [not_or, not_and_or, not_not] at hfirst
      obtain ⟨m, rfl⟩ := Nat.exists_eq_succ_of_ne_zero hfirst.1
      obtain rfl : k = s * f.binade + m := by omega
      rw [middle_add (by omega) (by omega), show (m : ℚ) + 1 / 2 = (m + 1 : ℕ) - 1 / 2 by push_cast; ring]
      rcases hbelow.lt_or_eq with h | h
      · exact .inl (mul_lt_mul_of_pos_right h hpos)
      · exact .inr ⟨by rw [h], hparity (heven (.inl h.symm))⟩
  · by_cases hlast : n = f.binade * 2
    · -- the number is below the last magnitude of the step
      refine .inl (lt_of_lt_of_le ?_ (f.lt_middle _).le)
      rw [hvalue, hlast]
      exact mul_lt_mul_of_pos_right hhigh hpos
    · rw [middle_add hn1 (by omega)]
      rcases habove.lt_or_eq with h | h
      · exact .inl (mul_lt_mul_of_pos_right h hpos)
      · exact .inr ⟨by rw [h], hparity (heven (.inr h))⟩

/-- A fraction has a pattern that it goes to, and is rounded to it unless it is too large. -/
theorem exists_isBetween_round (f : FloatFormat) {r : Ratio} (hr : r.den ≠ 0) :
    ∃ p, f.IsBetween r.toRat p ∧ f.round r = if p < f.infinity then some p else none := by
  by_cases hnum : r.num = 0
  · refine ⟨0, ?_, ?_⟩
    · have hzero : r.toRat = f.toRat 0 := by
        rw [f.toRat_zero, Ratio.toRat, hnum]
        simp
      rw [hzero]
      exact f.isBetween_toRat 0
    · rw [round, if_pos hnum, if_pos f.infinity_pos]
  · obtain ⟨hlow, hhigh⟩ := Ratio.log2_spec hnum hr
    generalize hs : (r.log2 - (f.precision - 1 : ℕ) - f.leastExponent).toNat = s
    have hnear := Ratio.round_isNear (Ratio.den_shift two_ne_zero hr (-(f.leastExponent + s)))
    rw [Ratio.toRat_shift two_ne_zero, Nat.cast_ofNat, zpow_neg, ← div_eq_mul_inv] at hnear
    have hbinade (k : ℕ) : (2 : ℚ) ^ (f.precision - 1 + k : ℕ) * f.spacing s =
        2 ^ ((f.precision - 1 : ℕ) + k + f.leastExponent + s : ℤ) := by
      unfold spacing
      rw [← zpow_natCast, ← zpow_add₀ two_ne_zero]
      congr 1
      push_cast
      ring
    refine ⟨_, isBetween_of_isNear hnear ?_ ?_ r.toRat_nonneg, ?_⟩
    · by_cases hzero : s = 0
      · exact .inl hzero
      · right
        calc f.binade * f.spacing s = 2 ^ ((f.precision - 1 : ℕ) + (0 : ℕ) + f.leastExponent + s : ℤ) := by
              rw [cast_binade, ← hbinade 0, add_zero]
          _ ≤ 2 ^ r.log2 := zpow_le_zpow_right₀ one_le_two (by omega)
          _ ≤ r.toRat := hlow
    · calc r.toRat < 2 ^ (r.log2 + 1) := hhigh
        _ ≤ 2 ^ ((f.precision - 1 : ℕ) + (1 : ℕ) + f.leastExponent + s : ℤ) :=
          zpow_le_zpow_right₀ one_le_two (by omega)
        _ = f.binade * 2 * f.spacing s := by rw [← hbinade 1, pow_succ, cast_binade]
    · rw [round, if_neg hnum]
      dsimp only
      rw [hs]

/-- A fraction is rounded to the pattern of the nearest magnitude. -/
theorem round_eq_some_iff {r : Ratio} (hr : r.den ≠ 0) : f.round r = some p ↔ f.Nearest r.toRat p := by
  obtain ⟨p', hp', hround⟩ := f.exists_isBetween_round hr
  rw [hround, nearest_iff]
  constructor
  · intro h
    by_cases hlt : p' < f.infinity
    · rw [if_pos hlt, Option.some.injEq] at h
      exact h ▸ ⟨hlt, hp'⟩
    · rw [if_neg hlt] at h
      cases h
  · rintro ⟨hlt, hp⟩
    have : p' = p := le_antisymm (hp'.mono hp le_rfl) (hp.mono hp' le_rfl)
    rw [this, if_pos hlt]

theorem exists_isBetween (f : FloatFormat) (hq : 0 ≤ q) : ∃ p, f.IsBetween q p := by
  obtain ⟨r, hr, rfl⟩ := Ratio.exists_toRat_eq hq
  obtain ⟨p, hp, -⟩ := f.exists_isBetween_round hr
  exact ⟨p, hp⟩

end FloatFormat

end BinRecord
