/-
How many digits the text of a number has. At 16 and at 32 bits the nearest decimal alone is tried for each number of
digits. A decimal on the other side of the number can only be missed if decimals with so many digits are as far apart
as the number is from those beside it in the format (`Beside.pow_bounds`), so a power of ten stands by a power of two.
Beside a number that is no power of two itself both would have to be one; among the powers of two there are four for
which a decimal with one digit less than the text is read as the number.
-/
import BinRecord.Proofs.Float.Written

namespace BinRecord

namespace FloatFormat

variable {f : FloatFormat} {m p s : ℕ} {e g : ℤ} {x : Double}

/-! ## The search for a number of digits -/

/-- The nearest decimal with an exponent is read as the number. -/
def Hits (f : FloatFormat) (m : ℕ) (e : ℤ) : Prop := f.ReadsAs (Decimal.nearest e (double.value m)).toRat m

/-- Neither of the two decimals with an exponent that are next to the number is read as it. -/
def Misses (f : FloatFormat) (m : ℕ) (e : ℤ) : Prop :=
  ¬ f.ReadsAs (Decimal.below e (double.value m)).toRat m ∧ ¬ f.ReadsAs (Decimal.above e (double.value m)).toRat m

/-- Where the nearest decimal is not read as the number, the neighbours are not either. -/
def Thorough (f : FloatFormat) (m : ℕ) : Prop := ∀ e, ¬ f.Hits m e → f.Misses m e

/-- Either an approximation goes to the magnitude that is written, and no approximation of fewer digits is read as the
number, or none at all is, and the number is written itself. -/
theorem writtenMagnitude_eq (hf : f ≠ double) (hm : m ≠ 0) :
    (∃ n : ℕ, n < 17 ∧ double.Nearest (Decimal.nearest ((double.value m).log10 - n) (double.value m)).toRat
      (Double.writtenMagnitude f m) ∧ ∀ k : ℕ, k < n → ¬ f.Hits m ((double.value m).log10 - k)) ∨
      Double.writtenMagnitude f m = m ∧ ∀ k : ℕ, k < 17 → ¬ f.Hits m ((double.value m).log10 - k) := by
  generalize hg : (fun e : ℤ => (double.round (Decimal.nearest e (double.value m)).value).bind fun candidate =>
    if f.narrow candidate = some m then some candidate else none) = g
  have hwritten : Double.writtenMagnitude f m = ((exponents (double.value m)).findSome? g).getD m := by
    unfold Double.writtenMagnitude Double.approximations
    rw [if_neg hf, if_neg hm, ← hg, List.findSome?_map]
    rfl
  have hnone (k : ℕ) (hk : g ((double.value m).log10 - k) = none) : ¬ f.Hits m ((double.value m).log10 - k) := by
    intro hhit
    obtain ⟨c, hnearest, hnarrow⟩ := readsAs_iff_narrow.1 hhit
    rw [← hg] at hk
    dsimp only at hk
    rw [approximation_eq_some_iff.2 ⟨hnearest, hnarrow⟩] at hk
    cases hk
  rw [hwritten]
  rcases findSome?_exponents (double.value m) g with ⟨n, c, hn, hfind, hc, hbefore⟩ | ⟨hfind, hall⟩
  · rw [hfind]
    rw [← hg] at hc
    exact .inl ⟨n, hn, (approximation_eq_some_iff.1 hc).1, fun k hk => hnone k (hbefore k hk)⟩
  · rw [hfind]
    exact .inr ⟨rfl, fun k hk => hnone k (hall k hk)⟩

/-- Where both neighbours with some number of digits fail, no decimal with so many digits is read as the number. -/
theorem Misses.not_readsAs {n : ℕ} (h : f.Misses x.magnitude ((double.value x.magnitude).log10 - n)) (hx : f.Holds x)
    (hm : x.magnitude ≠ 0) {d : Decimal} (hn : d.significant ≤ n + 1) : ¬ f.ReadsAs d.toRat x.magnitude := by
  intro hd
  have hself : f.ReadsAs (double.value x.magnitude).toRat x.magnitude := hx.readsAs
  have := Decimal.neighbour_of_significant (P := (f.ReadsAs · x.magnitude))
    (fun a b q ha hb hq => ha.between hb hq) (num_value hm) (double.den_value x.magnitude) hself hd hn
  exact this.elim h.1 h.2

theorem ReadsAs.ne_zero {q : ℚ} (h : f.ReadsAs q m) (hm : m ≠ 0) : q ≠ 0 := by
  rintro rfl
  obtain ⟨c, p, hc, hp, he⟩ := h
  rw [← double.toRat_zero] at hc
  obtain rfl := (nearest_toRat double.infinity_pos).unique hc
  rw [toRat_zero, ← f.toRat_zero] at hp
  obtain rfl := (nearest_toRat f.infinity_pos).unique hp
  rw [toRat_zero] at he
  exact (toRat_pos hm).ne he

/-- If the search is thorough, no decimal with fewer significant digits than the text is read as the number. -/
theorem Thorough.significant_le (h : f.Thorough x.magnitude) (hf : f ≠ double) (hx : f.Holds x) (hm : x.magnitude ≠ 0)
    {d : Decimal} (hd : f.ReadsAs d.toRat x.magnitude) :
    (Json.literalDecimal (x.format f)).significant ≤ d.significant := by
  obtain ⟨-, -, hvalue⟩ := literal_format hx
  rw [Decimal.significant_congr hvalue]
  -- a decimal with `k` digits behind the first has a neighbour of the number beside it
  have hneighbour (k : ℕ) (hmiss : ¬ f.Hits x.magnitude ((double.value x.magnitude).log10 - k)) :
      ¬ d.significant ≤ k + 1 := fun hfew => (h _ hmiss).not_readsAs hx hm hfew hd
  have hpos : d.significant ≠ 0 := by
    intro h0
    obtain ⟨k, e, hk, hd0⟩ := Decimal.significant_le_iff.1 h0.le
    obtain rfl : k = 0 := by omega
    exact hd.ne_zero hm (by rw [hd0, Nat.cast_zero, zero_mul])
  rcases writtenMagnitude_eq hf hm with ⟨n, hn, hnearest, hbefore⟩ | ⟨hself, hnone⟩
  · have hwritten : Double.writtenMagnitude f x.magnitude ≠ 0 := fun h0 =>
      (readsAs_writtenMagnitude hx).1.ne_zero hm (by rw [h0, toRat_zero])
    calc (double.shortest (Double.writtenMagnitude f x.magnitude)).significant
        ≤ (Decimal.nearest ((double.value x.magnitude).log10 - (n : ℕ)) (double.value x.magnitude)).significant :=
          significant_shortest_le hwritten hnearest
      _ ≤ n + 1 := Decimal.significant_nearest_le (num_value hm) (double.den_value _) n
      _ ≤ d.significant := by
        by_contra hlt
        exact hneighbour (d.significant - 1) (hbefore _ (by omega)) (by omega)
  · rw [hself]
    refine (significant_shortest_le_seventeen hm).trans ?_
    by_contra hlt
    exact hneighbour (d.significant - 1) (hnone _ (by omega)) (by omega)

/-! ## Where the nearest decimal is not enough -/

/-- A magnitude and those beside it: the next one is a spacing above it, and the last one as far below, or half as far
if the magnitude is a power of two. -/
structure Beside (f : FloatFormat) (p s : ℕ) : Prop where
  step : s * f.binade ≤ p + 1
  above : f.toRat (p + 2) = f.toRat (p + 1) + f.spacing s
  below : (∃ n : ℕ, f.toRat (p + 1) = n * f.spacing s) ∧ f.toRat (p + 1) = f.toRat p + f.spacing s ∨
    p + 1 = s * f.binade + f.binade ∧ f.toRat (p + 1) = f.toRat p + f.spacing s / 2
  slack : f.slack (p + 2) ≤ f.spacing s / 2 ^ 28

theorem exists_beside (hf : f ≠ double) (p : ℕ) : ∃ s, f.Beside p s := by
  obtain ⟨s, n, hp, hlow, hlt⟩ := f.exists_parts (p + 1)
  have hbinade := binade_le hf
  have hvalue := toRat_add hlow hlt.le
  have habove := toRat_succ hlow hlt
  rw [← hp] at hvalue habove
  refine ⟨s, by omega, habove, ?_, ?_⟩
  · by_cases hpower : s ≠ 0 ∧ n = f.binade
    · -- the last magnitude belongs to the step before
      obtain ⟨hs, rfl⟩ := hpower
      obtain ⟨t, rfl⟩ := Nat.exists_eq_succ_of_ne_zero hs
      refine .inr ⟨hp, ?_⟩
      have hpos := f.binade_pos
      obtain ⟨k, hk⟩ : ∃ k, f.binade * 2 = k + 1 := ⟨f.binade * 2 - 1, by omega⟩
      have hprev := f.toRat_succ (s := t) (n := k) (by omega) (by omega)
      have hhalf : f.spacing (t + 1) / 2 = f.spacing t := by
        unfold spacing
        rw [Nat.cast_succ, ← add_assoc, zpow_add_one₀ two_ne_zero, mul_div_cancel_right₀ _ two_ne_zero]
      have hpattern : t * f.binade + k = p := by
        rw [Nat.succ_mul] at hp
        omega
      rw [hpattern] at hprev
      rw [hprev, hhalf]
    · refine .inl ⟨⟨n, hvalue⟩, ?_⟩
      have hn : n ≠ 0 := by
        have := f.binade_pos
        rintro rfl
        rcases hlow with rfl | h <;> omega
      obtain ⟨k, rfl⟩ := Nat.exists_eq_succ_of_ne_zero hn
      have hprev := f.toRat_succ (s := s) (n := k) (by omega) (by omega)
      rwa [show s * f.binade + k = p by omega] at hprev
  · have hn : ((n + 1 : ℕ) : ℚ) ≤ (2 ^ 24 : ℕ) := by exact_mod_cast (by omega : n + 1 ≤ 2 ^ 24)
    have hscaled := mul_le_mul_of_nonneg_right hn (f.spacing_pos s).le
    rw [FloatFormat.slack, habove, hvalue, div_le_div_iff₀ (by positivity) (by positivity)]
    push_cast at hscaled
    linarith

theorem Beside.gap (h : f.Beside p s) :
    f.spacing s / 2 ≤ f.toRat (p + 1) - f.toRat p ∧ f.toRat (p + 1) - f.toRat p ≤ f.spacing s := by
  have hpos := f.spacing_pos s
  rcases h.below with ⟨-, hgap⟩ | ⟨-, hgap⟩ <;> constructor <;> linarith

/-- A number that is one of the decimals is the nearest of them. -/
theorem hits_of_below_eq (hself : f.ReadsAs (double.toRat m) m)
    (heq : (Decimal.below e (double.value m)).toRat = double.toRat m) : f.Hits m e := by
  have hden := double.den_value m
  unfold Hits
  rcases Decimal.nearest_eq e (double.value m) with h | h <;> rw [h]
  · rwa [heq]
  · have hhigh : _ ≤ 2 * double.toRat m - _ := (Decimal.nearest_between (e := e) hden).2
    have habove : double.toRat m < _ := Decimal.lt_above (e := e) hden
    rw [h, heq] at hhigh
    linarith

/-- If a neighbour is read as the number and the nearest decimal is not, then the neighbours are about as far apart as
the number is from the next ones in the format, and it is none of the decimals. -/
theorem Beside.pow_bounds (h : f.Beside p s) (hf : f ≠ double) (hfinite : p + 1 < f.infinity)
    (hp : f.toRat (p + 1) = double.toRat m) (hhit : ¬ f.Hits m e) (hmiss : ¬ f.Misses m e) :
    f.toRat (p + 1) - f.toRat p - f.spacing s / 2 ^ 27 < 10 ^ e ∧ 10 ^ e ≤ f.spacing s + f.spacing s / 2 ^ 27 ∧
      (Decimal.below e (double.value m)).toRat ≠ f.toRat (p + 1) := by
  have hden := double.den_value m
  have hbelow : (Decimal.below e (double.value m)).toRat ≤ double.toRat m := Decimal.below_le hden
  have habove : double.toRat m < (Decimal.above e (double.value m)).toRat := Decimal.lt_above hden
  have hgap := Decimal.toRat_above e (double.value m)
  obtain ⟨hlow, hhigh⟩ := Decimal.nearest_between (e := e) hden
  change 2 * double.toRat m - _ ≤ _ at hlow
  change _ ≤ 2 * double.toRat m - _ at hhigh
  have hpos := f.spacing_pos s
  have hslack := h.slack
  have hnext := h.above
  obtain ⟨hlong, hshort⟩ := h.gap
  have hne : (Decimal.below e (double.value m)).toRat ≠ f.toRat (p + 1) := fun heq =>
    hhit (hits_of_below_eq (readsAs_toRat hfinite hp) (heq.trans hp))
  unfold Hits at hhit
  unfold Misses at hmiss
  rw [not_and_or, not_not, not_not] at hmiss
  -- what is not read as the number is away from it by half the way to the next
  have haway {q : ℚ} (hq : ¬ f.ReadsAs q m) :
      q < f.middle p + f.slack (p + 2) ∨ f.middle (p + 1) - f.slack (p + 2) < q := by
    by_contra hnot
    rw [not_or, not_lt, not_lt] at hnot
    exact hq (readsAs_of_bounds hf hfinite hp hnot.1 hnot.2)
  unfold middle at haway
  rcases hmiss with hread | hread
  · rcases Decimal.nearest_eq e (double.value m) with hnearest | hnearest <;> rw [hnearest] at hhit hhigh
    · exact absurd hread hhit
    · have hbounds := (hread.bounds hf hp).1
      unfold middle at hbounds
      refine ⟨?_, ?_, hne⟩ <;> rcases haway hhit with h | h <;> linarith
  · rcases Decimal.nearest_eq e (double.value m) with hnearest | hnearest <;> rw [hnearest] at hhit hlow
    · have hbounds := (hread.bounds hf hp).2
      unfold middle at hbounds
      refine ⟨?_, ?_, hne⟩ <;> rcases haway hhit with h | h <;> linarith
    · exact absurd hread hhit

/-! ## Powers of ten beside powers of two -/

/-- A power of ten lies between two multiples of a small part of a power of two. -/
def Within (low high : ℕ) (e g : ℤ) : Prop := low * 2 ^ (g - 27) ≤ (10 : ℚ) ^ e ∧ (10 : ℚ) ^ e ≤ high * 2 ^ (g - 27)

instance (low high : ℕ) (e g : ℤ) : Decidable (Within low high e g) :=
  decidable_of_iff ((Ratio.scaled low 2 (g - 27)).le (.scaled 1 10 e) ∧
    (Ratio.scaled 1 10 e).le (.scaled high 2 (g - 27))) <| by
      simp [Within, Ratio.le_iff, Ratio.den_scaled, Ratio.toRat_scaled]

instance decidableReadsAs (f : FloatFormat) (d : Decimal) (m : ℕ) : Decidable (f.ReadsAs d.toRat m) :=
  decidable_of_iff _ readsAs_toRat_iff.symm

instance (f : FloatFormat) (m : ℕ) (e : ℤ) : Decidable (f.Hits m e) := inferInstanceAs (Decidable (f.ReadsAs _ m))

instance (f : FloatFormat) (m : ℕ) (e : ℤ) : Decidable (f.Misses m e) := inferInstanceAs (Decidable (_ ∧ _))

/-- The exponent of the power of two that is some steps above that at or below a power of ten. -/
def binaryExponent (e : ℤ) (above : ℕ) : ℤ := (Ratio.scaled 1 10 e).log2 + above

/-- The pattern of 64 bits for a pattern of a format. -/
def widened (f : FloatFormat) (p : ℕ) : ℕ := (double.round (f.value p)).getD 0

/-- The exponents of the powers of two for which a decimal with one digit less than the text is read as the number. -/
def exceptions : FloatFormat → List ℤ
  | half => [-6]
  | single => [-96, 87, 90]
  | double => []

/-- Only one is both a power of ten and nearly a power of two. -/
theorem powers_apart : ∀ i : ℕ, i < 80 → ∀ j : ℕ, j < 3 →
    Within (2 ^ 27 - 1) (2 ^ 27 + 1) (i - 46 : ℤ) (binaryExponent (i - 46) j) →
      i = 46 ∧ binaryExponent (i - 46) j = 0 := by
  decide +kernel

/-- For the power of two with which a step of a format begins, unless it is an exception, nothing is missed among the
decimals with an exponent. -/
def Spares (f : FloatFormat) (s : ℕ) (e : ℤ) : Prop :=
  s * f.binade + f.binade < f.infinity → f.leastExponent + s + (f.precision - 1 : ℕ) ∉ f.exceptions →
    f.Hits (f.widened (s * f.binade + f.binade)) e ∨ f.Misses (f.widened (s * f.binade + f.binade)) e

instance (f : FloatFormat) (s : ℕ) (e : ℤ) : Decidable (f.Spares s e) := inferInstanceAs (Decidable (_ → _ → _))

theorem spares_powers : ∀ f ∈ [half, single], ∀ i : ℕ, i < 80 → ∀ j : ℕ, j < 3 →
    Within (2 ^ 26 - 1) (2 ^ 27 + 1) (i - 46 : ℤ) (binaryExponent (i - 46) j) →
      f.Spares (binaryExponent (i - 46) j - f.leastExponent).toNat (i - 46) := by
  decide +kernel

theorem exists_binaryExponent (hlow : (2 : ℚ) ^ (g - 2) < 10 ^ e) (hhigh : (10 : ℚ) ^ e < 2 ^ (g + 1)) (hg : -149 ≤ g)
    (hg' : g ≤ 105) : ∃ i j : ℕ, i < 80 ∧ j < 3 ∧ e = i - 46 ∧ g = binaryExponent (i - 46) j := by
  have hleast : -46 ≤ e := by
    by_contra hlt
    refine hlow.not_ge ?_
    calc (10 : ℚ) ^ e ≤ 10 ^ (-47 : ℤ) := zpow_le_zpow_right₀ (by norm_num) (by omega)
      _ ≤ 2 ^ (-151 : ℤ) := by norm_num
      _ ≤ 2 ^ (g - 2) := zpow_le_zpow_right₀ one_le_two (by omega)
  have hmost : e < 34 := by
    by_contra hle
    refine hhigh.not_ge ?_
    calc (2 : ℚ) ^ (g + 1) ≤ 2 ^ (106 : ℤ) := zpow_le_zpow_right₀ one_le_two (by omega)
      _ ≤ 10 ^ (34 : ℤ) := by norm_num
      _ ≤ 10 ^ e := zpow_le_zpow_right₀ (by norm_num) (by omega)
  have hpositive : (Ratio.scaled 1 10 e).num ≠ 0 := by simp [Ratio.scaled]
  obtain ⟨hlog, hlog'⟩ := Ratio.log2_spec hpositive (Ratio.den_scaled (by decide) _ _)
  rw [Ratio.toRat_scaled (by decide), Nat.cast_one, one_mul, Nat.cast_ofNat] at hlog hlog'
  have hle := (zpow_lt_zpow_iff_right₀ one_lt_two).1 (hlog.trans_lt hhigh)
  have hge := (zpow_lt_zpow_iff_right₀ one_lt_two).1 (hlow.trans hlog')
  obtain ⟨i, hi⟩ := Int.eq_ofNat_of_zero_le (show 0 ≤ e + 46 by omega)
  obtain ⟨j, hj⟩ := Int.eq_ofNat_of_zero_le (show 0 ≤ g - (Ratio.scaled 1 10 e).log2 by omega)
  obtain rfl : e = i - 46 := by omega
  refine ⟨i, j, by omega, by omega, rfl, ?_⟩
  unfold binaryExponent
  omega

theorem widened_eq (hp : p < f.infinity) (h : f.toRat p = double.toRat m) : f.widened p = m := by
  have hround : double.round (f.value p) = some m := by
    rw [round_eq_some_iff (f.den_value p)]
    change double.Nearest (f.toRat p) m
    rw [h]
    exact nearest_toRat (finite_of_toRat_eq hp h)
  rw [widened, hround, Option.getD_some]

/-- The value of a pattern with which a step begins. -/
theorem toRat_power (f : FloatFormat) (s : ℕ) :
    f.toRat (s * f.binade + f.binade) = 2 ^ (f.leastExponent + s + (f.precision - 1 : ℕ)) := by
  rw [toRat_add (.inr le_rfl) (by omega), spacing, cast_binade, ← zpow_natCast, ← zpow_add₀ two_ne_zero, add_comm]

/-- With the exponent zero, the decimal at or below a whole number is that number. -/
theorem toRat_below_zero {r : Ratio} (hr : r.den ≠ 0) {n : ℕ} (hn : r.toRat = n) : (Decimal.below 0 r).toRat = n := by
  have hlow := Decimal.below_le (e := 0) hr
  have hhigh := Decimal.lt_above (e := 0) hr
  rw [Decimal.toRat_above] at hhigh
  unfold Decimal.toRat Decimal.below at hlow hhigh ⊢
  simp only [zpow_zero, mul_one, hn] at hlow hhigh ⊢
  have hle : (r.shift 10 (-0)).floor ≤ n := by exact_mod_cast hlow
  have hlt : n < (r.shift 10 (-0)).floor + 1 := by exact_mod_cast hhigh
  rw [le_antisymm hle (Nat.lt_succ_iff.1 hlt)]

theorem Beside.leastExponent_add (h : f.Beside p s) (hf : f ≠ double) (hfinite : p + 1 < f.infinity) :
    -149 ≤ f.leastExponent + s ∧ f.leastExponent + s ≤ 105 := by
  have hstep := h.step
  cases f with
  | half =>
    rw [show half.infinity = 31744 from rfl] at hfinite
    rw [show half.binade = 1024 from rfl] at hstep
    rw [show half.leastExponent = -24 from rfl]
    omega
  | single =>
    rw [show single.infinity = 2139095040 from rfl] at hfinite
    rw [show single.binade = 8388608 from rfl] at hstep
    rw [show single.leastExponent = -149 from rfl]
    omega
  | double => exact absurd rfl hf

/-- A power of ten that is about the distance to the numbers beside is among the ones that are looked at, with the
spacing as a power of two. -/
theorem Beside.exists_within (h : f.Beside p s) (hf : f ≠ double) (hfinite : p + 1 < f.infinity)
    (hlow : f.toRat (p + 1) - f.toRat p - f.spacing s / 2 ^ 27 < 10 ^ e)
    (hhigh : 10 ^ e ≤ f.spacing s + f.spacing s / 2 ^ 27) :
    ∃ i j : ℕ, i < 80 ∧ j < 3 ∧ e = i - 46 ∧ f.leastExponent + s = binaryExponent (i - 46) j ∧
      Within (2 ^ 26 - 1) (2 ^ 27 + 1) (i - 46) (binaryExponent (i - 46) j) ∧
        (f.toRat (p + 1) = f.toRat p + f.spacing s →
          Within (2 ^ 27 - 1) (2 ^ 27 + 1) (i - 46) (binaryExponent (i - 46) j)) := by
  obtain ⟨hg, hg'⟩ := h.leastExponent_add hf hfinite
  have hpos := f.spacing_pos s
  -- powers of two around the spacing as multiples of it
  have hpart (k : ℤ) : (2 : ℚ) ^ (f.leastExponent + s + k) = f.spacing s * 2 ^ k := zpow_add₀ two_ne_zero _ _
  have hpart27 : (2 : ℚ) ^ (f.leastExponent + s - 27) = f.spacing s / 2 ^ 27 := by
    rw [sub_eq_add_neg, hpart, zpow_neg, ← div_eq_mul_inv]
    rfl
  have hlong := h.gap.1
  have hlow' : (2 : ℚ) ^ (f.leastExponent + s - 2) < 10 ^ e := by
    rw [sub_eq_add_neg, hpart]
    norm_num
    linarith
  have hhigh' : (10 : ℚ) ^ e < 2 ^ (f.leastExponent + s + 1) := by
    rw [hpart]
    norm_num
    linarith
  have hwithin (low : ℕ) (hle : low * (f.spacing s / 2 ^ 27) ≤ 10 ^ e) :
      Within low (2 ^ 27 + 1) e (f.leastExponent + s) := by
    refine ⟨by rwa [hpart27], ?_⟩
    rw [hpart27]
    push_cast
    linarith
  obtain ⟨i, j, hi, hj, rfl, hplace⟩ := exists_binaryExponent hlow' hhigh' hg hg'
  refine ⟨i, j, hi, hj, rfl, hplace, ?_, fun hgap => ?_⟩ <;> rw [← hplace] <;> apply hwithin <;> push_cast <;> linarith

/-- The search is thorough for every number but the exceptions. -/
theorem thorough_of_not_exception (hf : f ≠ double) (hx : f.Holds x) (hm : x.magnitude ≠ 0)
    (h : ∀ k ∈ f.exceptions, double.toRat x.magnitude ≠ 2 ^ k) : f.Thorough x.magnitude := by
  intro e hhit
  by_contra hmiss
  obtain ⟨p, hfinite, hp⟩ := hx
  have hp0 : p ≠ 0 := by
    rintro rfl
    rw [toRat_zero] at hp
    exact (toRat_pos hm).ne hp
  obtain ⟨p, rfl⟩ := Nat.exists_eq_succ_of_ne_zero hp0
  obtain ⟨s, hs⟩ := exists_beside hf p
  obtain ⟨hlow, hhigh, hne⟩ := hs.pow_bounds hf hfinite hp hhit hmiss
  obtain ⟨i, j, hi, hj, rfl, hplace, hnear, hnear'⟩ := hs.exists_within hf hfinite hlow hhigh
  rcases hs.below with ⟨⟨n, hn⟩, hgap⟩ | ⟨hstep, -⟩
  · -- the spacing is one and the number whole
    obtain ⟨rfl, hone⟩ := powers_apart i hi j hj (hnear' hgap)
    rw [spacing, hplace, hone, zpow_zero, mul_one] at hn
    refine hne ?_
    rw [hn]
    exact toRat_below_zero (double.den_value _) (hp.symm.trans hn)
  · -- the number is a power of two
    have hmem : f ∈ [half, single] := by
      cases f with
      | half | single => decide
      | double => exact absurd rfl hf
    have hspares := spares_powers f hmem i hi j hj hnear
    rw [← hplace, add_sub_cancel_left, Int.toNat_natCast] at hspares
    rw [Nat.succ_eq_add_one, hstep] at hfinite hp
    have hvalue := f.toRat_power s
    rw [hp] at hvalue
    have hfound := hspares hfinite fun hk => h _ hk hvalue
    rw [widened_eq hfinite hp] at hfound
    exact hfound.elim hhit hmiss

/-! ## The exceptions -/

theorem toRat_power_double (k : ℤ) (hk : -1022 ≤ k) :
    double.toRat ((k + 1022).toNat * double.binade + double.binade) = 2 ^ k := by
  rw [toRat_power, Int.toNat_of_nonneg (by omega), show double.leastExponent = -1074 from rfl,
    show double.precision = 53 from rfl]
  congr 1
  push_cast
  ring

/-- A decimal with one digit less than the text of an exception that is read as the exception. -/
theorem exists_fewer {k : ℤ} (hk : k ∈ f.exceptions) (h : double.toRat m = 2 ^ k) :
    ∃ d : Decimal, f.ReadsAs d.toRat m ∧ d.significant < (double.shortest (Double.writtenMagnitude f m)).significant := by
  have hm (hleast : -1022 ≤ k) : m = (k + 1022).toNat * double.binade + double.binade :=
    double.toRat_strictMono.injective (h.trans (toRat_power_double k hleast).symm)
  cases f with
  | half =>
    obtain rfl := List.mem_singleton.1 hk
    rw [hm (by decide)]
    exact ⟨⟨1563, -5⟩, by decide +kernel⟩
  | single =>
    simp only [exceptions, List.mem_cons, List.not_mem_nil, or_false] at hk
    rcases hk with rfl | rfl | rfl <;> rw [hm (by decide)]
    · exact ⟨⟨12621775, -36⟩, by decide +kernel⟩
    · exact ⟨⟨15474251, 19⟩, by decide +kernel⟩
    · exact ⟨⟨12379401, 20⟩, by decide +kernel⟩
  | double => cases hk

/-- A decimal with fewer significant digits than the text of a number of a format is read as the number exactly if the
number is one of the exceptions: at 16 bits `2 ^ -6`, at 32 bits `2 ^ -96`, `2 ^ 87` and `2 ^ 90`, of either sign. -/
theorem format_fewest_iff (hx : f.Holds x) (hm : x.magnitude ≠ 0) :
    (∃ negative d, f.Reads negative (Decimal.toRat d) x ∧
      d.significant < (Json.literalDecimal (x.format f)).significant) ↔
        ∃ k ∈ f.exceptions, double.toRat x.magnitude = 2 ^ k := by
  obtain ⟨-, -, hvalue⟩ := literal_format hx
  constructor
  · rintro ⟨negative, d, hread, hlt⟩
    obtain ⟨-, hread⟩ := reads_iff.1 hread
    by_contra hnone
    refine hlt.not_ge ?_
    by_cases hf : f = double
    · subst hf
      rw [Decimal.significant_congr hvalue, Double.writtenMagnitude, if_pos rfl]
      exact significant_shortest_le hm (readsAs_double.1 hread)
    · refine (thorough_of_not_exception hf hx hm fun k hk h => hnone ⟨k, hk, h⟩).significant_le hf hx hm hread
  · rintro ⟨k, hk, h⟩
    obtain ⟨d, hread, hlt⟩ := exists_fewer hk h
    rw [← Decimal.significant_congr hvalue] at hlt
    exact ⟨x.isNegative, d, reads_iff.2 ⟨rfl, hread⟩, hlt⟩

/-- Five digits are written at 16 bits for `2 ^ -6`, of which four would do: `0.01563` is read as it as well. -/
theorem format_fewest_sixty_fourth :
    half.Holds 0x3f90000000000000 ∧ Double.format 0x3f90000000000000 half = "0.015625".toList ∧
      ∃ negative d, half.Reads negative (Decimal.toRat d) 0x3f90000000000000 ∧ d.significant < 5 := by
  have hholds : half.Holds 0x3f90000000000000 := holds_iff.2 (by decide +kernel)
  have htext : Double.format 0x3f90000000000000 half = "0.015625".toList := by decide +kernel
  have hmagnitude : Double.magnitude 0x3f90000000000000 = ((-6 : ℤ) + 1022).toNat * double.binade + double.binade := by
    decide +kernel
  have hvalue := toRat_power_double (-6) (by decide)
  rw [← hmagnitude] at hvalue
  obtain ⟨negative, d, hread, hlt⟩ := (format_fewest_iff hholds (by decide +kernel)).2 ⟨-6, by decide, hvalue⟩
  rw [htext, show (Json.literalDecimal "0.015625".toList).significant = 5 by decide +kernel] at hlt
  exact ⟨hholds, htext, negative, d, hread, hlt⟩

end FloatFormat

end BinRecord
