/-
How far the parts of a payload reach: the parts of a value with a width lie inside it, those of a value that ends in
an infinite array lie before the end of the array, and no byte belongs to two values without parts.
-/
import BinRecord.Proofs.Payload.Decode

namespace BinRecord.Schema

variable {s : Schema} {m : Nat} {t t' : FieldType Nat} {steps : List PathStep} {o : Nat}

theorem extent_append {before after : List Field} {k : Nat} : s.extent (before ++ after) = some k ↔
    ∃ w l, s.extent before = some w ∧ s.extent after = some l ∧ k = w + l := by
  induction before generalizing k with
  | nil => simp [extent_nil]
  | cons f before ih =>
    simp only [List.cons_append, extent_cons, ih]
    constructor
    · rintro ⟨w, _, hf, ⟨v, l, hbefore, hafter, rfl⟩, rfl⟩
      exact ⟨w + v, l, ⟨w, v, hf, hbefore, rfl⟩, hafter, by omega⟩
    · rintro ⟨_, l, ⟨w, v, hf, hbefore, rfl⟩, hafter, rfl⟩
      exact ⟨w, v + l, hf, ⟨v, l, hbefore, hafter, rfl⟩, by omega⟩

/-- A type that ends in an infinite array has no width. -/
theorem WellFormed.width_of_tail (h : s.WellFormed) {p : Nat} {b : BaseType Nat} (ht : s.Tail t p b) :
    s.widthOf t = none := by
  induction ht with
  | array b => rfl
  | @struct i w p before f b hfs hw _ ih =>
    show (s.struct i).width = none
    rw [(h.fits i).total_eq_none_iff, hfs]
    exact ⟨f.type, by simp, ih⟩

/-- The parts of a value with a width have a width and lie inside the value. -/
theorem WellFormed.leads_le (h : s.WellFormed) (hl : s.Leads m t steps o t') {w : Nat} (hw : s.widthOf t = some w) :
    ∃ w', s.widthOf t' = some w' ∧ o + w' ≤ w := by
  induction hl generalizing w with
  | here => exact ⟨w, hw, by omega⟩
  | @field i v o before after f steps t' hfs hv _ ih =>
    have hall : s.extent (before ++ f :: after) = some w := by
      rw [← hfs, ← h.width_eq]
      exact hw
    obtain ⟨v', l, hv', hl, rfl⟩ := extent_append.1 hall
    obtain ⟨k, l', hk, -, rfl⟩ := extent_cons.1 hl
    rw [hv, Option.some.injEq] at hv'
    obtain ⟨w', hw', hle⟩ := ih hk
    exact ⟨w', hw', by omega⟩
  | @item b a k j u o steps t' hk hj hu _ ih =>
    obtain ⟨w', hw', hle⟩ := ih hu
    cases a with
    | single => cases hk
    | times length =>
      cases hk
      simp only [widthOf, Arity.width, hu, Option.map_some, Option.some.injEq] at hw
      have hlast : (j + 1) * u ≤ k * u := Nat.mul_le_mul_right u hj
      rw [Nat.succ_mul, Nat.mul_comm k] at hlast
      exact ⟨w', hw', by omega⟩
    | toEnd => cases hw

/-- The parts with a width of a value that ends in an infinite array lie before the end of its items. -/
theorem WellFormed.leads_le_tail (h : s.WellFormed) (hl : s.Leads m t steps o t') {p u w : Nat} {b : BaseType Nat}
    (ht : s.Tail t p b) (hu : s.baseWidth b = some u) (hw : s.widthOf t' = some w) : o + w ≤ p + m * u := by
  induction hl generalizing p with
  | here t =>
    rw [h.width_of_tail ht] at hw
    cases hw
  | @field i v o before after f steps t' hfs hv hl ih =>
    cases ht with
    | @struct _ v' p before' f' _ hfs' hv' ht =>
      rcases List.eq_nil_or_concat after with rfl | ⟨after, g, rfl⟩
      · obtain ⟨rfl, hf⟩ := List.append_inj' (hfs.symm.trans hfs') rfl
        cases hf
        rw [hv, Option.some.injEq] at hv'
        have := ih ht hw
        omega
      · -- the field stands before the one that ends in the array
        have hcut : (before ++ f :: after) ++ [g] = before' ++ [f'] := by
          rw [← hfs', hfs]
          simp
        obtain ⟨rfl, -⟩ := List.append_inj' hcut rfl
        obtain ⟨v'', l, hv'', hl', hsum⟩ := extent_append.1 hv'
        obtain ⟨k, l', hk, -, rfl⟩ := extent_cons.1 hl'
        rw [hv, Option.some.injEq] at hv''
        obtain ⟨w', hw', hle⟩ := h.leads_le hl hk
        rw [hw, Option.some.injEq] at hw'
        omega
  | @item c a k j v o steps t' hk hj hv hl _ =>
    cases ht with
    | array =>
      cases hk
      rw [hu, Option.some.injEq] at hv
      subst hv
      obtain ⟨w', hw', hle⟩ := h.leads_le hl (w := u) hu
      rw [hw, Option.some.injEq] at hw'
      have hlast : (j + 1) * u ≤ m * u := Nat.mul_le_mul_right u hj
      rw [Nat.succ_mul] at hlast
      omega
    | struct => cases hk

/-- Fields one of which stands before the other do not reach into each other. -/
theorem field_split {before before' after after' : List Field} {f f' : Field} {w w' : Nat}
    (h : before ++ f :: after = before' ++ f' :: after') (hw : s.extent before = some w)
    (hw' : s.extent before' = some w') : (before = before' ∧ f = f') ∨
      (∃ v, s.widthOf f.type = some v ∧ w + v ≤ w') ∨ ∃ v, s.widthOf f'.type = some v ∧ w' + v ≤ w := by
  rcases List.append_eq_append_iff.1 h with ⟨mid, rfl, hmid⟩ | ⟨mid, rfl, hmid⟩
  · rcases mid with _ | ⟨g, mid⟩
    · cases hmid
      exact .inl ⟨by simp, rfl⟩
    · cases hmid
      obtain ⟨v, l, hv, hl, rfl⟩ := extent_append.1 hw'
      obtain ⟨k, l', hk, -, rfl⟩ := extent_cons.1 hl
      rw [hw, Option.some.injEq] at hv
      exact .inr (.inl ⟨k, hk, by omega⟩)
  · rcases mid with _ | ⟨g, mid⟩
    · cases hmid
      exact .inl ⟨by simp, rfl⟩
    · cases hmid
      obtain ⟨v, l, hv, hl, rfl⟩ := extent_append.1 hw
      obtain ⟨k, l', hk, -, rfl⟩ := extent_cons.1 hl
      rw [hw', Option.some.injEq] at hv
      exact .inr (.inr ⟨k, hk, by omega⟩)

/-- An infinite array to which some steps lead stands at the end. -/
theorem WellFormed.tail_of_leads (h : s.WellFormed) {b : BaseType Nat} (hl : s.Leads m t steps o ⟨b, .toEnd⟩) :
    s.Tail t o b := by
  generalize ht : (⟨b, .toEnd⟩ : FieldType Nat) = t' at hl
  induction hl with
  | here t =>
    subst ht
    exact .array b
  | @field i w o before after f steps t' hfs hw _ ih =>
    have htail := ih ht
    -- an unbounded field is the last one
    obtain rfl : after = [] := by
      have hlast := (h.fits i).last_of_none (before.map (·.type)) f.type (after.map (·.type))
        (by rw [hfs, List.map_append, List.map_cons]) (h.width_of_tail htail)
      exact List.map_eq_nil_iff.1 hlast
    exact .struct hfs hw htail
  | item _ _ hu _ ih =>
    have hnone := h.width_of_tail (ih ht)
    cases hu.symm.trans hnone

/-- No steps but these lead to an infinite array. -/
theorem WellFormed.eq_of_leads_toEnd (h : s.WellFormed) {m' : Nat} {b b' : BaseType Nat} {steps' : List PathStep}
    {o' : Nat} (hl : s.Leads m t steps o ⟨b, .toEnd⟩) (hl' : s.Leads m' t steps' o' ⟨b', .toEnd⟩) :
    steps = steps' ∧ o = o' ∧ b = b' := by
  -- nothing with a width has such a part
  have hwidth : ∀ {m t steps o b}, s.Leads m t steps o ⟨b, .toEnd⟩ → s.widthOf t = none := fun hl =>
    h.width_of_tail (h.tail_of_leads hl)
  generalize ht : (⟨b, .toEnd⟩ : FieldType Nat) = t' at hl
  induction hl generalizing steps' o' with
  | here t =>
    subst ht
    cases hl' with
    | here => exact ⟨rfl, rfl, rfl⟩
    | item _ _ hu hl' => cases hu.symm.trans (hwidth hl')
  | @field i w o before after f steps t' hfs hw hl ih =>
    subst ht
    cases hl' with
    | @field _ w' o' before' after' f' steps' _ hfs' hw' hl' =>
      rcases field_split (hfs.symm.trans hfs') hw hw' with ⟨rfl, rfl⟩ | ⟨v, hv, -⟩ | ⟨v, hv, -⟩
      · obtain ⟨rfl, rfl, rfl⟩ := ih hl' rfl
        cases hw.symm.trans hw'
        exact ⟨rfl, rfl, rfl⟩
      · cases hv.symm.trans (hwidth hl)
      · cases hv.symm.trans (hwidth hl')
    | item hk => cases hk
  | item _ _ hu hl =>
    subst ht
    cases hu.symm.trans (hwidth hl)

/-- Values without parts that share a byte are the same. -/
theorem WellFormed.eq_of_shared (h : s.WellFormed) {m' : Nat} {p p' : Primitive} {steps' : List PathStep} {o' i : Nat}
    (hl : s.Leads m t steps o ⟨.primitive p, .single⟩) (hl' : s.Leads m' t steps' o' ⟨.primitive p', .single⟩)
    (hi : o ≤ i ∧ i < o + p.width) (hi' : o' ≤ i ∧ i < o' + p'.width) : p = p' := by
  generalize ht : (⟨.primitive p, .single⟩ : FieldType Nat) = t' at hl
  induction hl generalizing steps' o' i with
  | here t =>
    subst ht
    obtain ⟨-, -, h⟩ := leads_primitive hl'
    cases h
    rfl
  | @field n w o before after f steps t' hfs hw hl ih =>
    subst ht
    cases hl' with
    | @field _ w' o' before' after' f' steps' _ hfs' hw' hl' =>
      rcases field_split (hfs.symm.trans hfs') hw hw' with ⟨rfl, rfl⟩ | ⟨v, hv, hle⟩ | ⟨v, hv, hle⟩
      · rw [hw, Option.some.injEq] at hw'
        exact ih hl' (i := i - w) (by omega) (by omega) rfl
      · obtain ⟨k, hk, hin⟩ := h.leads_le hl hv
        cases hk
        omega
      · obtain ⟨k, hk, hin⟩ := h.leads_le hl' hv
        cases hk
        omega
    | item hk => cases hk
  | @item b a k j u o steps t' hk hj hu hl ih =>
    subst ht
    cases hl' with
    | here => cases hk
    | field => cases hk
    | @item _ _ k' j' u' o' steps' _ hk' hj' hu' hl' =>
      rw [hu, Option.some.injEq] at hu'
      subst hu'
      obtain ⟨v, hv, hin⟩ := h.leads_le hl (w := u) hu
      obtain ⟨v', hv', hin'⟩ := h.leads_le hl' (w := u) hu
      cases hv
      cases hv'
      have hsame : j = j' := by
        rcases Nat.lt_trichotomy j j' with hlt | heq | hlt
        · have := Nat.mul_le_mul_right u (Nat.succ_le_of_lt hlt)
          rw [Nat.succ_mul] at this
          omega
        · exact heq
        · have := Nat.mul_le_mul_right u (Nat.succ_le_of_lt hlt)
          rw [Nat.succ_mul] at this
          omega
      subst hsame
      exact ih hl' (i := i - j * u) (by omega) (by omega) rfl

end BinRecord.Schema
