/-
The rules of schemas, said of what declarations say and without the compiler: which structs are
unbounded, how wide the others are, and what declarations must keep to. Beside them the same rules
for one struct over widths that are already known (`Fits`), which is what the compiler computes.
-/
import BinRecord.Proofs.Traversal
import BinRecord.Schema.Declaration

namespace BinRecord

/-- What a declaration says, without places: the name of the struct, and its fields in order. -/
structure Signature where
  name : String
  fields : List (String × FieldType String)
  deriving DecidableEq, Repr

/-- What a declaration says. -/
def Declaration.signature (d : Declaration String) : Signature :=
  ⟨d.name, d.fields.map fun f => (f.name, f.type)⟩

namespace Signature

variable (sigs : List Signature)

/-- A struct refers to another, directly or as the element of an array. -/
def Mentions (a b : String) : Prop :=
  ∃ d ∈ sigs, d.name = a ∧ ∃ f ∈ d.fields, f.2.base = .struct b

/-- Unbounded types: infinite arrays, and structs whose last field is unbounded. -/
inductive Unbounded : FieldType String → Prop
  | array (b : BaseType String) : Unbounded ⟨b, .toEnd⟩
  | struct {d : Signature} {f : String × FieldType String} : d ∈ sigs → d.fields.getLast? = some f →
      Unbounded f.2 → Unbounded ⟨.struct d.name, .single⟩

/-- The widths of the other types: a struct is as wide as its fields together. -/
inductive HasWidth : FieldType String → Nat → Prop
  | primitive (p : Primitive) : HasWidth ⟨.primitive p, .single⟩ p.width
  | struct {d : Signature} {ws : List Nat} : d ∈ sigs →
      List.Forall₂ (fun f w => HasWidth f.2 w) d.fields ws → HasWidth ⟨.struct d.name, .single⟩ ws.sum
  | array {b : BaseType String} {w : Nat} (length : Nat) : HasWidth ⟨b, .single⟩ w →
      HasWidth ⟨b, .times length⟩ (w * length)

/-- The rules that declarations, and the name of the root if one is given, must keep to. -/
structure Acceptable (root : Option String) : Prop where
  distinct : (sigs.map (·.name)).Nodup
  known : ∀ d ∈ sigs, ∀ f ∈ d.fields, ∀ n, f.2.base = .struct n → n ∈ sigs.map (·.name)
  acyclic : ∀ n, ¬ Relation.TransGen (Mentions sigs) n n
  last : ∀ d ∈ sigs, ∀ before f after, d.fields = before ++ f :: after → Unbounded sigs f.2 → after = []
  elements : ∀ d ∈ sigs, ∀ f ∈ d.fields, f.2.arity ≠ .single →
    ¬ Unbounded sigs ⟨f.2.base, .single⟩ ∧ ¬ HasWidth sigs ⟨f.2.base, .single⟩ 0
  root : ∀ n, root = some n → n ∈ sigs.map (·.name)

end Signature

/-! ## One struct -/

section Fits

variable {ρ : Type} (element : BaseType ρ → Option Nat)

/-- The width of a type over widths of its elements. -/
def FieldType.width (t : FieldType ρ) : Option Nat := t.arity.width (element t.base)

/-- The element of an array has a width of at least one byte. -/
def ElementFits (t : FieldType ρ) : Prop := t.arity ≠ .single → ∃ u, element t.base = some u ∧ 0 < u

/-- Fields of these types can stand one after the other, and take `total` bytes together: only the
last may be unbounded, and then so is the total. -/
inductive Fits : List (FieldType ρ) → Option Nat → Prop
  | nil : Fits [] (some 0)
  | cons {t : FieldType ρ} {ts : List (FieldType ρ)} {w : Nat} {total : Option Nat} : ElementFits element t →
      t.width element = some w → Fits ts total → Fits (t :: ts) (total.map (w + ·))
  | last {t : FieldType ρ} : ElementFits element t → t.width element = none → Fits [t] none

end Fits

namespace Fits

variable {ρ : Type} {element : BaseType ρ → Option Nat}

theorem elements {ts : List (FieldType ρ)} {total : Option Nat} (h : Fits element ts total) :
    ∀ t ∈ ts, ElementFits element t := by
  induction h with
  | nil => intro t ht; cases ht
  | cons he _ _ ih => exact List.forall_mem_cons.2 ⟨he, ih⟩
  | last he _ => exact List.forall_mem_singleton.2 he

theorem last_of_none {ts : List (FieldType ρ)} {total : Option Nat} (h : Fits element ts total) :
    ∀ before t after, ts = before ++ t :: after → t.width element = none → after = [] := by
  induction h with
  | nil => intro before t after he; simp at he
  | cons _ hw _ ih =>
    intro before t after he ht
    rcases before with _ | ⟨a, before⟩
    · simp only [List.nil_append, List.cons.injEq] at he
      rw [he.1, ht] at hw
      cases hw
    · simp only [List.cons_append, List.cons.injEq] at he
      exact ih before t after he.2 ht
  | last =>
    intro before t after he _
    rcases before with _ | ⟨a, before⟩ <;> simp_all

theorem total_eq {ts : List (FieldType ρ)} {total : Option Nat} (h : Fits element ts total) :
    total = (ts.mapM (FieldType.width element)).map List.sum := by
  induction h with
  | nil => rfl
  | cons _ hw _ ih =>
    rw [ih, List.mapM_cons, hw]
    cases List.mapM (FieldType.width element) _ <;> simp
  | last _ hw => simp [hw]

/-- The total is unbounded exactly when the last field is. -/
theorem total_eq_none_iff {ts : List (FieldType ρ)} {total : Option Nat} (h : Fits element ts total) :
    total = none ↔ ∃ t, ts.getLast? = some t ∧ t.width element = none := by
  induction h with
  | nil => simp
  | @cons t ts w total _ hw hts ih =>
    rw [Option.map_eq_none_iff, ih]
    rcases ts with _ | ⟨u, ts⟩
    · simp [hw]
    · simp [List.getLast?_cons_cons]
  | last _ hw => simpa using hw

/-- The rules for the fields of a struct one by one are the rules for all of them. -/
theorem exists_of_rules {ts : List (FieldType ρ)} (helem : ∀ t ∈ ts, ElementFits element t)
    (hlast : ∀ before t after, ts = before ++ t :: after → t.width element = none → after = []) :
    ∃ total, Fits element ts total := by
  induction ts with
  | nil => exact ⟨_, .nil⟩
  | cons t ts ih =>
    have ht := helem t (List.mem_cons_self ..)
    cases hw : t.width element with
    | none =>
      have := hlast [] t ts rfl hw
      subst this
      exact ⟨_, .last ht hw⟩
    | some w =>
      obtain ⟨total, hts⟩ := ih (fun u hu => helem u (List.mem_cons_of_mem _ hu))
        fun before u after he => hlast (t :: before) u after (by rw [he]; rfl)
      exact ⟨_, .cons ht hw hts⟩

/-- Structs with the same types over the same widths have the same total. -/
theorem congr {ρ' : Type} {element' : BaseType ρ' → Option Nat} {ts : List (FieldType ρ)} {total : Option Nat}
    (h : Fits element ts total) {ts' : List (FieldType ρ')}
    (hts : List.Forall₂ (fun t t' => t'.arity = t.arity ∧ element' t'.base = element t.base) ts ts') :
    Fits element' ts' total := by
  have key : ∀ {t : FieldType ρ} {t' : FieldType ρ'}, t'.arity = t.arity ∧ element' t'.base = element t.base →
      (ElementFits element t → ElementFits element' t') ∧ t'.width element' = t.width element := by
    rintro t t' ⟨ha, hb⟩
    refine ⟨fun h hne => ?_, by rw [FieldType.width, FieldType.width, ha, hb]⟩
    rw [ha] at hne
    rw [hb]
    exact h hne
  induction h generalizing ts' with
  | nil => cases hts; exact .nil
  | cons he hw _ ih =>
    obtain ⟨t', us, ht, hus, rfl⟩ := List.forall₂_cons_left_iff.1 hts
    exact .cons ((key ht).1 he) ((key ht).2.trans hw) (ih hus)
  | last he hw =>
    obtain ⟨t', us, ht, hus, rfl⟩ := List.forall₂_cons_left_iff.1 hts
    cases hus
    exact .last ((key ht).1 he) ((key ht).2.trans hw)

theorem total_eq_some_iff {ts : List (FieldType ρ)} {total : Option Nat} (h : Fits element ts total) (k : Nat) :
    total = some k ↔
      ∃ ws, List.Forall₂ (fun t w => FieldType.width element t = some w) ts ws ∧ ws.sum = k := by
  simp only [h.total_eq, Option.map_eq_some_iff, option_mapM_eq_some]

end Fits

/-! ## Known widths are those of the rules -/

namespace Signature

variable {sigs : List Signature}

/-- A width, none for unbounded types, is the one that the rules give to a type. -/
structure Describes (sigs : List Signature) (t : FieldType String) (w : Option Nat) : Prop where
  none_iff : w = none ↔ Unbounded sigs t
  some_iff : ∀ k, w = some k ↔ HasWidth sigs t k

theorem describes_primitive (p : Primitive) : Describes sigs ⟨.primitive p, .single⟩ (some p.width) where
  none_iff := ⟨nofun, nofun⟩
  some_iff k := by
    constructor
    · intro h; cases h; exact .primitive p
    · intro h; cases h; rfl

theorem describes_type {element : BaseType String → Option Nat} {t : FieldType String}
    (he : ElementFits element t) (hb : Describes sigs ⟨t.base, .single⟩ (element t.base)) :
    Describes sigs t (t.width element) := by
  obtain ⟨b, arity⟩ := t
  cases arity with
  | single => exact hb
  | times length =>
    obtain ⟨u, hu, -⟩ := he (by simp)
    have hw : FieldType.width element ⟨b, .times length⟩ = some (u * length) := by
      simp only [FieldType.width, Arity.width, hu, Option.map_some]
    rw [hw]
    refine ⟨⟨nofun, nofun⟩, fun k => ⟨fun h => ?_, fun h => ?_⟩⟩
    · cases h; exact .array length ((hb.some_iff u).1 hu)
    · cases h with
      | array _ h =>
        rw [(hb.some_iff _).2 h] at hu
        cases hu; rfl
  | toEnd =>
    have hw : FieldType.width element ⟨b, .toEnd⟩ = none := rfl
    rw [hw]
    exact ⟨⟨fun _ => .array b, fun _ => rfl⟩, fun k => ⟨nofun, nofun⟩⟩

theorem elementFits_iff {element : BaseType String → Option Nat} {t : FieldType String}
    (hb : Describes sigs ⟨t.base, .single⟩ (element t.base)) :
    ElementFits element t ↔ (t.arity ≠ .single →
      ¬ Unbounded sigs ⟨t.base, .single⟩ ∧ ¬ HasWidth sigs ⟨t.base, .single⟩ 0) := by
  rw [← hb.none_iff, ← hb.some_iff]
  unfold ElementFits
  cases element t.base with
  | none => simp
  | some u => simp [Nat.pos_iff_ne_zero]

/-- What the fields of a struct take together is the width that the rules give to it. -/
theorem describes_struct (hn : (sigs.map (·.name)).Nodup) {d : Signature} (hd : d ∈ sigs)
    {element : BaseType String → Option Nat} {total : Option Nat}
    (hb : ∀ f ∈ d.fields, Describes sigs ⟨f.2.base, .single⟩ (element f.2.base))
    (hf : Fits element (d.fields.map (·.2)) total) : Describes sigs ⟨.struct d.name, .single⟩ total := by
  have htype : ∀ f ∈ d.fields, Describes sigs f.2 (f.2.width element) := fun f hf' =>
    describes_type (hf.elements _ (List.mem_map_of_mem hf')) (hb f hf')
  have hsame : ∀ {d'}, d' ∈ sigs → d'.name = d.name → d' = d := fun hd' he =>
    List.inj_on_of_nodup_map hn hd' hd he
  constructor
  · rw [hf.total_eq_none_iff, List.getLast?_map]
    constructor
    · rintro ⟨t, ht, hw⟩
      obtain ⟨f, hf', rfl⟩ := Option.map_eq_some_iff.1 ht
      exact .struct hd hf' ((htype f (List.mem_of_getLast? hf')).none_iff.1 hw)
    · intro h
      generalize ht : (⟨.struct d.name, .single⟩ : FieldType String) = t at h
      cases h with
      | array => cases ht
      | struct hd' hf' hu =>
        simp only [FieldType.mk.injEq, BaseType.struct.injEq, and_true] at ht
        obtain rfl := hsame hd' ht.symm
        exact ⟨_, by rw [hf']; rfl, (htype _ (List.mem_of_getLast? hf')).none_iff.2 hu⟩
  · intro k
    rw [hf.total_eq_some_iff]
    have hiff : ∀ ws, List.Forall₂ (fun t w => FieldType.width element t = some w) (d.fields.map (·.2)) ws ↔
        List.Forall₂ (fun f w => HasWidth sigs f.2 w) d.fields ws := fun ws => by
      rw [List.forall₂_map_left_iff]
      constructor <;> intro h
      · exact ((List.forall₂_and_left _ _).2 ⟨htype, h⟩).imp fun f w h => (h.1.some_iff w).1 h.2
      · exact ((List.forall₂_and_left _ _).2 ⟨htype, h⟩).imp fun f w h => (h.1.some_iff w).2 h.2
    constructor
    · rintro ⟨ws, hws, rfl⟩
      exact .struct hd ((hiff ws).1 hws)
    · intro h
      generalize ht : (⟨.struct d.name, .single⟩ : FieldType String) = t at h
      cases h with
      | primitive => cases ht
      | array => cases ht
      | struct hd' hws =>
        simp only [FieldType.mk.injEq, BaseType.struct.injEq, and_true] at ht
        obtain rfl := hsame hd' ht.symm
        exact ⟨_, (hiff _).2 hws, rfl⟩

end Signature

end BinRecord
