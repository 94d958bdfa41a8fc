/-
Decoding inverts encoding. Every reader here is described by one statement (`Inverts`): it reads a value
exactly where a template of that value stands, and stops behind it. Templates of values with a width do not
depend on how much unbounded padding is written, so what is read in one field does not say how the others
were written.
-/
import BinRecord.Proofs.Payload.Encode

namespace BinRecord

/-- The template stands at `q` in a region, the cursor is behind it, and so is nothing else unless what it
lays out has a width. -/
structure Template.Spans (t : Template) (bs : Bytes) (start q : Nat) (width : Option Nat) (c : Cursor) : Prop where
  stands : t.StandsAt bs q
  ends : width = none → q + t.length = bs.length
  after : c = .within bs start (q + t.length)

/-- A reader inverts a way of laying out values of some width: it reads them exactly where they are laid out.
Only values without a width depend on how much unbounded padding is written. -/
structure Inverts {α : Type} (width : Option Nat) (reader : Path → Cursor → Except DecodeFailure (α × Cursor))
    (conforms : α → Prop) (template : Nat → α → Template) : Prop where
  reads : ∀ {bs : Bytes} {start q : Nat} {path : Path} {v : α} {c : Cursor}, q ≤ bs.length →
    (reader path (.within bs start q) = .ok (v, c) ↔
      conforms v ∧ ∃ units, (template units v).Spans bs start q width c)
  length : ∀ {w units : Nat} {v : α}, width = some w → conforms v → (template units v).length = w
  grows : ∀ {units units' : Nat} {v : α}, conforms v → units ≤ units' →
    ∃ k, template units' v = template units v ++ .gap k ∧ (k ≠ 0 → width = none)

section

variable {α : Type} {width : Option Nat} {reader : Path → Cursor → Except DecodeFailure (α × Cursor)}
  {conforms : α → Prop} {template : Nat → α → Template}

/-- Values with a width are laid out in one way. -/
theorem Inverts.units_eq (h : Inverts width reader conforms template) {w : Nat} (hw : width = some w) {v : α}
    (hv : conforms v) (units units' : Nat) : template units v = template units' v := by
  wlog hle : units ≤ units' generalizing units units'
  · exact (this units' units (by omega)).symm
  obtain ⟨k, hk, hopen⟩ := h.grows hv hle
  obtain rfl : k = 0 := by
    by_contra hne
    rw [hopen hne] at hw
    cases hw
  rw [hk, Template.gap_zero, List.append_nil]

/-- Two layouts of a value that are equally long are the same. -/
theorem Inverts.eq_of_length (h : Inverts width reader conforms template) {units units' : Nat} {v : α}
    (hv : conforms v) (hlen : (template units v).length = (template units' v).length) :
    template units v = template units' v := by
  wlog hle : units ≤ units' generalizing units units'
  · exact (this hlen.symm (by omega)).symm
  obtain ⟨k, hk, -⟩ := h.grows hv hle
  rw [hk, List.length_append, Template.length_gap] at hlen
  obtain rfl : k = 0 := by omega
  rw [hk, Template.gap_zero, List.append_nil]

end

/-! ## Primitives -/

theorem Primitive.inverts [Codecs] {p : Primitive} (hp : p.isExact) :
    Inverts (some p.width) p.read p.Conforms fun _ v => .ofBytes (p.store v) where
  reads {bs start q path v c} hq := by
    rw [Primitive.read_eq_ok]
    constructor
    · rintro ⟨hle, hv, rfl⟩
      obtain ⟨hconf, hstore⟩ := (value?_eq_some_iff hp (by simp; omega)).1 hv
      have hlen := length_store hconf
      refine ⟨hconf, 0, Template.standsAt_ofBytes.2 ⟨by omega, by rw [hlen, hstore]⟩, by simp, ?_⟩
      rw [Template.length_ofBytes, hlen]
    · rintro ⟨hconf, _, hstands, -, rfl⟩
      have hlen := length_store hconf
      obtain ⟨hle, hstore⟩ := Template.standsAt_ofBytes.1 hstands
      rw [hlen] at hle hstore
      refine ⟨hle, (value?_eq_some_iff hp (by simp; omega)).2 ⟨hconf, hstore.symm⟩, ?_⟩
      rw [Template.length_ofBytes, hlen]
  length hw hv := by
    cases hw
    rw [Template.length_ofBytes, length_store hv]
  grows _ _ := ⟨0, by simp [Template.gap_zero], by simp⟩

/-! ## Arrays -/

section Arrays

variable {u : Nat} {element : Path → Cursor → Except DecodeFailure (Value × Cursor)} {conforms : Value → Prop}
  {template : Nat → Value → Template}

theorem Inverts.length_items (he : Inverts (some u) element conforms template) {units : Nat} :
    ∀ {items : List Value}, (∀ v ∈ items, conforms v) →
      (items.flatMap (template units)).length = items.length * u
  | [], _ => by simp
  | v :: items, h => by
    obtain ⟨hv, hitems⟩ := List.forall_mem_cons.1 h
    rw [List.flatMap_cons, List.length_append, he.length rfl hv, length_items he hitems, List.length_cons,
      Nat.succ_mul, Nat.add_comm]

theorem Inverts.items_units_eq (he : Inverts (some u) element conforms template) {items : List Value}
    (h : ∀ v ∈ items, conforms v) (units units' : Nat) :
    items.flatMap (template units) = items.flatMap (template units') :=
  List.flatMap_congr fun v hv => he.units_eq rfl (h v hv) units units'

/-- Items are read exactly where they are laid out one after the other. -/
theorem Inverts.readItems_eq_ok (he : Inverts (some u) element conforms template) {bs : Bytes} {start : Nat}
    {path : Path} (units : Nat) : ∀ {count i q : Nat} {done vs : List Value} {c : Cursor}, q ≤ bs.length →
      (readItems element path i done count (.within bs start q) = .ok (vs, c) ↔
        ∃ items, vs = done.reverse ++ items ∧ items.length = count ∧ (∀ v ∈ items, conforms v) ∧
          Template.Spans (items.flatMap (template units)) bs start q (some u) c)
  | 0, i, q, done, vs, c, hq => by
    rw [readItems]
    constructor
    · intro h
      cases h
      exact ⟨[], by simp, rfl, by simp, Template.standsAt_nil.2 hq, by simp, rfl⟩
    · rintro ⟨items, rfl, hlen, -, hspans⟩
      obtain rfl := List.length_eq_zero_iff.1 hlen
      rw [hspans.after, List.append_nil]
      rfl
  | count + 1, i, q, done, vs, c, hq => by
    rw [readItems, except_bind_eq_ok]
    constructor
    · rintro ⟨⟨v, c₁⟩, hv, h⟩
      obtain ⟨hconf, _, hstands, -, rfl⟩ := (he.reads hq).1 hv
      rw [he.units_eq rfl hconf _ units] at hstands h
      obtain ⟨items, rfl, rfl, hitems, hspans⟩ := (readItems_eq_ok he units hstands.fits).1 h
      refine ⟨v :: items, by simp, rfl, List.forall_mem_cons.2 ⟨hconf, hitems⟩, ?_, by simp, ?_⟩
      · rw [List.flatMap_cons]
        exact Template.standsAt_append.2 ⟨hstands, hspans.stands⟩
      · rw [List.flatMap_cons, List.length_append, ← Nat.add_assoc]
        exact hspans.after
    · rintro ⟨items, rfl, hlen, hitems, hspans⟩
      obtain ⟨v, items, rfl⟩ := List.exists_cons_of_length_eq_add_one hlen
      obtain ⟨hconf, hitems⟩ := List.forall_mem_cons.1 hitems
      obtain ⟨hstands, -, rfl⟩ := hspans
      rw [List.flatMap_cons] at hstands ⊢
      obtain ⟨hfirst, hrest⟩ := Template.standsAt_append.1 hstands
      refine ⟨(v, .within bs start (q + (template units v).length)),
        (he.reads hq).2 ⟨hconf, units, hfirst, by simp, rfl⟩, ?_⟩
      refine (readItems_eq_ok he units hfirst.fits).2
        ⟨items, by simp, by simpa using hlen, hitems, hrest, by simp, ?_⟩
      rw [List.length_append, ← Nat.add_assoc]

theorem Inverts.times (he : Inverts (some u) element conforms template) (k : Nat) :
    Inverts (some (u * k)) (fun path => readArity element u path (.times k)) ((Arity.times k).Conforms conforms)
      fun units => (Arity.times k).template (template units) where
  reads {bs start q path v c} hq := by
    simp only [readArity, except_bind_eq_ok]
    constructor
    · rintro ⟨⟨vs, c₁⟩, hvs, h⟩
      cases h
      obtain ⟨items, rfl, hlen, hitems, hspans⟩ := (he.readItems_eq_ok 0 hq).1 hvs
      exact ⟨⟨hlen, hitems⟩, 0, hspans.stands, by simp, hspans.after⟩
    · rintro ⟨hconf, units, hspans⟩
      cases v with
      | array items =>
        exact ⟨(items, c), (he.readItems_eq_ok units hq).2
          ⟨items, by simp, hconf.1, hconf.2, hspans.stands, by simp, hspans.after⟩, rfl⟩
      | _ => cases hconf
  length {w units v} hw hconf := by
    cases hw
    cases v with
    | array items => exact (he.length_items hconf.2).trans (by rw [hconf.1, Nat.mul_comm])
    | _ => cases hconf
  grows {units units' v} hconf _ := by
    refine ⟨0, ?_, by simp⟩
    cases v with
    | array items =>
      exact (he.items_units_eq hconf.2 units' units).trans (by simp [Template.gap_zero, Arity.template])
    | _ => cases hconf

theorem Inverts.toEnd (he : Inverts (some u) element conforms template) (hu : 0 < u) :
    Inverts none (fun path => readArity element u path .toEnd) (Arity.toEnd.Conforms conforms)
      fun units => Arity.toEnd.template (template units) where
  reads {bs start q path v c} hq := by
    have hleft : (Cursor.within bs start q).left.toNat = bs.length - q := by
      show ((bs.length : Int) - q).toNat = _
      omega
    simp only [readArity, except_bind_eq_ok, hleft]
    constructor
    · rintro ⟨⟨vs, c₁⟩, hvs, h⟩
      obtain ⟨items, rfl, -, hitems, hspans⟩ := (he.readItems_eq_ok 0 hq).1 hvs
      have hfits := hspans.stands.fits
      obtain ⟨hstands, -, rfl⟩ := hspans
      dsimp only at h
      -- bytes behind the last whole element are refused
      split at h
      · cases h
      · rename_i hend
        cases h
        replace hend : ¬ (0 : Int) < (bs.length : Int) - (q + (vs.flatMap (template 0)).length : Nat) := hend
        refine ⟨hitems, 0, hstands, fun _ => ?_, rfl⟩
        show q + (vs.flatMap (template 0)).length = bs.length
        omega
    · rintro ⟨hconf, units, hspans⟩
      cases v with
      | array items =>
        replace hconf : ∀ v ∈ items, conforms v := hconf
        obtain ⟨hstands, hends, rfl⟩ := hspans
        replace hends : q + (items.flatMap (template units)).length = bs.length := hends rfl
        have hcount : (bs.length - q) / u = items.length := by
          rw [← hends, Nat.add_sub_cancel_left, he.length_items hconf, Nat.mul_div_cancel _ hu]
        refine ⟨(items, .within bs start (q + (items.flatMap (template units)).length)),
          (he.readItems_eq_ok units hq).2 ⟨items, by simp, hcount.symm, hconf, hstands, by simp, rfl⟩, ?_⟩
        dsimp only
        rw [if_neg]
        · rfl
        · show ¬ (0 : Int) < (bs.length : Int) - (q + (items.flatMap (template units)).length : Nat)
          omega
      | _ => cases hconf
  length hw := by cases hw
  grows {units units' v} hconf _ := by
    refine ⟨0, ?_, by simp⟩
    cases v with
    | array items => exact (he.items_units_eq hconf units' units).trans (by simp [Template.gap_zero, Arity.template])
    | _ => cases hconf

end Arrays

theorem Inverts.arity [Codecs] {shape : Shape}
    (hs : Inverts shape.width shape.read shape.Conforms fun units => shape.template units)
    {a : Arity} (ha : a ≠ .single → ∃ u, shape.width = some u ∧ 0 < u) :
    Inverts (a.width shape.width) (fun path => readArity shape.read (shape.width.getD 0) path a)
      (a.Conforms shape.Conforms) fun units => a.template (shape.template units) := by
  cases a with
  | single => exact hs
  | times k =>
    obtain ⟨u, hu, -⟩ := ha (by simp)
    rw [hu] at hs ⊢
    exact hs.times k
  | toEnd =>
    obtain ⟨u, hu, hpos⟩ := ha (by simp)
    rw [hu] at hs ⊢
    exact hs.toEnd hpos

/-! ## Padding -/

/-- Padding is passed exactly where there is room for it. -/
theorem skipPadding_eq_ok_iff_spans {unit : Nat} {a : Arity} {bs : Bytes} {start q : Nat} {path : Path}
    {c : Cursor} (hq : q ≤ bs.length) : skipPadding unit path a (.within bs start q) = .ok c ↔
      ∃ units, (Template.gap (unit * a.pieces units)).Spans bs start q (a.width (some unit)) c := by
  -- so many bytes are passed at once
  have htake : ∀ n w, (((Cursor.within bs start q).take path n >>= fun r => .ok r.2) = .ok c ↔
      ∃ _ : Nat, (Template.gap n).Spans bs start q (some w) c) := fun n w => by
    simp only [except_bind_eq_ok, Cursor.take_eq_ok]
    constructor
    · rintro ⟨_, ⟨hle, rfl⟩, h⟩
      cases h
      exact ⟨0, Template.standsAt_gap.2 hle, by simp, by simp⟩
    · rintro ⟨_, hstands, -, rfl⟩
      exact ⟨_, ⟨Template.standsAt_gap.1 hstands, rfl⟩, by simp⟩
  cases a with
  | single =>
    have := htake unit unit
    simpa only [skipPadding, Arity.width, Arity.pieces, Nat.mul_one] using this
  | times k => exact htake (unit * k) (unit * k)
  | toEnd =>
    have hleft : (Cursor.within bs start q).left = ((bs.length - q : Nat) : Int) := by
      show (bs.length : Int) - q = _
      omega
    simp only [skipPadding, hleft]
    constructor
    · intro h
      split at h
      · cases h
      · rename_i hrem
        cases h
        have hdvd : unit ∣ bs.length - q := by
          rw [Nat.dvd_iff_mod_eq_zero]
          omega
        obtain ⟨units, hunits⟩ := hdvd
        refine ⟨units, Template.standsAt_gap.2 ?_, fun _ => ?_, ?_⟩
        · simp only [Arity.pieces]
          omega
        · simp only [Arity.pieces, Template.length_gap]
          omega
        · rw [Cursor.skip_within, Template.length_gap, hunits]
          rfl
    · rintro ⟨units, hstands, hends, rfl⟩
      have hall := hends rfl
      rw [Template.length_gap] at hall ⊢
      replace hall : bs.length - q = unit * units := by
        simp only [Arity.pieces] at hall
        omega
      rw [hall, if_neg (by simp), Cursor.skip_within]
      rfl

theorem inverts_padding (unit : Nat) (a : Arity) :
    Inverts (a.width (some unit)) (fun path c => (skipPadding unit path a c).map fun c => ((none : Option Value), c))
      (· = none) fun units _ => .gap (unit * a.pieces units) where
  reads hq := by
    simp only [except_map_eq_ok, Prod.mk.injEq, skipPadding_eq_ok_iff_spans hq]
    constructor
    · rintro ⟨c', hspans, rfl, rfl⟩
      exact ⟨rfl, hspans⟩
    · rintro ⟨rfl, hspans⟩
      exact ⟨_, hspans, rfl, rfl⟩
  length hw _ := by
    rw [Template.length_gap]
    cases a with
    | single =>
      cases hw
      exact Nat.mul_one unit
    | times k =>
      cases hw
      rfl
    | toEnd => cases hw
  grows {units units' _} _ hle := by
    cases a with
    | single => exact ⟨0, by simp [Template.gap_zero, Arity.pieces], by simp⟩
    | times k => exact ⟨0, by simp [Template.gap_zero, Arity.pieces], by simp⟩
    | toEnd =>
      refine ⟨unit * (units' - units), ?_, fun _ => rfl⟩
      simp only [Arity.pieces]
      rw [← Template.gap_add, ← Nat.mul_add, Nat.add_sub_cancel' hle]

/-! ## Fields -/

namespace Shape

/-- What a field leaves in the value of its struct: nothing if it is padding. -/
def EntryConforms (shape : Shape) (a : Arity) (entry : Option Value) : Prop :=
  match shape.paddingUnit?, entry with
  | some _, entry => entry = none
  | none, some v => a.Conforms shape.Conforms v
  | none, none => False

/-- What a field lays out. -/
def entryTemplate (shape : Shape) (a : Arity) (units : Nat) (entry : Option Value) : Template :=
  match shape.paddingUnit?, entry with
  | some unit, _ => .gap (unit * a.pieces units)
  | none, some v => a.template (shape.template units) v
  | none, none => []

variable {name : String} {a : Arity} {shape : Shape} {fields : List (String × Arity × Shape)}
  {es : List (String × Value)}

theorem fieldsConform_cons : FieldsConform ((name, a, shape) :: fields) es ↔
    ∃ entry es', es = entry.toList.map (name, ·) ++ es' ∧ shape.EntryConforms a entry ∧ FieldsConform fields es' := by
  cases hunit : shape.paddingUnit? with
  | some unit => simp [FieldsConform, EntryConforms, hunit]
  | none =>
    cases es with
    | nil =>
      simp only [FieldsConform, EntryConforms, hunit, false_iff, not_exists]
      rintro (_ | v) es' ⟨h, hconf, -⟩
      · exact hconf
      · cases h
    | cons e es =>
      obtain ⟨key, v⟩ := e
      simp only [FieldsConform, EntryConforms, hunit]
      constructor
      · rintro ⟨rfl, hv, hes⟩
        exact ⟨some v, es, rfl, hv, hes⟩
      · rintro ⟨_ | v', es', h, hconf, hes⟩
        · exact absurd hconf not_false
        · cases h
          exact ⟨rfl, hconf, hes⟩

theorem templateFields_cons {units : Nat} {entry : Option Value} (h : shape.EntryConforms a entry) :
    templateFields units ((name, a, shape) :: fields) (entry.toList.map (name, ·) ++ es) =
      shape.entryTemplate a units entry ++ templateFields units fields es := by
  unfold EntryConforms at h
  cases hunit : shape.paddingUnit? with
  | some unit =>
    rw [hunit] at h
    cases h
    simp [templateFields, entryTemplate, hunit]
  | none =>
    rw [hunit] at h
    cases entry with
    | none => cases h
    | some v => simp [templateFields, entryTemplate, hunit]

theorem inverts_entry [Codecs] (hs : Inverts shape.width shape.read shape.Conforms fun units => shape.template units)
    (ha : a ≠ .single → ∃ u, shape.width = some u ∧ 0 < u) :
    Inverts (a.width shape.width) (Schema.readEntry shape a) (shape.EntryConforms a) (shape.entryTemplate a) := by
  cases hunit : shape.paddingUnit? with
  | some unit =>
    have hreader : Schema.readEntry shape a = fun path c => (skipPadding unit path a c).map fun c => (none, c) := by
      funext path c
      rw [Schema.readEntry, hunit]
    have hconforms : shape.EntryConforms a = (· = none) := by
      funext entry
      simp only [EntryConforms, hunit]
    have htemplate : shape.entryTemplate a = fun units _ => .gap (unit * a.pieces units) := by
      funext units entry
      simp only [entryTemplate, hunit]
    rw [hreader, hconforms, htemplate, width_of_paddingUnit? hunit]
    exact inverts_padding unit a
  | none =>
    have h := Inverts.arity hs ha
    have hconforms : ∀ v, shape.EntryConforms a (some v) ↔ a.Conforms shape.Conforms v := fun v => by
      simp only [EntryConforms, hunit]
    have hnone : ¬ shape.EntryConforms a none := by
      simp only [EntryConforms, hunit, not_false_eq_true]
    have htemplate : ∀ units v, shape.entryTemplate a units (some v) = a.template (shape.template units) v :=
      fun units v => by simp only [entryTemplate, hunit]
    refine ⟨fun {bs start q path entry c} hq => ?_, fun {w units entry} hw hentry => ?_,
      fun {units units' entry} hentry hle => ?_⟩
    · simp only [Schema.readEntry, hunit, except_map_eq_ok, Prod.mk.injEq]
      constructor
      · rintro ⟨⟨v, c⟩, hv, rfl, rfl⟩
        rw [hconforms]
        simpa only [htemplate] using (h.reads hq).1 hv
      · rintro ⟨hentry, hspans⟩
        cases entry with
        | none => exact absurd hentry hnone
        | some v =>
          simp only [htemplate] at hspans
          exact ⟨(v, c), (h.reads hq).2 ⟨(hconforms v).1 hentry, hspans⟩, rfl, rfl⟩
    · cases entry with
      | none => exact absurd hentry hnone
      | some v => exact (congrArg List.length (htemplate units v)).trans (h.length hw ((hconforms v).1 hentry))
    · cases entry with
      | none => exact absurd hentry hnone
      | some v =>
        simp only [htemplate]
        exact h.grows ((hconforms v).1 hentry) hle

theorem inverts_nil [Codecs] :
    Inverts (some 0) (readFields []) (FieldsConform []) fun units => templateFields units [] where
  reads hq := by
    simp only [readFields, FieldsConform, templateFields]
    constructor
    · intro h
      cases h
      exact ⟨rfl, 0, Template.standsAt_nil.2 hq, by simp, rfl⟩
    · rintro ⟨rfl, _, -, -, rfl⟩
      rfl
  length hw _ := by
    cases hw
    rfl
  grows _ _ := ⟨0, rfl, by simp⟩

/-- Fields are read behind a field that has a width. -/
theorem inverts_cons [Codecs] {w : Nat} {total : Option Nat}
    (he : Inverts (some w) (Schema.readEntry shape a) (shape.EntryConforms a) (shape.entryTemplate a))
    (hf : Inverts total (readFields fields) (FieldsConform fields) fun units => templateFields units fields) :
    Inverts (total.map (w + ·)) (readFields ((name, a, shape) :: fields)) (FieldsConform ((name, a, shape) :: fields))
      fun units => templateFields units ((name, a, shape) :: fields) where
  reads {bs start q path es c} hq := by
    rw [Schema.readFields_cons_eq_ok, fieldsConform_cons]
    constructor
    · rintro ⟨entry, c₁, es', hentry, hes, rfl⟩
      obtain ⟨hconf, units', hstands, -, rfl⟩ := (he.reads hq).1 hentry
      obtain ⟨hconf', units, hspans⟩ := (hf.reads hstands.fits).1 hes
      refine ⟨⟨entry, es', rfl, hconf, hconf'⟩, units, ?_⟩
      rw [templateFields_cons hconf, he.units_eq rfl hconf units units']
      refine ⟨Template.standsAt_append.2 ⟨hstands, hspans.stands⟩, fun hw => ?_, ?_⟩
      · rw [List.length_append, ← Nat.add_assoc]
        exact hspans.ends (Option.map_eq_none_iff.1 hw)
      · rw [List.length_append, ← Nat.add_assoc]
        exact hspans.after
    · rintro ⟨⟨entry, es', rfl, hconf, hconf'⟩, units, hstands, hends, rfl⟩
      rw [templateFields_cons hconf] at hstands hends ⊢
      rw [List.length_append, ← Nat.add_assoc] at hends ⊢
      obtain ⟨hfirst, hrest⟩ := Template.standsAt_append.1 hstands
      refine ⟨entry, _, es', (he.reads hq).2 ⟨hconf, units, hfirst, by simp, rfl⟩,
        (hf.reads hfirst.fits).2 ⟨hconf', units, hrest, fun ht => hends (by rw [ht]; rfl), rfl⟩, rfl⟩
  length {w' units es} hw hes := by
    obtain ⟨l, hl, rfl⟩ := Option.map_eq_some_iff.1 hw
    obtain ⟨entry, es', rfl, hconf, hconf'⟩ := fieldsConform_cons.1 hes
    rw [templateFields_cons hconf, List.length_append, he.length rfl hconf, hf.length hl hconf']
  grows {units units' es} hes hle := by
    obtain ⟨entry, es', rfl, hconf, hconf'⟩ := fieldsConform_cons.1 hes
    obtain ⟨k, hk, hopen⟩ := hf.grows hconf' hle
    refine ⟨k, ?_, fun hne => by rw [hopen hne]; rfl⟩
    rw [templateFields_cons hconf, templateFields_cons hconf, he.units_eq rfl hconf units' units, hk,
      List.append_assoc]

/-- The last field may go on to the end. -/
theorem inverts_last [Codecs]
    (he : Inverts none (Schema.readEntry shape a) (shape.EntryConforms a) (shape.entryTemplate a)) :
    Inverts none (readFields [(name, a, shape)]) (FieldsConform [(name, a, shape)])
      fun units => templateFields units [(name, a, shape)] := by
  have hone : ∀ es, FieldsConform [(name, a, shape)] es ↔
      ∃ entry : Option Value, es = entry.toList.map (name, ·) ∧ shape.EntryConforms a entry := fun es => by
    rw [fieldsConform_cons]
    constructor
    · rintro ⟨entry, es', rfl, hconf, rfl⟩
      exact ⟨entry, List.append_nil _, hconf⟩
    · rintro ⟨entry, rfl, hconf⟩
      exact ⟨entry, [], (List.append_nil _).symm, hconf, rfl⟩
  have htemplate : ∀ units {entry : Option Value}, shape.EntryConforms a entry →
      templateFields units [(name, a, shape)] (entry.toList.map (name, ·)) = shape.entryTemplate a units entry :=
    fun units {entry} hconf => by
      have : templateFields units [(name, a, shape)] (entry.toList.map (name, ·) ++ []) =
          shape.entryTemplate a units entry ++ templateFields units [] [] := templateFields_cons hconf
      simpa only [List.append_nil, templateFields] using this
  refine ⟨fun {bs start q path es c} hq => ?_, fun hw => (by cases hw), fun {units units' es} hes hle => ?_⟩
  · rw [Schema.readFields_cons_eq_ok, hone]
    constructor
    · rintro ⟨entry, c₁, es', hentry, hes, rfl⟩
      cases hes
      obtain ⟨hconf, units, hspans⟩ := (he.reads hq).1 hentry
      refine ⟨⟨entry, List.append_nil _, hconf⟩, units, ?_⟩
      rw [List.append_nil, htemplate units hconf]
      exact hspans
    · rintro ⟨⟨entry, rfl, hconf⟩, units, hspans⟩
      rw [htemplate units hconf] at hspans
      exact ⟨entry, c, [], (he.reads hq).2 ⟨hconf, units, hspans⟩, rfl, (List.append_nil _).symm⟩
  · obtain ⟨entry, rfl, hconf⟩ := (hone es).1 hes
    rw [htemplate units hconf, htemplate units' hconf]
    exact he.grows hconf hle

theorem inverts_struct [Codecs] {width : Option Nat}
    (h : Inverts width (readFields fields) (FieldsConform fields) fun units => templateFields units fields) :
    Inverts width (read (.struct width fields)) (Conforms (.struct width fields))
      fun units => template units (.struct width fields) := by
  refine ⟨fun {bs start q path v c} hq => ?_, fun {w units v} hw hv => ?_, fun {units units' v} hv hle => ?_⟩
  · rw [read, except_bind_eq_ok]
    constructor
    · rintro ⟨⟨es, c₁⟩, hes, heq⟩
      cases heq
      obtain ⟨hconf, units, hspans⟩ := (h.reads hq).1 hes
      refine ⟨by rwa [Conforms], units, by rwa [template]⟩
    · rintro ⟨hconf, units, hspans⟩
      cases v with
      | struct es =>
        rw [Conforms] at hconf
        rw [template] at hspans
        exact ⟨(es, c), (h.reads hq).2 ⟨hconf, units, hspans⟩, rfl⟩
      | _ => simp [Conforms] at hconf
  · cases v with
    | struct es =>
      rw [Conforms] at hv
      rw [template]
      exact h.length hw hv
    | _ => simp [Conforms] at hv
  · cases v with
    | struct es =>
      rw [Conforms] at hv
      simp only [template]
      exact h.grows hv hle
    | _ => simp [Conforms] at hv

mutual

/-- Reading a shape that fits together inverts laying it out. -/
theorem Fitting.inverts [Codecs] : ∀ {shape : Shape}, shape.Fitting (·.isExact) →
    Inverts shape.width shape.read shape.Conforms fun units => shape.template units
  | .primitive p, .primitive hp => by
    have hconforms : Conforms (.primitive p) = p.Conforms := by
      funext v
      rw [Conforms]
    have htemplate : (fun units => template units (.primitive p)) = fun _ v => .ofBytes (p.store v) := by
      funext units v
      rw [template]
    rw [Schema.read_primitive, hconforms, htemplate]
    exact p.inverts hp
  | .struct _ _, .struct hfields => inverts_struct (FieldsFitting.inverts hfields)

theorem FieldsFitting.inverts [Codecs] : ∀ {fields : List (String × Arity × Shape)} {total : Option Nat},
    FieldsFitting (·.isExact) fields total →
      Inverts total (readFields fields) (FieldsConform fields) fun units => templateFields units fields
  | [], _, .nil => inverts_nil
  | (_, a, shape) :: _, _, .cons hshape ha hw hfields => by
    have he := inverts_entry (Fitting.inverts hshape) ha
    rw [hw] at he
    exact inverts_cons he (FieldsFitting.inverts hfields)
  | [(_, a, shape)], _, .last hshape ha hw => by
    have he := inverts_entry (Fitting.inverts hshape) ha
    rw [hw] at he
    exact inverts_last he

end

end Shape

/-! ## Payloads -/

namespace Schema

/-- Decoding inverts encoding: an encoded value is decoded, whatever fills its padding; what is decoded is a
value of the schema, and encoding it with the padding as it is gives the bytes that were read; payloads of one
value in equally many bytes differ in padding only. -/
structure DecodingInverts [Codecs] (s : Schema) : Prop where
  decode_encode : ∀ units filler v, s.Conforms v → s.decode (s.encode units filler v) 0 none = .ok v
  encode_decode : ∀ data v, s.decode data 0 none = .ok v → s.Conforms v ∧ ∃ units c,
    s.readAt (.ofRegion data 0 data.length) = .ok (v, c) ∧ c.offset = (s.template units v).length ∧
      data = s.encode units (fun i => data[i]?.getD 0) v ++ c.rest
  differ_in_padding : ∀ data data' v c c', s.readAt (.ofRegion data 0 data.length) = .ok (v, c) →
    s.readAt (.ofRegion data' 0 data'.length) = .ok (v, c') → c.offset = c'.offset → ∃ units,
      c.offset = (s.template units v).length ∧
        ∀ i : Nat, (i : Int) < c.offset → data[i]? ≠ data'[i]? → (s.template units v)[i]? = some none

variable {s : Schema}

theorem ofRegion_whole (data : Bytes) : Cursor.ofRegion data 0 data.length = .within data 0 0 := by
  simp [Cursor.ofRegion, Cursor.within]

theorem decode_whole_eq_ok [Codecs] {data : Bytes} {v : Value} : s.decode data 0 none = .ok v ↔
    ∃ c, s.readAt (.ofRegion data 0 data.length) = .ok (v, c) := by
  unfold decode
  dsimp only
  cases h : s.readAt (.ofRegion data 0 data.length) with
  | error e => simp
  | ok r =>
    obtain ⟨x, c⟩ := r
    simp

/-- A payload is read exactly where a template of its value stands. -/
theorem readAt_whole_eq_ok [Codecs] (h : s.WellFormed) (hexact : s.isExact) {data : Bytes} {v : Value} {c : Cursor} :
    s.readAt (.ofRegion data 0 data.length) = .ok (v, c) ↔
      s.Conforms v ∧ ∃ units, (s.template units v).Spans data 0 0 s.shape.width c := by
  have hfit : s.shape.Fitting (·.isExact) :=
    h.fitting (fun i f hf p hp => isExact_of_mem hexact i hf hp) s.root
  rw [readAt, ofRegion_whole]
  exact hfit.inverts.reads (Nat.zero_le _)

/-- Decoding inverts encoding with every compiled schema of integers, byte strings and padding. -/
theorem decoding_inverts [Codecs] {text : String} {root : Option String} (h : compile text root = .ok s)
    (hexact : s.isExact) : s.DecodingInverts := by
  have hs := wellFormed_of_compile h
  have hfit : s.shape.Fitting (·.isExact) :=
    hs.fitting (fun i f hf p hp => isExact_of_mem hexact i hf hp) s.root
  refine ⟨fun units filler v hv => ?_, fun data v hv => ?_, fun data data' v c c' hc hc' hoff => ?_⟩
  · refine decode_whole_eq_ok.2 ⟨_, (readAt_whole_eq_ok hs hexact).2
      ⟨hv, units, Template.standsAt_fill _ filler, fun _ => ?_, rfl⟩⟩
    rw [encode, Template.length_fill, Nat.zero_add]
  · obtain ⟨c, hc⟩ := decode_whole_eq_ok.1 hv
    obtain ⟨hconf, units, hstands, -, rfl⟩ := (readAt_whole_eq_ok hs hexact).1 hc
    refine ⟨hconf, units, _, hc, by simp [Cursor.within], ?_⟩
    rw [encode, hstands.fill_eq, Cursor.within, Nat.zero_add, List.take_append_drop]
  · obtain ⟨hconf, units, hstands, -, rfl⟩ := (readAt_whole_eq_ok hs hexact).1 hc
    obtain ⟨-, units', hstands', -, rfl⟩ := (readAt_whole_eq_ok hs hexact).1 hc'
    have hlen : (s.template units v).length = (s.template units' v).length := by
      simpa [Cursor.within] using hoff
    -- equally long templates of one value are the same
    rw [← show s.template units v = s.template units' v from hfit.inverts.eq_of_length hconf hlen] at hstands'
    refine ⟨units, by simp [Cursor.within], fun i hi hne => ?_⟩
    have hlt : i < (s.template units v).length := by simpa [Cursor.within] using hi
    rw [List.getElem?_eq_getElem hlt]
    cases hb : (s.template units v)[i] with
    | none => rfl
    | some b =>
      have hget : (s.template units v)[i]? = some (some b) := by rw [List.getElem?_eq_getElem hlt, hb]
      have := (hstands.agrees i b hget).trans (hstands'.agrees i b hget).symm
      simp only [Nat.zero_add] at this
      exact absurd this hne

/-- A payload of an array of structs with padding inside, and padding up to its end. -/
theorem decoding_inverts_samples : ∃ s v,
    compile "struct P { x: I16LE, gap: PAD<1>, b: BYTES<2> } struct R { n: U8, ps: P[2], m: U16, rest: PAD<2>[+] }"
      none = .ok s ∧
    s.isExact = true ∧ s.decode [7, 255, 255, 9, 1, 2, 0, 128, 9, 3, 4, 1, 0, 9, 9] 0 none = .ok v ∧
    s.DecodingInverts := by
  have hsome : ((compile
      "struct P { x: I16LE, gap: PAD<1>, b: BYTES<2> } struct R { n: U8, ps: P[2], m: U16, rest: PAD<2>[+] }"
      none).toOption.bind fun s => if s.isExact then
        (s.decode [7, 255, 255, 9, 1, 2, 0, 128, 9, 3, 4, 1, 0, 9, 9] 0 none).toOption else none).isSome = true := by
    decide +kernel
  obtain ⟨v, hv⟩ := Option.isSome_iff_exists.1 hsome
  obtain ⟨s, hs, hv⟩ := Option.bind_eq_some_iff.1 hv
  split at hv
  · rename_i hexact
    rw [except_toOption_eq_some] at hs hv
    exact ⟨s, v, hs, hexact, hv, decoding_inverts hs hexact⟩
  · cases hv

end Schema

end BinRecord
