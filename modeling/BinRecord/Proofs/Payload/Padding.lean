/-
Padding is bytes without an entry. A schema decodes as the one that has bytes in the place of all padding, and its
value is the value of the other without the entries of these fields. So the content of padding is of no account.

Padding is passed in one go, but bytes are read piece by piece. Both stop after the room that the type takes
(`skipPadding_iff_bytes`), and all else is the same. So what is read by the two schemas is compared struct by
struct, along the references of the table (`Conceals`).
-/
import BinRecord.Proofs.Payload.Content
import BinRecord.Proofs.Schema.RoundTrip

namespace BinRecord

/-! ## Bytes in the place of padding -/

/-- A primitive with bytes in the place of padding. -/
def Primitive.paddingAsBytes : Primitive → Primitive
  | padding w => bytes w
  | p => p

/-- A type with bytes in the place of padding. -/
def BaseType.paddingAsBytes : BaseType Nat → BaseType Nat
  | primitive p => primitive p.paddingAsBytes
  | struct i => struct i

/-- A field with bytes in the place of padding. -/
def Field.paddingAsBytes (f : Field) : Field := ⟨f.name, ⟨f.type.base.paddingAsBytes, f.type.arity⟩, f.position⟩

/-- A struct with bytes in the place of padding. -/
def Struct.paddingAsBytes (d : Struct) : Struct :=
  ⟨d.name, d.fields.map Field.paddingAsBytes, d.width, d.position⟩

namespace Schema

/-- A schema with bytes in the place of padding. -/
def paddingAsBytes (s : Schema) : Schema := ⟨s.structs.map Struct.paddingAsBytes, s.root⟩

/-- The field of a struct that has a name. -/
def fieldNamed? (s : Schema) : BaseType Nat → String → Option Field
  | .primitive _, _ => none
  | .struct i, name => (s.struct i).fields.find? (·.name = name)

mutual

/-- A value of a type, or an array of such values, without the entries of fields that are padding, at every level. -/
def withoutPadding (s : Schema) (b : BaseType Nat) : Value → Value
  | .struct entries => .struct (entriesWithoutPadding s b entries)
  | .array items => .array (itemsWithoutPadding s b items)
  | v => v

/-- The entries of a struct without those of padding. -/
def entriesWithoutPadding (s : Schema) (b : BaseType Nat) : List (String × Value) → List (String × Value)
  | [] => []
  | (name, v) :: entries =>
    match s.fieldNamed? b name with
    | none => (name, v) :: entriesWithoutPadding s b entries
    | some f =>
      if f.type.base.isPadding then entriesWithoutPadding s b entries
      else (name, withoutPadding s f.type.base v) :: entriesWithoutPadding s b entries

/-- The items of an array without what is padding in them. -/
def itemsWithoutPadding (s : Schema) (b : BaseType Nat) : List Value → List Value
  | [] => []
  | v :: items => withoutPadding s b v :: itemsWithoutPadding s b items

end

variable {s : Schema} {b : BaseType Nat}

@[simp] theorem isPadding_paddingAsBytes (b : BaseType Nat) : b.paddingAsBytes.isPadding = false := by
  cases b with
  | primitive p => cases p <;> rfl
  | struct i => rfl

theorem paddingAsBytes_of_not_isPadding (h : b.isPadding = false) : b.paddingAsBytes = b := by
  cases b with
  | primitive p =>
    cases p with
    | padding => cases h
    | _ => rfl
  | struct i => rfl

@[simp] theorem struct_paddingAsBytes (s : Schema) (i : Nat) :
    s.paddingAsBytes.struct i = (s.struct i).paddingAsBytes := by
  unfold struct paddingAsBytes
  rw [List.getElem?_map]
  cases s.structs[i]? with
  | none => rfl
  | some d => rfl

@[simp] theorem baseWidth_paddingAsBytes (s : Schema) (b : BaseType Nat) :
    s.paddingAsBytes.baseWidth b.paddingAsBytes = s.baseWidth b := by
  cases b with
  | primitive p => cases p <;> rfl
  | struct i =>
    show (s.paddingAsBytes.struct i).width = _
    rw [struct_paddingAsBytes]
    rfl

/-- The fields of a struct with bytes in the place of padding. -/
theorem mem_fields_paddingAsBytes {i : Nat} {f : Field} (h : f ∈ (s.paddingAsBytes.struct i).fields) :
    ∃ g ∈ (s.struct i).fields, g.paddingAsBytes = f := by
  rw [struct_paddingAsBytes] at h
  exact List.mem_map.1 h

theorem WellFormed.paddingAsBytes (h : s.WellFormed) : s.paddingAsBytes.WellFormed := by
  have hbase : ∀ {g : Field} {j : Nat}, g.paddingAsBytes.type.base = .struct j → g.type.base = .struct j :=
    fun {g j} hj => by
      change g.type.base.paddingAsBytes = _ at hj
      cases hb : g.type.base with
      | primitive p =>
        rw [hb] at hj
        cases hj
      | struct k =>
        rw [hb] at hj
        exact hj
  obtain ⟨rank, hrank⟩ := h.rank
  refine ⟨?_, ?_, fun i => ?_, fun i f hf j hj => ?_, ⟨rank, fun i f hf j hj => ?_⟩, fun i => ?_⟩
  · simpa [Schema.paddingAsBytes] using h.root
  · simpa [Schema.paddingAsBytes, Function.comp_def, Struct.paddingAsBytes] using h.names
  · simpa [Function.comp_def, Struct.paddingAsBytes, Field.paddingAsBytes] using h.fieldNames i
  · obtain ⟨g, hg, rfl⟩ := mem_fields_paddingAsBytes hf
    simpa [Schema.paddingAsBytes] using h.target i g hg j (hbase hj)
  · obtain ⟨g, hg, rfl⟩ := mem_fields_paddingAsBytes hf
    exact hrank i g hg j (hbase hj)
  · rw [struct_paddingAsBytes]
    refine (h.fits i).congr ?_
    rw [Struct.paddingAsBytes, List.map_map, List.forall₂_map_left_iff, List.forall₂_map_right_iff, List.forall₂_same]
    exact fun f _ => ⟨rfl, s.baseWidth_paddingAsBytes f.type.base⟩

@[simp] theorem itemsWithoutPadding_eq (s : Schema) (b : BaseType Nat) (items : List Value) :
    s.itemsWithoutPadding b items = items.map (s.withoutPadding b) := by
  induction items with
  | nil => rw [itemsWithoutPadding, List.map_nil]
  | cons v items ih => rw [itemsWithoutPadding, ih, List.map_cons]

@[simp] theorem withoutPadding_array (s : Schema) (b : BaseType Nat) (items : List Value) :
    s.withoutPadding b (.array items) = .array (items.map (s.withoutPadding b)) := by
  rw [withoutPadding, itemsWithoutPadding_eq]

theorem find?_name {f : Field} {fs : List Field} (hn : (fs.map (·.name)).Nodup) (hf : f ∈ fs) :
    fs.find? (·.name = f.name) = some f := by
  induction fs with
  | nil => cases hf
  | cons g fs ih =>
    rw [List.map_cons, List.nodup_cons] at hn
    rcases List.mem_cons.1 hf with rfl | hf
    · exact List.find?_cons_of_pos (by simp)
    · have hne : g.name ≠ f.name := fun he => hn.1 (he ▸ List.mem_map_of_mem (f := (·.name)) hf)
      rw [List.find?_cons_of_neg (by simpa using hne)]
      exact ih hn.2 hf

theorem entriesWithoutPadding_cons {f : Field} (hf : s.fieldNamed? b f.name = some f) (x : Value)
    (es : List (String × Value)) : s.entriesWithoutPadding b ((f.name, x) :: es) =
      (if f.type.base.isPadding then none else some (s.withoutPadding f.type.base x)).toList.map (f.name, ·) ++
        s.entriesWithoutPadding b es := by
  rw [entriesWithoutPadding, hf]
  dsimp only
  split <;> rfl

/-- Padding and bytes take the same room. -/
theorem typeTakes_padding_iff {w : Width} {a : Arity} {n m z : Nat} :
    s.TypeTakes ⟨.primitive (.padding w), a⟩ n m z ↔ s.TypeTakes ⟨.primitive (.bytes w), a⟩ n m z := by
  cases a with
  | single => rw [typeTakes_some (w := w.1) rfl, typeTakes_some (w := w.1) rfl]
  | times k => rw [typeTakes_some (w := w.1 * k) rfl, typeTakes_some (w := w.1 * k) rfl]
  | toEnd => rw [typeTakes_toEnd (u := w.1) rfl, typeTakes_toEnd (u := w.1) rfl]

/-! ## Readers -/

section Readers

variable {element element' : Path → Cursor → Except DecodeFailure (Value × Cursor)} {f : Value → Value} {u : Nat}

theorem readArity_times_eq_ok {path : Path} {k : Nat} {c c' : Cursor} {v : Value} :
    readArity element u path (.times k) c = .ok (v, c') ↔
      ∃ vs, readItems element path 0 [] k c = .ok (vs, c') ∧ v = .array vs := by
  simp only [readArity, except_bind_eq_ok]
  constructor
  · rintro ⟨⟨vs, c₁⟩, hvs, h⟩
    cases h
    exact ⟨vs, hvs, rfl⟩
  · rintro ⟨vs, hvs, rfl⟩
    exact ⟨(vs, c'), hvs, rfl⟩

theorem readArity_toEnd_eq_ok {path : Path} {c c' : Cursor} {v : Value} :
    readArity element u path .toEnd c = .ok (v, c') ↔
      ∃ vs, readItems element path 0 [] (c.left.toNat / u) c = .ok (vs, c') ∧ ¬ 0 < c'.left ∧ v = .array vs := by
  simp only [readArity, except_bind_eq_ok]
  constructor
  · rintro ⟨⟨vs, c₁⟩, hvs, h⟩
    dsimp only at h
    split at h
    · cases h
    · rename_i hend
      cases h
      exact ⟨vs, hvs, hend, rfl⟩
  · rintro ⟨vs, hvs, hend, rfl⟩
    exact ⟨(vs, c'), hvs, if_neg hend⟩

variable [Codecs] {bs : Bytes} {start : Nat}

theorem textsValid_bytes {w : Width} {a : Arity} {m q : Nat} :
    s.TextsValid m bs q ⟨.primitive (.bytes w), a⟩ := by
  intro steps o w' e hl
  cases hl with
  | item _ _ _ hl =>
    obtain ⟨-, -, ht⟩ := leads_primitive hl
    cases ht

/-- Padding is passed where bytes are read, and as far. -/
theorem skipPadding_iff_bytes (w : Width) (a : Arity) (path : Path) {q : Nat} {c : Cursor} (hq : q ≤ bs.length) :
    skipPadding w.1 path a (.within bs start q) = .ok c ↔
      ∃ v, readArity (Primitive.bytes w).read w.1 path a (.within bs start q) = .ok (v, c) := by
  let s : Schema := ⟨[], 0⟩
  have hbytes : s.Reads bs start (fun path => readArity (Primitive.bytes w).read w.1 path a)
      ⟨.primitive (.bytes w), a⟩ := reads_arity (reads_primitive _) fun _ => rfl
  rw [skipPadding_eq_ok (s := s) hq]
  simp only [typeTakes_padding_iff]
  constructor
  · rintro ⟨z, rfl, m, hz⟩
    exact hbytes.complete path q m z hq hz textsValid_bytes
  · rintro ⟨v, hv⟩
    obtain ⟨z, hc, hz, -⟩ := hbytes.sound path q v c hq hv
    exact ⟨z, hc, hz⟩

/-- A reader gives what is left by `f` of what another gives. -/
def Conceals (bs : Bytes) (start : Nat) (f : Value → Value)
    (reader reader' : Path → Cursor → Except DecodeFailure (Value × Cursor)) : Prop :=
  ∀ path q v c, q ≤ bs.length → (reader path (.within bs start q) = .ok (v, c) ↔
    ∃ v', reader' path (.within bs start q) = .ok (v', c) ∧ v = f v')

theorem conceals_readItems (he : Conceals bs start f element element')
    (hr : s.Reads bs start element ⟨b, .single⟩) (hu : s.baseWidth b = some u) (path : Path) :
    ∀ (count i q : Nat) (done vs : List Value) (c : Cursor), q ≤ bs.length →
      (readItems element path i (done.map f) count (.within bs start q) = .ok (vs, c) ↔
        ∃ vs', readItems element' path i done count (.within bs start q) = .ok (vs', c) ∧ vs = vs'.map f)
  | 0, i, q, done, vs, c, _ => by
    simp only [readItems, Except.ok.injEq, Prod.mk.injEq, ← List.map_reverse]
    constructor
    · rintro ⟨rfl, rfl⟩
      exact ⟨_, ⟨rfl, rfl⟩, rfl⟩
    · rintro ⟨_, ⟨rfl, rfl⟩, rfl⟩
      exact ⟨rfl, rfl⟩
  | count + 1, i, q, done, vs, c, hq => by
    -- the next item stands where this one ends
    have hnext : ∀ {v c₁}, element (path.item i) (.within bs start q) = .ok (v, c₁) →
        c₁ = .within bs start (q + u) ∧ q + u ≤ bs.length := fun {v c₁} hv => by
      obtain ⟨z, rfl, ⟨m, hz⟩, -⟩ := hr.sound _ q v c₁ hq hv
      obtain ⟨hle, rfl⟩ := (elementTakes_some hu).1 hz
      exact ⟨rfl, by omega⟩
    simp only [readItems, except_bind_eq_ok]
    constructor
    · rintro ⟨⟨v, c₁⟩, hv, h⟩
      obtain ⟨rfl, hin⟩ := hnext hv
      obtain ⟨v', hv', rfl⟩ := (he _ q v _ hq).1 hv
      obtain ⟨vs', hvs', rfl⟩ := (conceals_readItems he hr hu path count _ _ (v' :: done) vs c hin).1 h
      exact ⟨vs', ⟨_, hv', hvs'⟩, rfl⟩
    · rintro ⟨vs', ⟨⟨v', c₁⟩, hv', h⟩, rfl⟩
      have hv := (he _ q _ _ hq).2 ⟨v', hv', rfl⟩
      obtain ⟨rfl, hin⟩ := hnext hv
      exact ⟨_, hv, (conceals_readItems he hr hu path count _ _ (v' :: done) _ c hin).2 ⟨vs', h, rfl⟩⟩

theorem conceals_readArity (he : Conceals bs start f element element')
    (hf : ∀ vs, f (.array vs) = .array (vs.map f)) {a : Arity} (hr : s.Reads bs start element ⟨b, .single⟩)
    (hu : a ≠ .single → s.baseWidth b = some u) :
    Conceals bs start f (fun path => readArity element u path a) fun path => readArity element' u path a := by
  intro path q v c hq
  have hitems := fun ha k vs c => conceals_readItems he hr (hu ha) path k 0 q [] vs c hq
  cases a with
  | single => exact he path q v c hq
  | times k =>
    simp only [readArity_times_eq_ok]
    constructor
    · rintro ⟨vs, hvs, rfl⟩
      obtain ⟨vs', hvs', rfl⟩ := (hitems (by simp) k vs c).1 hvs
      exact ⟨_, ⟨vs', hvs', rfl⟩, (hf vs').symm⟩
    · rintro ⟨_, ⟨vs', hvs', rfl⟩, rfl⟩
      exact ⟨_, (hitems (by simp) k _ c).2 ⟨vs', hvs', rfl⟩, hf vs'⟩
  | toEnd =>
    simp only [readArity_toEnd_eq_ok]
    constructor
    · rintro ⟨vs, hvs, hend, rfl⟩
      obtain ⟨vs', hvs', rfl⟩ := (hitems (by simp) _ vs c).1 hvs
      exact ⟨_, ⟨vs', hvs', hend, rfl⟩, (hf vs').symm⟩
    · rintro ⟨_, ⟨vs', hvs', hend, rfl⟩, rfl⟩
      exact ⟨_, (hitems (by simp) _ _ c).2 ⟨vs', hvs', rfl⟩, hend, hf vs'⟩

/-- Every base type of a table is read. -/
theorem WellFormed.reads_base (h : s.WellFormed) (b : BaseType Nat) :
    s.Reads bs start (s.baseShape b).read ⟨b, .single⟩ := by
  cases b with
  | primitive p =>
    show s.Reads bs start (Shape.primitive p).read _
    rw [read_primitive]
    exact reads_primitive p
  | struct j => exact reads_struct h j

variable (bs start) in
/-- The values of a type that is no array are read by both schemas. -/
def BaseConceals (s : Schema) (b : BaseType Nat) : Prop :=
  Conceals bs start (s.withoutPadding b) (s.baseShape b).read (s.paddingAsBytes.baseShape b.paddingAsBytes).read

/-- A field has the value that is read by the other schema, without what is padding in it, and none if it is padding
itself. -/
theorem readEntry_conceals (h : s.WellFormed) (hb : b.isPadding = false → s.BaseConceals bs start b) {a : Arity}
    (he : ElementFits s.baseWidth ⟨b, a⟩) (path : Path) {q : Nat} {v : Option Value} {c : Cursor}
    (hq : q ≤ bs.length) :
    readEntry (s.baseShape b) a path (.within bs start q) = .ok (v, c) ↔
      ∃ x, readEntry (s.paddingAsBytes.baseShape b.paddingAsBytes) a path (.within bs start q) = .ok (some x, c) ∧
        v = if b.isPadding then none else some (s.withoutPadding b x) := by
  -- the other schema has no padding
  have hbytes : ∀ {x}, readEntry (s.paddingAsBytes.baseShape b.paddingAsBytes) a path (.within bs start q) =
      .ok (some x, c) ↔ readArity (s.paddingAsBytes.baseShape b.paddingAsBytes).read ((s.baseWidth b).getD 0) path a
        (.within bs start q) = .ok (x, c) := fun {x} => by
    rw [readEntry, h.paddingAsBytes.paddingUnit?_eq, isPadding_paddingAsBytes, h.paddingAsBytes.width_baseShape,
      baseWidth_paddingAsBytes]
    simp [except_map_eq_ok]
  simp only [hbytes]
  rw [readEntry, h.paddingUnit?_eq]
  cases hp : b.isPadding with
  | true =>
    obtain ⟨w, rfl⟩ := isPadding_iff.1 hp
    have hread : (s.paddingAsBytes.baseShape (.primitive (.bytes w))).read = (Primitive.bytes w).read :=
      read_primitive _
    have hskip : skipPadding w.1 path a (.within bs start q) = .ok c ↔ _ := skipPadding_iff_bytes w a path hq
    show (skipPadding w.1 path a (.within bs start q)).map (fun c => ((none : Option Value), c)) = .ok (v, c) ↔
      ∃ x, readArity (s.paddingAsBytes.baseShape (.primitive (.bytes w))).read w.1 path a _ = _ ∧ v = none
    rw [hread, except_map_eq_ok]
    constructor
    · rintro ⟨c₁, hc, h⟩
      cases h
      obtain ⟨x, hx⟩ := hskip.1 hc
      exact ⟨x, hx, rfl⟩
    · rintro ⟨x, hx, rfl⟩
      exact ⟨c, hskip.2 ⟨x, hx⟩, rfl⟩
  | false =>
    have hwidth : a ≠ .single → s.baseWidth b = some ((s.baseWidth b).getD 0) := fun ha => by
      obtain ⟨u, hu, -⟩ := he ha
      change s.baseWidth b = some u at hu
      rw [hu, Option.getD_some]
    have hvalue := conceals_readArity (hb hp) (s.withoutPadding_array b) (h.reads_base b) hwidth path q
    show (readArity (s.baseShape b).read ((s.baseShape b).width.getD 0) path a _).map _ = _ ↔ ∃ x, _ ∧ v = some _
    rw [h.width_baseShape, except_map_eq_ok]
    constructor
    · rintro ⟨⟨y, c₁⟩, hy, h⟩
      cases h
      obtain ⟨x, hx, rfl⟩ := (hvalue y _ hq).1 hy
      exact ⟨x, hx, rfl⟩
    · rintro ⟨x, hx, rfl⟩
      exact ⟨(_, c), (hvalue _ c hq).2 ⟨x, hx, rfl⟩, rfl⟩

/-- Every field of the other schema has a value. -/
theorem exists_value_of_readEntry (h : s.WellFormed) {a : Arity} {path : Path} {c c' : Cursor} {v : Option Value}
    (hv : readEntry (s.paddingAsBytes.baseShape b.paddingAsBytes) a path c = .ok (v, c')) : ∃ x, v = some x := by
  rw [readEntry, h.paddingAsBytes.paddingUnit?_eq, isPadding_paddingAsBytes] at hv
  obtain ⟨r, -, hr⟩ := except_map_eq_ok.1 hv
  cases hr
  exact ⟨r.1, rfl⟩

theorem readFields_conceals (h : s.WellFormed) {i : Nat} : ∀ {fs : List Field} {total : Option Nat},
    (∀ f ∈ fs, s.fieldNamed? (.struct i) f.name = some f) → Fits s.baseWidth (fs.map (·.type)) total →
    (∀ f ∈ fs, f.type.base.isPadding = false → s.BaseConceals bs start f.type.base) →
    ∀ (path : Path) (q : Nat) (es : List (String × Value)) (c : Cursor), q ≤ bs.length →
      (Shape.readFields (fs.map s.fieldShape) path (.within bs start q) = .ok (es, c) ↔
        ∃ es', Shape.readFields (fs.map fun f => s.paddingAsBytes.fieldShape f.paddingAsBytes) path
          (.within bs start q) = .ok (es', c) ∧ es = s.entriesWithoutPadding (.struct i) es')
  | [], _, _, _, _, path, q, es, c, _ => by
    simp only [List.map_nil, Shape.readFields, Except.ok.injEq, Prod.mk.injEq]
    constructor
    · rintro ⟨rfl, rfl⟩
      exact ⟨[], ⟨rfl, rfl⟩, by rw [entriesWithoutPadding]⟩
    · rintro ⟨_, ⟨rfl, rfl⟩, rfl⟩
      exact ⟨by rw [entriesWithoutPadding], rfl⟩
  | f :: fs, _, hnamed, hfits, hb, path, q, es, c, hq => by
    obtain ⟨he, -, _, hfits'⟩ := fits_cons hfits
    obtain ⟨hname, hnames⟩ := List.forall_mem_cons.1 hnamed
    obtain ⟨hbf, hbfs⟩ := List.forall_mem_cons.1 hb
    have hentry := fun v c => readEntry_conceals h hbf he (path.field f.name) (v := v) (c := c) hq
    -- the other fields stand behind the room that the field takes
    have hothers : ∀ {v c₁}, readEntry (s.baseShape f.type.base) f.type.arity (path.field f.name)
        (.within bs start q) = .ok (v, c₁) → ∀ es c, (Shape.readFields (fs.map s.fieldShape) path c₁ = .ok (es, c) ↔
          ∃ es', Shape.readFields (fs.map fun f => s.paddingAsBytes.fieldShape f.paddingAsBytes) path c₁ =
            .ok (es', c) ∧ es = s.entriesWithoutPadding (.struct i) es') := fun {v c₁} hv es c => by
      obtain ⟨z, rfl, ⟨m, hz⟩, -⟩ := readEntry_sound h (h.reads_base _) he hq hv
      have hle := hz.le
      exact readFields_conceals h hnames hfits' hbfs path (q + z) es c (by omega)
    constructor
    · intro hread
      obtain ⟨v, c₁, es₁, hv, hes, rfl⟩ := readFields_cons_eq_ok.1 hread
      obtain ⟨es', hes', rfl⟩ := (hothers hv es₁ c).1 hes
      obtain ⟨x, hx, rfl⟩ := (hentry v c₁).1 hv
      exact ⟨(f.name, x) :: es', readFields_cons_eq_ok.2 ⟨some x, c₁, es', hx, hes', rfl⟩,
        (entriesWithoutPadding_cons hname x es').symm⟩
    · rintro ⟨_, hread, rfl⟩
      obtain ⟨v, c₁, es', hx, hes', rfl⟩ := readFields_cons_eq_ok.1 hread
      obtain ⟨x, rfl⟩ := exists_value_of_readEntry h hx
      have hv := (hentry _ c₁).2 ⟨x, hx, rfl⟩
      exact readFields_cons_eq_ok.2 ⟨_, c₁, _, hv, (hothers hv _ c).2 ⟨es', hes', rfl⟩,
        entriesWithoutPadding_cons hname x es'⟩

theorem conceals_primitive {p : Primitive} (hp : p.isPadding = false) : s.BaseConceals bs start (.primitive p) := by
  intro path q v c _
  rw [paddingAsBytes_of_not_isPadding (b := .primitive p) hp]
  show (Shape.primitive p).read _ _ = _ ↔ ∃ v', (Shape.primitive p).read _ _ = _ ∧ _
  rw [read_primitive]
  -- a value without parts has no entries
  have hsame : ∀ {v}, p.read path (.within bs start q) = .ok (v, c) → s.withoutPadding (.primitive p) v = v :=
    fun {v} hv => by
      obtain ⟨-, hv, -⟩ := Primitive.read_eq_ok.1 hv
      cases p with
      | text w e =>
        obtain ⟨cs, -, rfl⟩ := Option.map_eq_some_iff.1 hv
        simp [withoutPadding]
      | _ =>
        cases hv
        simp [withoutPadding]
  constructor
  · intro hv
    exact ⟨v, hv, (hsame hv).symm⟩
  · rintro ⟨v', hv', rfl⟩
    rwa [hsame hv']

/-- The values of every struct are read by both schemas. -/
theorem WellFormed.conceals_struct (h : s.WellFormed) (i : Nat) : s.BaseConceals bs start (.struct i) := by
  refine h.induction (P := fun i => s.BaseConceals bs start (.struct i)) (fun i ih => ?_) i
  have hbase : ∀ f ∈ (s.struct i).fields, f.type.base.isPadding = false → s.BaseConceals bs start f.type.base :=
    fun f hf hpad => by
      cases hb : f.type.base with
      | primitive p =>
        rw [hb] at hpad
        exact conceals_primitive hpad
      | struct j => exact ih f hf j hb
  have hfields := readFields_conceals h (i := i) (fun f hf => find?_name (h.fieldNames i) hf) (h.fits i) hbase
  intro path q v c hq
  show (s.shapeAt i).read _ _ = _ ↔ ∃ v', (s.paddingAsBytes.shapeAt i).read _ _ = _ ∧ _
  rw [h.shapeAt_eq, h.paddingAsBytes.shapeAt_eq, struct_paddingAsBytes, Struct.paddingAsBytes, List.map_map]
  simp only [Shape.read, except_bind_eq_ok]
  constructor
  · rintro ⟨⟨es, c₁⟩, hes, hv⟩
    cases hv
    obtain ⟨es', hes', rfl⟩ := (hfields path q es _ hq).1 hes
    exact ⟨.struct es', ⟨_, hes', rfl⟩, by rw [withoutPadding]⟩
  · rintro ⟨_, ⟨⟨es', c₁⟩, hes', hv⟩, rfl⟩
    cases hv
    exact ⟨_, (hfields path q _ _ hq).2 ⟨es', hes', rfl⟩, by rw [withoutPadding]⟩

end Readers

/-! ## Payloads -/

/-- A schema decodes as another does that has bytes in the place of its padding, and gives the same value but for the
entries of padding. What the bytes of padding are is of no account. -/
structure HidesPadding [Codecs] (s s' : Schema) (data : Bytes) (offset stop : Nat) (size : Option Int) : Prop where
  succeeds_iff : (∃ v, s.decode data offset size = .ok v) ↔ ∃ v, s'.decode data offset size = .ok v
  value : ∀ v, s'.decode data offset size = .ok v →
    s.decode data offset size = .ok (s.withoutPadding (.struct s.root) v)
  content : ∀ data', data'.length = data.length →
    (∀ i < stop - offset, ¬ s.PaddingByte (stop - offset) i → data'[offset + i]? = data[offset + i]?) →
    s.decode data' offset size = s.decode data offset size

/-- Padding is bytes without an entry, whatever these bytes are. -/
theorem decode_hides_padding [Codecs] {text : String} {root : Option String} {s s' : Schema}
    (h : compile text root = .ok s)
    (hs' : s'.unplaced = s.paddingAsBytes.unplaced) (data : Bytes) (offset stop : Nat) (size : Option Int)
    (hstop : payloadEnd data offset size = stop) (hle : offset ≤ stop) (hlen : stop ≤ data.length) :
    s.HidesPadding s' data offset stop size := by
  have hs := wellFormed_of_compile h
  have hdecode : s'.decode = s.paddingAsBytes.decode := by rw [← decode_unplaced, hs', decode_unplaced]
  have hroot : s.paddingAsBytes.rootStruct.name = s.rootStruct.name := by
    rw [rootStruct, struct_paddingAsBytes]
    rfl
  -- what the two schemas read
  have hok : ∀ v, s.decode data offset size = .ok v ↔
      ∃ v', s'.decode data offset size = .ok v' ∧ v = s.withoutPadding (.struct s.root) v' := fun v => by
    have hroots : s.BaseConceals ((data.drop offset).take (stop - offset)) offset (.struct s.root) :=
      hs.conceals_struct s.root
    have hread := fun c => hroots ⟨s.rootStruct.name, []⟩ 0 v c (Nat.zero_le _)
    rw [hdecode]
    simp only [decode_eq_ok hstop hle hlen, hroot]
    constructor
    · rintro ⟨c, hv⟩
      obtain ⟨v', hv', rfl⟩ := (hread c).1 hv
      exact ⟨v', ⟨c, hv'⟩, rfl⟩
    · rintro ⟨v', ⟨c, hv'⟩, rfl⟩
      exact ⟨c, (hread c).2 ⟨v', hv', rfl⟩⟩
  have hvalue : ∀ v', s'.decode data offset size = .ok v' →
      s.decode data offset size = .ok (s.withoutPadding (.struct s.root) v') := fun v' hv' =>
    (hok _).2 ⟨v', hv', rfl⟩
  refine ⟨⟨?_, ?_⟩, hvalue, fun data' hlen' hsame => hs.decode_eq_of_padding hstop hle hlen hlen' hsame⟩
  · rintro ⟨v, hv⟩
    obtain ⟨v', hv', -⟩ := (hok v).1 hv
    exact ⟨v', hv'⟩
  · rintro ⟨v', hv'⟩
    exact ⟨_, hvalue v' hv'⟩

/-- It makes no difference whether places or padding are taken away first. -/
theorem unplaced_paddingAsBytes (s : Schema) : s.paddingAsBytes.unplaced = s.unplaced.paddingAsBytes := by
  simp only [unplaced, paddingAsBytes, List.map_map, mk.injEq, and_true]
  refine List.map_congr_left fun d _ => ?_
  simp [Struct.unplaced, Struct.paddingAsBytes, Function.comp_def, Field.unplaced, Field.paddingAsBytes]

/-- Padding as a field of items and up to the end, in a payload inside other bytes. -/
theorem decode_hides_padding_everywhere : ∃ s s',
    compile "struct P { x: U8, gap: PAD<2> } struct R { ps: P[2], rest: PAD<2>[+] }" none = .ok s ∧
    compile "struct P { x: U8, gap: BYTES<2> } struct R { ps: P[2], rest: BYTES<2>[+] }" none = .ok s' ∧
    s'.unplaced = s.paddingAsBytes.unplaced ∧
    (∃ v, s.decode [0, 1, 9, 9, 2, 9, 9, 9, 9, 9, 9, 0] 1 (some 10) = .ok v) ∧
    s.HidesPadding s' [0, 1, 9, 9, 2, 9, 9, 9, 9, 9, 9, 0] 1 11 (some 10) := by
  let place := Struct.missing.position
  let table (gap : Primitive) : Schema := ⟨[
    ⟨"P", [⟨"x", ⟨.primitive (.unsigned .one .big), .single⟩, place⟩, ⟨"gap", ⟨.primitive gap, .single⟩, place⟩],
      some 3, place⟩,
    ⟨"R", [⟨"ps", ⟨.struct 0, .times 2⟩, place⟩, ⟨"rest", ⟨.primitive gap, .toEnd⟩, place⟩], none, place⟩], 1⟩
  have hpadding : (compile "struct P { x: U8, gap: PAD<2> } struct R { ps: P[2], rest: PAD<2>[+] }"
      none).toOption.map unplaced = some (table (.padding ⟨2, by decide⟩)) := by decide +kernel
  have hbytes : (compile "struct P { x: U8, gap: BYTES<2> } struct R { ps: P[2], rest: BYTES<2>[+] }"
      none).toOption.map unplaced = some (table (.bytes ⟨2, by decide⟩)) := by decide +kernel
  have hdecodes : ((table (.padding ⟨2, by decide⟩)).decode [0, 1, 9, 9, 2, 9, 9, 9, 9, 9, 9, 0] 1
      (some 10)).toOption.isSome = true := by decide +kernel
  obtain ⟨s, hs, hs₁⟩ := Option.map_eq_some_iff.1 hpadding
  obtain ⟨s', hs', hs'₁⟩ := Option.map_eq_some_iff.1 hbytes
  rw [except_toOption_eq_some] at hs hs'
  have hsame : s'.unplaced = s.paddingAsBytes.unplaced := by
    rw [unplaced_paddingAsBytes, hs₁, hs'₁]
    rfl
  obtain ⟨v, hv⟩ := Option.isSome_iff_exists.1 hdecodes
  rw [except_toOption_eq_some, ← hs₁, decode_unplaced] at hv
  exact ⟨s, s', hs, hs', hsame, ⟨v, hv⟩, decode_hides_padding hs hsame
    [0, 1, 9, 9, 2, 9, 9, 9, 9, 9, 9, 0] 1 11 (some 10) rfl (by decide) (by decide)⟩

end Schema

end BinRecord
