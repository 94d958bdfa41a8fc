/-
The layout of payloads, said of the table of a schema and without reading anything: which parts a
value of a type has, how far into it each part starts, how many bytes stand before the infinite array
at its end, and what a value says about the bytes of its parts.
-/
import BinRecord.Payload.Decode
import BinRecord.Proofs.Schema.WellFormed

namespace BinRecord

/-- The part of a value to which some steps lead, the first of them first. -/
def Value.at? (v : Value) : List PathStep → Option Value
  | [] => some v
  | .field name :: steps =>
    match v with
    | .struct entries => (entries.lookup name).bind (·.at? steps)
    | _ => none
  | .item j :: steps =>
    match v with
    | .array items => items[j]?.bind (·.at? steps)
    | _ => none

/-- The value that the bytes of a primitive stand for; none for bytes that are no text. -/
def Primitive.value? [Codecs] : Primitive → Bytes → Option Value
  | unsigned _ order, bs => some (.int (bs.toNat order))
  | signed _ order, bs => some (.int (bs.toInt order))
  | float f order, bs => some (.float f (Double.ofBits f (bs.toNat order)))
  | text _ encoding, bs => (encoding.decode bs).toOption.map fun cs => .text (String.ofList cs)
  | bytes _, bs | padding _, bs => some (.bytes bs)

/-- The number of items of an array, `m` if it goes on to the end; none for a type that is no array. -/
def Arity.items? (m : Nat) : Arity → Option Nat
  | single => none
  | times k => some k
  | toEnd => some m

namespace Schema

variable (s : Schema)

/-- The number of bytes that fields take together; none if one of them is unbounded. -/
def extent (fs : List Field) : Option Nat := (fs.mapM fun f => s.widthOf f.type).map List.sum

/-- In a value of a type some steps lead to a part of another type, which starts so many bytes after the
value: after the fields before it in every struct, and after the items before it in every array. An
array that goes on to the end has `m` items. -/
inductive Leads (m : Nat) : FieldType Nat → List PathStep → Nat → FieldType Nat → Prop
  | here (t : FieldType Nat) : Leads m t [] 0 t
  | field {i w o : Nat} {before after : List Field} {f : Field} {steps : List PathStep} {t : FieldType Nat} :
      (s.struct i).fields = before ++ f :: after → s.extent before = some w → Leads m f.type steps o t →
      Leads m ⟨.struct i, .single⟩ (.field f.name :: steps) (w + o) t
  | item {b : BaseType Nat} {a : Arity} {k j u o : Nat} {steps : List PathStep} {t : FieldType Nat} :
      a.items? m = some k → j < k → s.baseWidth b = some u → Leads m ⟨b, .single⟩ steps o t →
      Leads m ⟨b, a⟩ (.item j :: steps) (j * u + o) t

/-- At the end of every value of a type stands an infinite array, with so many bytes before it. -/
inductive Tail : FieldType Nat → Nat → BaseType Nat → Prop
  | array (b : BaseType Nat) : Tail ⟨b, .toEnd⟩ 0 b
  | struct {i w p : Nat} {before : List Field} {f : Field} {b : BaseType Nat} :
      (s.struct i).fields = before ++ [f] → s.extent before = some w → Tail f.type p b →
      Tail ⟨.struct i, .single⟩ (w + p) b

/-- The names of the fields that have a value, in order. -/
def valueNames (fs : List Field) : List String := (fs.filter fun f => !f.type.base.isPadding).map (·.name)

/-- A value is one of its type, the bytes of which start `o` bytes into `bs`: it has the fields of the
struct but for padding, the items of the array, or says what the bytes of the primitive stand for. -/
inductive Mirrors [Codecs] (m : Nat) (bs : Bytes) (o : Nat) : FieldType Nat → Value → Prop
  | struct {i : Nat} {entries : List (String × Value)} : entries.map (·.1) = valueNames (s.struct i).fields →
      Mirrors m bs o ⟨.struct i, .single⟩ (.struct entries)
  | array {b : BaseType Nat} {a : Arity} {k : Nat} {items : List Value} : a.items? m = some k →
      items.length = k → Mirrors m bs o ⟨b, a⟩ (.array items)
  | primitive {p : Primitive} {v : Value} : o + p.width ≤ bs.length →
      p.value? ((bs.drop o).take p.width) = some v → Mirrors m bs o ⟨.primitive p, .single⟩ v

/-- All parts of a value but padding are those of the bytes from `q` on. -/
def Faithful [Codecs] (m : Nat) (bs : Bytes) (q : Nat) (t : FieldType Nat) (v : Value) : Prop :=
  ∀ steps o t', s.Leads m t steps o t' → t'.base.isPadding = false →
    ∃ v', v.at? steps = some v' ∧ s.Mirrors m bs (q + o) t' v'

/-- The bytes of all texts in a value that starts at `q` are valid in their encodings. -/
def TextsValid [Codecs] (m : Nat) (bs : Bytes) (q : Nat) (t : FieldType Nat) : Prop :=
  ∀ steps o w e, s.Leads m t steps o ⟨.primitive (.text w e), .single⟩ →
    ∃ cs, e.decode ((bs.drop (q + o)).take w.1) = .ok cs

/-- The type of a payload. -/
def rootType : FieldType Nat := ⟨.struct s.root, .single⟩

/-- What decoding a payload comes to. A type with a width decodes when it finds room and its texts are
valid; one that is unbounded when the bytes after those before its infinite array are whole elements. The
value is that of the bytes. -/
structure DecodesByLayout [Codecs] (payload : Bytes) (result : Except PayloadFailure Value) : Prop where
  bounded : ∀ w, s.rootStruct.width = some w →
    ((∃ v, result = .ok v) ↔ w ≤ payload.length ∧ s.TextsValid 0 payload 0 s.rootType) ∧
      ∀ v, result = .ok v → s.Faithful 0 payload 0 s.rootType v
  unbounded : s.rootStruct.width = none → ∃ p b u, s.Tail s.rootType p b ∧ s.baseWidth b = some u ∧ 0 < u ∧
    ((∃ v, result = .ok v) ↔ p ≤ payload.length ∧ u ∣ payload.length - p ∧
      s.TextsValid ((payload.length - p) / u) payload 0 s.rootType) ∧
      ∀ v, result = .ok v → s.Faithful ((payload.length - p) / u) payload 0 s.rootType v

/-! ## Fields one after the other -/

/-- The parts of fields that stand one after the other. -/
def LeadsIn (m : Nat) (fs : List Field) (steps : List PathStep) (o : Nat) (t : FieldType Nat) : Prop :=
  ∃ before f after w steps' o', fs = before ++ f :: after ∧ s.extent before = some w ∧
    steps = .field f.name :: steps' ∧ o = w + o' ∧ s.Leads m f.type steps' o' t

/-- The infinite array at the end of the last of some fields. -/
def TailIn (fs : List Field) (p : Nat) (b : BaseType Nat) : Prop :=
  ∃ before f w p', fs = before ++ [f] ∧ s.extent before = some w ∧ p = w + p' ∧ s.Tail f.type p' b

variable {s} {m : Nat}

theorem extent_nil : s.extent [] = some 0 := rfl

theorem extent_cons {f : Field} {fs : List Field} {k : Nat} : s.extent (f :: fs) = some k ↔
    ∃ w l, s.widthOf f.type = some w ∧ s.extent fs = some l ∧ k = w + l := by
  unfold extent
  rw [List.mapM_cons]
  cases s.widthOf f.type with
  | none => simp
  | some w =>
    cases fs.mapM fun f => s.widthOf f.type with
    | none => simp
    | some ws => simp [eq_comm]

theorem extent_cons_of_some {f : Field} {fs : List Field} {w : Nat} (hw : s.widthOf f.type = some w) :
    s.extent (f :: fs) = (s.extent fs).map (w + ·) := by
  cases hf : s.extent fs with
  | some l => exact extent_cons.2 ⟨w, l, hw, hf, rfl⟩
  | none =>
    cases h : s.extent (f :: fs) with
    | none => rfl
    | some k =>
      obtain ⟨_, l, -, hl, -⟩ := extent_cons.1 h
      rw [hf] at hl
      cases hl

theorem leads_struct_iff {i : Nat} {steps : List PathStep} {o : Nat} {t : FieldType Nat} :
    s.Leads m ⟨.struct i, .single⟩ steps o t ↔
      (steps = [] ∧ o = 0 ∧ t = ⟨.struct i, .single⟩) ∨ s.LeadsIn m (s.struct i).fields steps o t := by
  constructor
  · intro h
    cases h with
    | here => exact .inl ⟨rfl, rfl, rfl⟩
    | field hfs hw h => exact .inr ⟨_, _, _, _, _, _, hfs, hw, rfl, rfl, h⟩
    | item hk => cases hk
  · rintro (⟨rfl, rfl, rfl⟩ | ⟨_, _, _, _, _, _, hfs, hw, rfl, rfl, h⟩)
    · exact .here _
    · exact .field hfs hw h

theorem leads_array_iff {b : BaseType Nat} {a : Arity} {k u : Nat} (hk : a.items? m = some k)
    (hu : s.baseWidth b = some u) {steps : List PathStep} {o : Nat} {t : FieldType Nat} :
    s.Leads m ⟨b, a⟩ steps o t ↔ (steps = [] ∧ o = 0 ∧ t = ⟨b, a⟩) ∨
      ∃ j steps' o', j < k ∧ steps = .item j :: steps' ∧ o = j * u + o' ∧ s.Leads m ⟨b, .single⟩ steps' o' t := by
  constructor
  · intro h
    cases h with
    | here => exact .inl ⟨rfl, rfl, rfl⟩
    | field => cases hk
    | item hk' hj hu' h =>
      rw [hk, Option.some.injEq] at hk'
      rw [hu, Option.some.injEq] at hu'
      subst hk' hu'
      exact .inr ⟨_, _, _, hj, rfl, rfl, h⟩
  · rintro (⟨rfl, rfl, rfl⟩ | ⟨j, steps', o', hj, rfl, rfl, h⟩)
    · exact .here _
    · exact .item hk hj hu h

theorem not_leadsIn_nil {steps : List PathStep} {o : Nat} {t : FieldType Nat} : ¬ s.LeadsIn m [] steps o t := by
  rintro ⟨before, f, after, _, _, _, h, -⟩
  cases before <;> cases h

theorem leadsIn_cons {f : Field} {fs : List Field} {steps : List PathStep} {o : Nat} {t : FieldType Nat} :
    s.LeadsIn m (f :: fs) steps o t ↔ (∃ steps', steps = .field f.name :: steps' ∧ s.Leads m f.type steps' o t) ∨
      ∃ w o', s.widthOf f.type = some w ∧ o = w + o' ∧ s.LeadsIn m fs steps o' t := by
  constructor
  · rintro ⟨before, g, after, w, steps', o', hfs, hw, rfl, rfl, h⟩
    rcases before with _ | ⟨a, before⟩
    · cases hfs
      rw [extent_nil, Option.some.injEq] at hw
      subst hw
      exact .inl ⟨steps', rfl, by rwa [Nat.zero_add]⟩
    · cases hfs
      obtain ⟨k, l, hk, hl, rfl⟩ := extent_cons.1 hw
      exact .inr ⟨k, l + o', hk, Nat.add_assoc .., before, g, after, l, steps', o', rfl, hl, rfl, rfl, h⟩
  · rintro (⟨steps', rfl, h⟩ | ⟨k, _, hk, rfl, before, g, after, l, steps', o', rfl, hl, rfl, rfl, h⟩)
    · exact ⟨[], f, fs, 0, steps', o, rfl, extent_nil, rfl, (Nat.zero_add o).symm, h⟩
    · exact ⟨f :: before, g, after, k + l, steps', o', rfl, extent_cons.2 ⟨k, l, hk, hl, rfl⟩, rfl,
        (Nat.add_assoc ..).symm, h⟩

theorem leadsIn_head {fs : List Field} {steps : List PathStep} {o : Nat} {t : FieldType Nat}
    (h : s.LeadsIn m fs steps o t) : ∃ f ∈ fs, ∃ steps', steps = .field f.name :: steps' := by
  obtain ⟨before, f, after, _, steps', _, rfl, -, rfl, -⟩ := h
  exact ⟨f, by simp, steps', rfl⟩

theorem tail_struct_iff {i p : Nat} {b : BaseType Nat} :
    s.Tail ⟨.struct i, .single⟩ p b ↔ s.TailIn (s.struct i).fields p b := by
  constructor
  · intro h
    cases h with
    | struct hfs hw h => exact ⟨_, _, _, _, hfs, hw, rfl, h⟩
  · rintro ⟨_, _, _, _, hfs, hw, rfl, h⟩
    exact .struct hfs hw h

theorem Tail.unique {t : FieldType Nat} {p p' : Nat} {b b' : BaseType Nat} (h : s.Tail t p b) (h' : s.Tail t p' b') :
    p' = p ∧ b' = b := by
  induction h generalizing p' b' with
  | array b => cases h'; exact ⟨rfl, rfl⟩
  | struct hfs hw _ ih =>
    cases h' with
    | struct hfs' hw' h' =>
      obtain ⟨rfl, hf⟩ := List.append_inj' (hfs.symm.trans hfs') rfl
      cases hf
      rw [hw, Option.some.injEq] at hw'
      obtain ⟨rfl, rfl⟩ := ih h'
      exact ⟨by rw [hw'], rfl⟩

theorem tailIn_singleton {f : Field} {p : Nat} {b : BaseType Nat} : s.TailIn [f] p b ↔ s.Tail f.type p b := by
  constructor
  · rintro ⟨before, g, w, p', hfs, hw, rfl, h⟩
    rcases before with _ | ⟨a, before⟩
    · cases hfs
      rw [extent_nil, Option.some.injEq] at hw
      subst hw
      rwa [Nat.zero_add]
    · simp at hfs
  · intro h
    exact ⟨[], f, 0, p, rfl, extent_nil, (Nat.zero_add p).symm, h⟩

theorem tailIn_cons {f g : Field} {fs : List Field} {w p : Nat} {b : BaseType Nat}
    (hw : s.widthOf f.type = some w) :
    s.TailIn (f :: g :: fs) p b ↔ ∃ p', p = w + p' ∧ s.TailIn (g :: fs) p' b := by
  constructor
  · rintro ⟨before, a, k, p', hfs, hk, rfl, h⟩
    rcases before with _ | ⟨a', before⟩
    · cases hfs
    · simp only [List.cons_append, List.cons.injEq] at hfs
      obtain ⟨rfl, hfs⟩ := hfs
      obtain ⟨w', l, hw', hl, rfl⟩ := extent_cons.1 hk
      rw [hw, Option.some.injEq] at hw'
      subst hw'
      exact ⟨l + p', Nat.add_assoc .., before, a, l, p', hfs, hl, rfl, h⟩
  · rintro ⟨_, rfl, before, a, l, p', hfs, hl, rfl, h⟩
    exact ⟨f :: before, a, w + l, p', by rw [hfs]; rfl, extent_cons.2 ⟨w, l, hw, hl, rfl⟩,
      (Nat.add_assoc ..).symm, h⟩

/-! ## Room -/

variable (s) in
/-- What has a width, or else ends in an infinite array, finds room in `a` bytes: it takes `z` of them, and
an array at its end has `m` items. The array takes all bytes there are, and leaves no part of an item. -/
inductive Takes (width : Option Nat) (tail : Nat → BaseType Nat → Prop) (a m z : Nat) : Prop
  | bounded {w : Nat} : width = some w → w ≤ a → z = w → Takes width tail a m z
  | unbounded {p u : Nat} {b : BaseType Nat} : width = none → tail p b → s.baseWidth b = some u → p ≤ a →
      u ∣ a - p → m = (a - p) / u → z = a → Takes width tail a m z

variable (s) in
/-- A value of a type finds room. -/
abbrev TypeTakes (t : FieldType Nat) (a m z : Nat) : Prop := s.Takes (s.widthOf t) (s.Tail t) a m z

variable (s) in
/-- Fields one after the other find room. -/
abbrev FieldsTake (fs : List Field) (a m z : Nat) : Prop := s.Takes (s.extent fs) (s.TailIn fs) a m z

variable {a z : Nat}

theorem Takes.le {width : Option Nat} {tail : Nat → BaseType Nat → Prop} (h : s.Takes width tail a m z) :
    z ≤ a := by
  cases h with
  | bounded _ hw hz => omega
  | unbounded _ _ _ _ _ _ hz => omega

theorem takes_some {w : Nat} {tail : Nat → BaseType Nat → Prop} :
    s.Takes (some w) tail a m z ↔ w ≤ a ∧ z = w := by
  constructor
  · intro h
    cases h with
    | bounded hw ha hz => cases hw; exact ⟨ha, hz⟩
    | unbounded hw => cases hw
  · rintro ⟨ha, hz⟩
    exact .bounded rfl ha hz

theorem takes_none {p u : Nat} {b : BaseType Nat} {tail : Nat → BaseType Nat → Prop}
    (hunique : ∀ p' b', tail p' b' ↔ p' = p ∧ b' = b) (hu : s.baseWidth b = some u) :
    s.Takes none tail a m z ↔ p ≤ a ∧ u ∣ a - p ∧ m = (a - p) / u ∧ z = a := by
  constructor
  · intro h
    cases h with
    | bounded hw => cases hw
    | unbounded _ ht hu' hp hdvd hm hz =>
      obtain ⟨rfl, rfl⟩ := (hunique _ _).1 ht
      rw [hu, Option.some.injEq] at hu'
      subst hu'
      exact ⟨hp, hdvd, hm, hz⟩
  · rintro ⟨hp, hdvd, hm, hz⟩
    exact .unbounded rfl ((hunique p b).2 ⟨rfl, rfl⟩) hu hp hdvd hm hz

theorem typeTakes_some {t : FieldType Nat} {w : Nat} (hw : s.widthOf t = some w) :
    s.TypeTakes t a m z ↔ w ≤ a ∧ z = w := by
  unfold TypeTakes
  rw [hw, takes_some]

theorem elementTakes_some {b : BaseType Nat} {u : Nat} (hu : s.baseWidth b = some u) :
    s.TypeTakes ⟨b, .single⟩ a m z ↔ u ≤ a ∧ z = u := typeTakes_some (t := ⟨b, .single⟩) hu

theorem fieldsTake_nil : s.FieldsTake [] a m z ↔ z = 0 := by
  unfold FieldsTake
  rw [extent_nil, takes_some]
  omega

theorem fieldsTake_cons {f : Field} {fs : List Field} {w : Nat} (hw : s.widthOf f.type = some w) :
    s.FieldsTake (f :: fs) a m z ↔ w ≤ a ∧ ∃ z', z = w + z' ∧ s.FieldsTake fs (a - w) m z' := by
  unfold FieldsTake
  rw [extent_cons_of_some hw]
  cases hl : s.extent fs with
  | some l =>
    simp only [Option.map_some, takes_some]
    constructor
    · rintro ⟨ha, hz⟩; exact ⟨by omega, l, hz, by omega, rfl⟩
    · rintro ⟨hw, z', hz, hl, rfl⟩; exact ⟨by omega, hz⟩
  | none =>
    obtain ⟨g, fs, rfl⟩ := List.exists_cons_of_ne_nil (l := fs) (by rintro rfl; cases hl)
    rw [Option.map_none]
    constructor
    · intro h
      cases h with
      | bounded h => cases h
      | @unbounded _ u b _ ht hb hp hu hm hz =>
        obtain ⟨p, rfl, ht'⟩ := (tailIn_cons hw).1 ht
        rw [Nat.sub_add_eq] at hu hm
        exact ⟨by omega, a - w, by omega, .unbounded rfl ht' hb (by omega) hu hm rfl⟩
    · rintro ⟨ha, z', rfl, h⟩
      cases h with
      | bounded h => cases h
      | @unbounded p u b _ ht hb hp hu hm hz =>
        rw [← Nat.sub_add_eq] at hu hm
        exact .unbounded rfl ((tailIn_cons hw).2 ⟨p, rfl, ht⟩) hb (by omega) hu hm (by omega)

theorem fieldsTake_singleton {f : Field} (hw : s.widthOf f.type = none) :
    s.FieldsTake [f] a m z ↔ s.TypeTakes f.type a m z := by
  have hext : s.extent [f] = none := by
    unfold extent
    rw [List.mapM_cons, hw]
    rfl
  have htail : s.TailIn [f] = s.Tail f.type := funext fun p => funext fun b => propext tailIn_singleton
  unfold FieldsTake TypeTakes
  rw [hext, hw, htail]

/-- Only the last of the fields may be unbounded. -/
theorem fieldsTake_cons_iff {f : Field} {fs : List Field} (h : (s.widthOf f.type).isSome ∨ fs = []) :
    s.FieldsTake (f :: fs) a m z ↔
      ∃ w z', s.TypeTakes f.type a m w ∧ z = w + z' ∧ s.FieldsTake fs (a - w) m z' := by
  cases hw : s.widthOf f.type with
  | some w =>
    rw [fieldsTake_cons hw]
    simp only [typeTakes_some hw]
    constructor
    · rintro ⟨ha, z', hz, h⟩; exact ⟨w, z', ⟨ha, rfl⟩, hz, h⟩
    · rintro ⟨_, z', ⟨ha, rfl⟩, hz, h⟩; exact ⟨ha, z', hz, h⟩
  | none =>
    obtain rfl : fs = [] := by
      rcases h with h | h
      · rw [hw] at h; cases h
      · exact h
    rw [fieldsTake_singleton hw]
    simp only [fieldsTake_nil]
    constructor
    · intro h; exact ⟨z, 0, h, rfl, rfl⟩
    · rintro ⟨w, _, h, rfl, rfl⟩; exact h

/-- The room that fields take is that of the first and that of the others, if each has found its own. -/
theorem fieldsTake_split {f : Field} {fs : List Field} {w z' k l : Nat} (h : (s.widthOf f.type).isSome ∨ fs = [])
    (hf : s.TypeTakes f.type a k w) (hfs : s.FieldsTake fs (a - w) l z') :
    s.FieldsTake (f :: fs) a m (w + z') ↔ s.TypeTakes f.type a m w ∧ s.FieldsTake fs (a - w) m z' := by
  rw [fieldsTake_cons_iff h]
  constructor
  · rintro ⟨w₁, z₁, hf₁, he, hfs₁⟩
    have hw : w₁ = w := by
      rcases h with h | rfl
      · obtain ⟨u, hu⟩ := Option.isSome_iff_exists.1 h
        rw [((typeTakes_some hu).1 hf).2, ((typeTakes_some hu).1 hf₁).2]
      · rw [fieldsTake_nil] at hfs hfs₁
        omega
    subst hw
    obtain rfl : z' = z₁ := by omega
    exact ⟨hf₁, hfs₁⟩
  · rintro ⟨hf₁, hfs₁⟩
    exact ⟨w, z', hf₁, rfl, hfs₁⟩

/-- Fields that find room one by one find it together. -/
theorem exists_fieldsTake {f : Field} {fs : List Field} {w z' : Nat} (h : (s.widthOf f.type).isSome ∨ fs = [])
    (hf : ∃ k, s.TypeTakes f.type a k w) (hfs : ∃ l, s.FieldsTake fs (a - w) l z') :
    ∃ m, s.FieldsTake (f :: fs) a m (w + z') := by
  obtain ⟨k, hf⟩ := hf
  obtain ⟨l, hfs⟩ := hfs
  rcases h with h | rfl
  · obtain ⟨u, hu⟩ := Option.isSome_iff_exists.1 h
    exact ⟨l, (fieldsTake_split (.inl h) hf hfs).2
      ⟨(typeTakes_some hu).2 ((typeTakes_some hu).1 hf), hfs⟩⟩
  · exact ⟨k, (fieldsTake_split (.inr rfl) hf hfs).2 ⟨hf, fieldsTake_nil.2 (fieldsTake_nil.1 hfs)⟩⟩

theorem fits_cons {f : Field} {fs : List Field} {total : Option Nat}
    (h : Fits s.baseWidth ((f :: fs).map (·.type)) total) : ElementFits s.baseWidth f.type ∧
      ((s.widthOf f.type).isSome ∨ fs = []) ∧ ∃ total', Fits s.baseWidth (fs.map (·.type)) total' := by
  rw [List.map_cons] at h
  generalize hts : fs.map (·.type) = ts at h
  cases h with
  | cons he hw h => exact ⟨he, .inl (Option.isSome_iff_exists.2 ⟨_, hw⟩), _, h⟩
  | last he => exact ⟨he, .inr (List.map_eq_nil_iff.1 hts), _, .nil⟩

/-- The width of a struct is what its fields take together. -/
theorem WellFormed.width_eq (h : s.WellFormed) (i : Nat) : (s.struct i).width = s.extent (s.struct i).fields := by
  rw [(h.fits i).total_eq, List.mapM_map]
  rfl

theorem WellFormed.typeTakes_struct (h : s.WellFormed) (i : Nat) :
    s.TypeTakes ⟨.struct i, .single⟩ a m z ↔ s.FieldsTake (s.struct i).fields a m z := by
  have htail : s.Tail ⟨.struct i, .single⟩ = s.TailIn (s.struct i).fields :=
    funext fun p => funext fun b => propext tail_struct_iff
  have hwidth : s.widthOf ⟨.struct i, .single⟩ = s.extent (s.struct i).fields := h.width_eq i
  unfold FieldsTake TypeTakes
  rw [htail, hwidth]

/-- Fields that fit have a width, but for the last. -/
theorem exists_extent {f : Field} : ∀ {before : List Field} {total : Option Nat},
    Fits s.baseWidth ((before ++ [f]).map (·.type)) total → ∃ w, s.extent before = some w
  | [], _, _ => ⟨0, extent_nil⟩
  | g :: before, _, h => by
    rw [List.cons_append, List.map_cons] at h
    generalize hts : (before ++ [f]).map (·.type) = ts at h
    cases h with
    | cons _ hw h =>
      rw [← hts] at h
      obtain ⟨w, he⟩ := exists_extent h
      exact ⟨_, extent_cons.2 ⟨_, w, hw, he, rfl⟩⟩
    | last => simp at hts

/-- Every unbounded struct ends in an infinite array of elements with a width. -/
theorem WellFormed.exists_tail (h : s.WellFormed) (i : Nat) : (s.struct i).width = none →
    ∃ p b u, s.Tail ⟨.struct i, .single⟩ p b ∧ s.baseWidth b = some u ∧ 0 < u := by
  refine h.induction (P := fun i => (s.struct i).width = none →
    ∃ p b u, s.Tail ⟨.struct i, .single⟩ p b ∧ s.baseWidth b = some u ∧ 0 < u) (fun i ih hnone => ?_) i
  obtain ⟨t, hlast, hw⟩ := ((h.fits i).total_eq_none_iff).1 hnone
  rw [List.getLast?_map] at hlast
  obtain ⟨f, hf, rfl⟩ := Option.map_eq_some_iff.1 hlast
  obtain ⟨before, hfs⟩ := List.getLast?_eq_some_iff.1 hf
  have hmem : f ∈ (s.struct i).fields := by rw [hfs]; simp
  obtain ⟨w, hext⟩ := exists_extent (hfs ▸ h.fits i)
  have htail : ∃ p b u, s.Tail f.type p b ∧ s.baseWidth b = some u ∧ 0 < u := by
    obtain ⟨name, ⟨b, a⟩, position⟩ := f
    cases a with
    | single =>
      cases b with
      | primitive p => cases hw
      | struct j => exact ih _ hmem j rfl hw
    | times k =>
      obtain ⟨u, hu, -⟩ := h.elementFits hmem (by simp)
      change s.baseWidth b = some u at hu
      simp only [FieldType.width, Arity.width, hu, Option.map_some] at hw
      cases hw
    | toEnd =>
      obtain ⟨u, hu, hpos⟩ := h.elementFits hmem (by simp)
      exact ⟨0, b, u, .array b, hu, hpos⟩
  obtain ⟨p, b, u, ht, hu, hpos⟩ := htail
  exact ⟨w + p, b, u, .struct hfs hext ht, hu, hpos⟩

end Schema

end BinRecord
