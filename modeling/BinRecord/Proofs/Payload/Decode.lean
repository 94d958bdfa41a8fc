/-
Decoding agrees with the layout: a payload decodes exactly when its type finds room in it and its texts
are valid, and every part of the value is that of the bytes at the offset of its path.

Every reader here is described by one statement about the region it reads in (`Reads`): where it stops
and what its value says if it succeeds, and that it succeeds where its type finds room. Structs are read
after the structs they refer to, so the statement is proved along the references of the table.
-/
import BinRecord.Proofs.Payload.Layout

namespace BinRecord

/-! ## Regions -/

/-- The cursor `q` bytes into a region that starts at `start`. -/
def Cursor.within (bs : Bytes) (start q : Nat) : Cursor := ⟨bs.drop q, start + q, bs.length - q⟩

variable {bs : Bytes} {start q : Nat} {path : Path} {c : Cursor}

theorem Cursor.left_within (hq : q ≤ bs.length) : (within bs start q).left = (bs.length - q : Nat) := by
  show (bs.length : Int) - q = _
  omega

theorem Cursor.toNat_left_within : (within bs start q).left.toNat = bs.length - q := by
  show ((bs.length : Int) - q).toNat = _
  omega

theorem Cursor.skip_within (n : Nat) : (within bs start q).skip n = within bs start (q + n) := by
  simp only [skip, within, List.drop_drop, Int.toNat_natCast, Cursor.mk.injEq, true_and]
  omega

theorem Cursor.take_eq_ok {n : Nat} {r : Bytes × Cursor} : (within bs start q).take path n = .ok r ↔
    q + n ≤ bs.length ∧ r = ((bs.drop q).take n, within bs start (q + n)) := by
  unfold take
  have hleft : (within bs start q).left = bs.length - q := rfl
  rw [skip_within, hleft]
  constructor
  · intro h
    split at h
    · cases h
    · cases h
      exact ⟨by omega, rfl⟩
  · rintro ⟨hn, rfl⟩
    rw [if_neg (by omega)]
    rfl

theorem Cursor.take_eq_error {n : Nat} {e : DecodeFailure} (hq : q ≤ bs.length) :
    (within bs start q).take path n = .error e ↔
      bs.length - q < n ∧ e = .error ⟨.tooShort path n (bs.length - q : Nat), start + q⟩ := by
  simp only [take, left_within hq, Nat.cast_lt]
  constructor
  · intro h
    split at h
    · cases h
      exact ⟨‹_›, rfl⟩
    · cases h
  · rintro ⟨hlt, rfl⟩
    rw [if_pos hlt]
    rfl

/-- A primitive stands for the next bytes, as many as it is wide. -/
theorem Primitive.read_eq_ok [Codecs] {p : Primitive} {v : Value} :
    p.read path (.within bs start q) = .ok (v, c) ↔ q + p.width ≤ bs.length ∧
      p.value? ((bs.drop q).take p.width) = some v ∧ c = .within bs start (q + p.width) := by
  unfold read
  constructor
  · intro h
    obtain ⟨⟨xs, after⟩, ht, h₁⟩ := except_bind_eq_ok.1 h
    obtain ⟨hn, ht⟩ := Cursor.take_eq_ok.1 ht
    cases ht
    refine ⟨hn, ?_⟩
    cases p with
    | text w e =>
      simp only at h₁
      split at h₁
      · rename_i cs hcs
        cases h₁
        exact ⟨by simp [value?, hcs, Except.toOption], rfl⟩
      · cases h₁
    | _ => cases h₁; exact ⟨rfl, rfl⟩
  · rintro ⟨hn, hv, rfl⟩
    refine except_bind_eq_ok.2 ⟨_, Cursor.take_eq_ok.2 ⟨hn, rfl⟩, ?_⟩
    cases p with
    | text w e =>
      simp only [value?, Option.map_eq_some_iff, except_toOption_eq_some] at hv
      obtain ⟨cs, hcs, rfl⟩ := hv
      simp only [hcs]
    | _ => cases hv; rfl

/-! ## Where a payload ends -/

namespace Schema

/-- Where a payload ends: after its size, or at the end of the data. -/
def payloadEnd (data : Bytes) (offset : Nat) : Option Int → Int
  | none => data.length
  | some size => offset + size

theorem length_region {data : Bytes} {offset stop : Nat} (hlen : stop ≤ data.length) :
    ((data.drop offset).take (stop - offset)).length = stop - offset := by
  rw [List.length_take, List.length_drop]
  omega

/-- An error that leaves decoding is one that reading came to. -/
theorem eq_of_ofRead {beyond : Bool} {f : DecodeFailure} {e : DecodeError}
    (h : PayloadError.ofRead beyond f = .error (.decode e)) : f = .error e := by
  cases f with
  | escaped x => cases h
  | error e' =>
    rw [PayloadError.ofRead, DecodeError.failure] at h
    split_ifs at h
    · cases h
      rfl
    · cases h

variable {s : Schema}

/-! ## Types without parts and padding -/

theorem leads_primitive {m : Nat} {p : Primitive} {steps : List PathStep} {o : Nat} {t : FieldType Nat}
    (h : s.Leads m ⟨.primitive p, .single⟩ steps o t) : steps = [] ∧ o = 0 ∧ t = ⟨.primitive p, .single⟩ := by
  cases h with
  | here => exact ⟨rfl, rfl, rfl⟩
  | item hk => cases hk

theorem typeTakes_toEnd {b : BaseType Nat} {u a m z : Nat} (hu : s.baseWidth b = some u) :
    s.TypeTakes ⟨b, .toEnd⟩ a m z ↔ u ∣ a ∧ m = a / u ∧ z = a := by
  have htail : ∀ p' b', s.Tail ⟨b, .toEnd⟩ p' b' ↔ p' = 0 ∧ b' = b := by
    intro p' b'
    constructor
    · rintro ⟨⟩
      exact ⟨rfl, rfl⟩
    · rintro ⟨rfl, rfl⟩
      exact .array b'
  have h : s.TypeTakes ⟨b, .toEnd⟩ a m z ↔ 0 ≤ a ∧ u ∣ a - 0 ∧ m = (a - 0) / u ∧ z = a := takes_none htail hu
  simpa using h

theorem isPadding_iff {b : BaseType Nat} : b.isPadding = true ↔ ∃ w, b = .primitive (.padding w) := by
  constructor
  · intro h
    rcases b with p | j
    · cases p with
      | padding w => exact ⟨w, rfl⟩
      | _ => cases h
    · cases h
  · rintro ⟨w, rfl⟩
    rfl

theorem isPadding_of_leads {m : Nat} {t t' : FieldType Nat} {steps : List PathStep} {o : Nat}
    (h : s.Leads m t steps o t') (ht : t.base.isPadding = true) : t'.base.isPadding = true := by
  cases h with
  | here => exact ht
  | field => cases ht
  | @item b _ _ _ _ _ _ _ _ _ _ h =>
    cases b with
    | primitive p =>
      obtain ⟨-, -, rfl⟩ := leads_primitive h
      exact ht
    | struct j => cases ht

/-- Padding is passed wherever it finds room. -/
theorem skipPadding_eq_ok {w : Width} {a : Arity} {path : Path} {q : Nat} {c : Cursor} (hq : q ≤ bs.length) :
    skipPadding w.1 path a (.within bs start q) = .ok c ↔
      ∃ z, c = .within bs start (q + z) ∧ ∃ m, s.TypeTakes ⟨.primitive (.padding w), a⟩ (bs.length - q) m z := by
  -- so many bytes are passed at once
  have htake : ∀ n, s.widthOf ⟨.primitive (.padding w), a⟩ = some n →
      (((Cursor.within bs start q).take path n >>= fun r => .ok r.2) = .ok c ↔
        ∃ z, c = .within bs start (q + z) ∧
          ∃ m, s.TypeTakes ⟨.primitive (.padding w), a⟩ (bs.length - q) m z) := fun n hn => by
    simp only [except_bind_eq_ok, Cursor.take_eq_ok, typeTakes_some hn]
    constructor
    · rintro ⟨r, ⟨hle, rfl⟩, h⟩
      cases h
      exact ⟨n, rfl, 0, by omega, rfl⟩
    · rintro ⟨z, rfl, _, hle, rfl⟩
      exact ⟨_, ⟨by omega, rfl⟩, rfl⟩
  cases a with
  | single => exact htake w.1 rfl
  | times k => exact htake (w.1 * k) rfl
  | toEnd =>
    have hleft : (Cursor.within bs start q).left = ((bs.length - q : Nat) : Int) := by
      show (bs.length : Int) - q = _
      omega
    have htakes : ∀ {m z}, s.TypeTakes ⟨.primitive (.padding w), .toEnd⟩ (bs.length - q) m z ↔ _ :=
      typeTakes_toEnd rfl
    simp only [skipPadding, hleft, Cursor.skip_within, htakes, Primitive.width]
    constructor
    · intro h
      split at h
      · cases h
      · rename_i hmod
        cases h
        exact ⟨_, rfl, _, Nat.dvd_of_mod_eq_zero (by omega), rfl, rfl⟩
    · rintro ⟨z, rfl, m, hdvd, -, rfl⟩
      rw [if_neg]
      have := Nat.mod_eq_zero_of_dvd hdvd
      omega

theorem WellFormed.paddingUnit?_eq {b : BaseType Nat} (hs : s.WellFormed) :
    (s.baseShape b).paddingUnit? = if b.isPadding then s.baseWidth b else none := by
  cases b with
  | primitive p => cases p <;> rfl
  | struct j =>
    show (s.shapeAt j).paddingUnit? = none
    rw [hs.shapeAt_eq]
    rfl

theorem WellFormed.width_baseShape {b : BaseType Nat} (hs : s.WellFormed) : (s.baseShape b).width = s.baseWidth b := by
  cases b with
  | primitive p => rfl
  | struct j =>
    show (s.shapeAt j).width = _
    rw [hs.shapeAt_eq]
    rfl

section Readers

variable [Codecs] (s : Schema) (bs : Bytes) (start : Nat)

/-- A reader reads values of a type: if it succeeds, it stops after the room that the type takes, with a
value that says what the bytes do; and it succeeds if there is room and all texts are valid. -/
structure Reads (reader : Path → Cursor → Except DecodeFailure (Value × Cursor)) (t : FieldType Nat) : Prop where
  sound : ∀ path q v c, q ≤ bs.length → reader path (.within bs start q) = .ok (v, c) →
    ∃ z, c = .within bs start (q + z) ∧ (∃ m, s.TypeTakes t (bs.length - q) m z) ∧
      ∀ m, s.TypeTakes t (bs.length - q) m z → s.Faithful m bs q t v
  complete : ∀ path q m z, q ≤ bs.length → s.TypeTakes t (bs.length - q) m z → s.TextsValid m bs q t →
    ∃ v, reader path (.within bs start q) = .ok (v, .within bs start (q + z))

variable {s bs start}

/-- The texts of a value that is read are valid. -/
theorem Faithful.textsValid {m q : Nat} {t : FieldType Nat} {v : Value} (h : s.Faithful m bs q t v) :
    s.TextsValid m bs q t := by
  intro steps o w e hl
  obtain ⟨v', -, hm⟩ := h steps o _ hl rfl
  cases hm with
  | array hk => cases hk
  | primitive _ hv =>
    simp only [Primitive.value?, Option.map_eq_some_iff, except_toOption_eq_some] at hv
    obtain ⟨cs, hcs, -⟩ := hv
    exact ⟨cs, hcs⟩

/-! ## Primitives -/

theorem reads_primitive (p : Primitive) : s.Reads bs start p.read ⟨.primitive p, .single⟩ where
  sound path q v c hq h := by
    obtain ⟨hn, hv, rfl⟩ := Primitive.read_eq_ok.1 h
    refine ⟨p.width, rfl, ⟨0, (typeTakes_some rfl).2 ⟨by omega, rfl⟩⟩, fun m _ steps o t' hl _ => ?_⟩
    obtain ⟨rfl, rfl, rfl⟩ := leads_primitive hl
    exact ⟨v, rfl, .primitive hn hv⟩
  complete path q m z hq hz ht := by
    obtain ⟨hn, rfl⟩ := (typeTakes_some rfl).1 hz
    have hvalue : ∃ v, p.value? ((bs.drop q).take p.width) = some v := by
      cases p with
      | text w e =>
        obtain ⟨cs, hcs⟩ := ht [] 0 w e (.here _)
        exact ⟨.text (String.ofList cs), by
          simp only [Primitive.value?, Option.map_eq_some_iff, except_toOption_eq_some]
          exact ⟨cs, hcs, rfl⟩⟩
      | _ => exact ⟨_, rfl⟩
    obtain ⟨v, hv⟩ := hvalue
    exact ⟨v, Primitive.read_eq_ok.2 ⟨by omega, hv, rfl⟩⟩

/-! ## Arrays -/

section Items

variable {b : BaseType Nat} {u : Nat} {element : Path → Cursor → Except DecodeFailure (Value × Cursor)}

/-- Items that are read stand one after the other, each as wide as an element. -/
theorem readItems_sound (he : s.Reads bs start element ⟨b, .single⟩) (hu : s.baseWidth b = some u) {path : Path} :
    ∀ {count i q : Nat} {done vs : List Value} {c : Cursor}, q ≤ bs.length →
      readItems element path i done count (.within bs start q) = .ok (vs, c) →
      c = .within bs start (q + count * u) ∧ q + count * u ≤ bs.length ∧
        ∃ items, vs = done.reverse ++ items ∧ items.length = count ∧ ∀ (j : Nat) v, items[j]? = some v →
          ∀ m, s.Faithful m bs (q + j * u) ⟨b, .single⟩ v
  | 0, i, q, done, vs, c, hq, h => by
    cases h
    exact ⟨by simp, by simpa using hq, [], by simp, rfl, by simp⟩
  | count + 1, i, q, done, vs, c, hq, h => by
    obtain ⟨⟨v, c'⟩, hv, h₁⟩ := except_bind_eq_ok.1 h
    obtain ⟨z, rfl, ⟨m, hz⟩, hfaith⟩ := he.sound _ q v c' hq hv
    obtain ⟨hle, hzu⟩ := (elementTakes_some hu).1 hz
    rw [hzu] at h₁ hfaith
    obtain ⟨rfl, hn, items, rfl, hlen, hitems⟩ := readItems_sound he hu (by omega) h₁
    have hq' : q + (count + 1) * u = q + u + count * u := by rw [Nat.succ_mul]; omega
    refine ⟨by rw [hq'], by rw [hq']; exact hn, v :: items, by simp, by simp [hlen], fun j x hx m => ?_⟩
    rcases j with _ | j
    · cases hx
      rw [Nat.zero_mul]
      exact hfaith m ((elementTakes_some hu).2 ⟨hle, rfl⟩)
    · have := hitems j x hx m
      rwa [Nat.succ_mul, Nat.add_comm (j * u), ← Nat.add_assoc]

/-- Items are read if there is room for them and their texts are valid. -/
theorem readItems_complete (he : s.Reads bs start element ⟨b, .single⟩) (hu : s.baseWidth b = some u) (path : Path)
    {m : Nat} : ∀ {count q : Nat} (i : Nat) (done : List Value), q + count * u ≤ bs.length →
      (∀ j < count, s.TextsValid m bs (q + j * u) ⟨b, .single⟩) →
      ∃ vs, readItems element path i done count (.within bs start q) = .ok (vs, .within bs start (q + count * u))
  | 0, q, i, done, _, _ => ⟨done.reverse, by simp [readItems]⟩
  | count + 1, q, i, done, hn, ht => by
    have hq' : q + (count + 1) * u = q + u + count * u := by rw [Nat.succ_mul]; omega
    rw [hq'] at hn
    have hzero := ht 0 (Nat.succ_pos count)
    rw [Nat.zero_mul] at hzero
    obtain ⟨v, hv⟩ := he.complete (path.item i) q m u (by omega)
      ((elementTakes_some hu).2 ⟨by omega, rfl⟩) hzero
    obtain ⟨vs, hvs⟩ := readItems_complete he hu path (i + 1) (v :: done) hn fun j hj => by
      have := ht (j + 1) (by omega)
      rwa [Nat.succ_mul, Nat.add_comm (j * u), ← Nat.add_assoc] at this
    exact ⟨vs, except_bind_eq_ok.2 ⟨_, hv, by rw [hq']; exact hvs⟩⟩

end Items

theorem faithful_array {b : BaseType Nat} {a : Arity} {m k u q : Nat} {items : List Value}
    (hk : a.items? m = some k) (hu : s.baseWidth b = some u) (hlen : items.length = k)
    (hitems : ∀ (j : Nat) v, items[j]? = some v → s.Faithful m bs (q + j * u) ⟨b, .single⟩ v) :
    s.Faithful m bs q ⟨b, a⟩ (.array items) := by
  intro steps o t' hl ht'
  rcases (leads_array_iff hk hu).1 hl with ⟨rfl, rfl, rfl⟩ | ⟨j, steps', o', hj, rfl, rfl, hl'⟩
  · exact ⟨_, rfl, .array hk hlen⟩
  · have hget := List.getElem?_eq_getElem (hlen ▸ hj)
    obtain ⟨v', hv', hm⟩ := hitems j _ hget steps' o' t' hl' ht'
    refine ⟨v', ?_, by rwa [← Nat.add_assoc]⟩
    rw [Value.at?, hget]
    exact hv'

theorem textsValid_item {b : BaseType Nat} {a : Arity} {m k u q : Nat} (hk : a.items? m = some k)
    (hu : s.baseWidth b = some u) (h : s.TextsValid m bs q ⟨b, a⟩) {j : Nat} (hj : j < k) :
    s.TextsValid m bs (q + j * u) ⟨b, .single⟩ := by
  intro steps o w e hl
  have := h _ _ w e (.item hk hj hu hl)
  rwa [← Nat.add_assoc] at this

section Arrays

variable {b : BaseType Nat} {reader : Path → Cursor → Except DecodeFailure (Value × Cursor)} {width : Nat}

theorem reads_times (hr : s.Reads bs start reader ⟨b, .single⟩) (hu : s.baseWidth b = some width) (k : Nat) :
    s.Reads bs start (fun path => readArity reader width path (.times k)) ⟨b, .times k⟩ := by
  have hwidth : s.widthOf ⟨b, .times k⟩ = some (k * width) := by
    simp only [widthOf, Arity.width, hu, Option.map_some, Nat.mul_comm]
  constructor
  · intro path q v c hq h
    obtain ⟨⟨vs, c'⟩, hvs, h₁⟩ := except_bind_eq_ok.1 h
    obtain ⟨rfl, hn, items, rfl, hlen, hitems⟩ := readItems_sound hr hu hq hvs
    cases h₁
    refine ⟨k * width, rfl, ⟨0, (typeTakes_some hwidth).2 ⟨by omega, rfl⟩⟩, fun m _ => ?_⟩
    exact faithful_array rfl hu hlen fun j v hv => hitems j v hv m
  · intro path q m z hq hz ht
    obtain ⟨hle, rfl⟩ := (typeTakes_some hwidth).1 hz
    obtain ⟨vs, hvs⟩ := readItems_complete hr hu path 0 [] (by omega)
      fun j hj => textsValid_item rfl hu ht hj
    exact ⟨.array vs, except_bind_eq_ok.2 ⟨_, hvs, rfl⟩⟩

theorem reads_toEnd (hr : s.Reads bs start reader ⟨b, .single⟩) (hu : s.baseWidth b = some width) :
    s.Reads bs start (fun path => readArity reader width path .toEnd) ⟨b, .toEnd⟩ := by
  have hleft : ∀ q, q ≤ bs.length → (Cursor.within bs start q).left.toNat = bs.length - q := fun q hq => by
    show ((bs.length : Int) - q).toNat = _
    omega
  constructor
  · intro path q v c hq h
    obtain ⟨⟨vs, c'⟩, hvs, h₁⟩ := except_bind_eq_ok.1 h
    rw [hleft q hq] at hvs
    obtain ⟨rfl, hn, items, rfl, hlen, hitems⟩ := readItems_sound hr hu hq hvs
    dsimp only at h₁
    -- what is left after the items is refused unless it is nothing
    split at h₁
    · cases h₁
    · rename_i hend
      cases h₁
      replace hend : ¬ (0 : Int) < (bs.length : Int) - (q + (bs.length - q) / width * width : Nat) := hend
      have hz : (bs.length - q) / width * width = bs.length - q := by omega
      have htakes : ∀ {m}, s.TypeTakes ⟨b, .toEnd⟩ (bs.length - q) m (bs.length - q) ↔
          m = (bs.length - q) / width := fun {m} => by
        rw [typeTakes_toEnd hu]
        exact ⟨fun h => h.2.1, fun h => ⟨⟨_, by rw [Nat.mul_comm]; exact hz.symm⟩, h, rfl⟩⟩
      refine ⟨bs.length - q, by rw [hz], ⟨_, htakes.2 rfl⟩, fun m hm => ?_⟩
      exact faithful_array (congrArg some (htakes.1 hm)) hu hlen fun j v hv => hitems j v hv m
  · intro path q m z hq hz ht
    obtain ⟨hdvd, rfl, rfl⟩ := (typeTakes_toEnd hu).1 hz
    have hall := Nat.div_mul_cancel hdvd
    obtain ⟨vs, hvs⟩ := readItems_complete hr hu path 0 [] (by omega)
      fun j hj => textsValid_item rfl hu ht hj
    refine ⟨.array vs, except_bind_eq_ok.2 ⟨_, by rw [hleft q hq]; exact hvs, ?_⟩⟩
    dsimp only
    rw [if_neg, hall]
    show ¬ (0 : Int) < (bs.length : Int) - (q + (bs.length - q) / width * width : Nat)
    omega

theorem reads_arity {a : Arity} (hr : s.Reads bs start reader ⟨b, .single⟩)
    (hw : a ≠ .single → s.baseWidth b = some width) :
    s.Reads bs start (fun path => readArity reader width path a) ⟨b, a⟩ := by
  cases a with
  | single => exact hr
  | times k => exact reads_times hr (hw (by simp)) k
  | toEnd => exact reads_toEnd hr (hw (by simp))

end Arrays

/-! ## Fields -/

/-- Reads the value of a field, or passes it if it is padding. -/
def readEntry (shape : Shape) (a : Arity) (path : Path) (c : Cursor) :
    Except DecodeFailure (Option Value × Cursor) :=
  match shape.paddingUnit? with
  | some unit => (skipPadding unit path a c).map fun c => (none, c)
  | none => (readArity shape.read (shape.width.getD 0) path a c).map fun r => (some r.1, r.2)

/-- Reading fields is reading the first of them, and then the others. -/
theorem readFields_cons {name : String} {a : Arity} {shape : Shape} {fs : List (String × Arity × Shape)} {path : Path}
    {c : Cursor} : Shape.readFields ((name, a, shape) :: fs) path c =
      readEntry shape a (path.field name) c >>= fun r =>
        Shape.readFields fs path r.2 >>= fun r' => .ok (r.1.toList.map (name, ·) ++ r'.1, r'.2) := by
  rw [Shape.readFields, readEntry]
  cases shape.paddingUnit? with
  | some unit =>
    dsimp only
    cases skipPadding unit (path.field name) a c with
    | error e => rfl
    | ok c₁ =>
      show Shape.readFields fs path c₁ = Shape.readFields fs path c₁ >>= _
      cases Shape.readFields fs path c₁ <;> rfl
  | none =>
    dsimp only
    cases readArity shape.read (shape.width.getD 0) (path.field name) a c <;> rfl

theorem readFields_cons_eq_ok {name : String} {a : Arity} {shape : Shape} {fs : List (String × Arity × Shape)}
    {path : Path} {c c' : Cursor} {es : List (String × Value)} :
    Shape.readFields ((name, a, shape) :: fs) path c = .ok (es, c') ↔
      ∃ v c₁ es₁, readEntry shape a (path.field name) c = .ok (v, c₁) ∧
        Shape.readFields fs path c₁ = .ok (es₁, c') ∧ es = v.toList.map (name, ·) ++ es₁ := by
  rw [readFields_cons]
  simp only [except_bind_eq_ok]
  constructor
  · rintro ⟨⟨v, c₁⟩, hv, ⟨es₁, c₂⟩, hes, h⟩
    cases h
    exact ⟨v, c₁, es₁, hv, hes, rfl⟩
  · rintro ⟨v, c₁, es₁, hv, hes, rfl⟩
    exact ⟨(v, c₁), hv, (es₁, c'), hes, rfl⟩

section Entry

variable {b : BaseType Nat} {a : Arity} {path : Path} {q : Nat}

theorem reads_of_not_isPadding (hs : s.WellFormed) (hb : s.Reads bs start (s.baseShape b).read ⟨b, .single⟩)
    (he : ElementFits s.baseWidth ⟨b, a⟩) :
    s.Reads bs start (fun path => readArity (s.baseShape b).read ((s.baseShape b).width.getD 0) path a) ⟨b, a⟩ := by
  refine reads_arity hb fun ha => ?_
  obtain ⟨u, hu, -⟩ := he ha
  change s.baseWidth b = some u at hu
  rw [hs.width_baseShape, hu, Option.getD_some]

/-- A field that is read stops after its room; it has a value unless it is padding. -/
theorem readEntry_sound (hs : s.WellFormed) (hb : s.Reads bs start (s.baseShape b).read ⟨b, .single⟩)
    (he : ElementFits s.baseWidth ⟨b, a⟩) (hq : q ≤ bs.length) {v : Option Value} {c : Cursor}
    (h : readEntry (s.baseShape b) a path (.within bs start q) = .ok (v, c)) :
    ∃ z, c = .within bs start (q + z) ∧ (∃ m, s.TypeTakes ⟨b, a⟩ (bs.length - q) m z) ∧
      (v = none ∧ b.isPadding = true ∨ ∃ x, v = some x ∧ b.isPadding = false ∧
        ∀ m, s.TypeTakes ⟨b, a⟩ (bs.length - q) m z → s.Faithful m bs q ⟨b, a⟩ x) := by
  rw [readEntry, hs.paddingUnit?_eq] at h
  cases hp : b.isPadding with
  | true =>
    obtain ⟨w, rfl⟩ := isPadding_iff.1 hp
    obtain ⟨c₁, hc, h⟩ := except_map_eq_ok.1 h
    cases h
    obtain ⟨z, rfl, hz⟩ := (skipPadding_eq_ok (s := s) hq).1 hc
    exact ⟨z, rfl, hz, .inl ⟨rfl, rfl⟩⟩
  | false =>
    rw [hp] at h
    obtain ⟨⟨x, c₁⟩, hx, h⟩ := except_map_eq_ok.1 h
    cases h
    obtain ⟨z, rfl, hz, hfaith⟩ := (reads_of_not_isPadding hs hb he).sound path q x c₁ hq hx
    exact ⟨z, rfl, hz, .inr ⟨x, rfl, rfl, hfaith⟩⟩

theorem readEntry_complete (path : Path) (hs : s.WellFormed) (hb : s.Reads bs start (s.baseShape b).read ⟨b, .single⟩)
    (he : ElementFits s.baseWidth ⟨b, a⟩) (hq : q ≤ bs.length) {m z : Nat}
    (hz : s.TypeTakes ⟨b, a⟩ (bs.length - q) m z) (ht : s.TextsValid m bs q ⟨b, a⟩) :
    ∃ v, readEntry (s.baseShape b) a path (.within bs start q) = .ok (v, .within bs start (q + z)) := by
  rw [readEntry, hs.paddingUnit?_eq]
  cases hp : b.isPadding with
  | true =>
    obtain ⟨w, rfl⟩ := isPadding_iff.1 hp
    exact ⟨none, except_map_eq_ok.2 ⟨_, (skipPadding_eq_ok (s := s) hq).2 ⟨z, rfl, m, hz⟩, rfl⟩⟩
  | false =>
    obtain ⟨x, hx⟩ := (reads_of_not_isPadding hs hb he).complete path q m z hq hz ht
    exact ⟨some x, except_map_eq_ok.2 ⟨_, hx, rfl⟩⟩

end Entry

variable (s bs) in
/-- Entries are those of fields that stand one after the other from `q` on. -/
def FieldsFaithful (m q : Nat) (fs : List Field) (es : List (String × Value)) : Prop :=
  es.map (·.1) = valueNames fs ∧ ∀ steps o t, s.LeadsIn m fs steps o t → t.base.isPadding = false →
    ∃ v, (Value.struct es).at? steps = some v ∧ s.Mirrors m bs (q + o) t v

theorem fieldsFaithful_nil {m q : Nat} : s.FieldsFaithful bs m q [] [] :=
  ⟨rfl, fun _ _ _ h => absurd h not_leadsIn_nil⟩

/-- A field whose name none of the others has goes before them. -/
theorem fieldsFaithful_cons {m q w : Nat} {f : Field} {fs : List Field} {v : Option Value}
    {es : List (String × Value)} (hn : f.name ∉ fs.map (·.name))
    (hw : ∀ k, s.widthOf f.type = some k → k = w)
    (hv : v = none ∧ f.type.base.isPadding = true ∨
      ∃ x, v = some x ∧ f.type.base.isPadding = false ∧ s.Faithful m bs q f.type x)
    (hfs : s.FieldsFaithful bs m (q + w) fs es) :
    s.FieldsFaithful bs m q (f :: fs) (v.toList.map (f.name, ·) ++ es) := by
  -- the entries of the other fields are found past that of `f`
  have hother : ∀ g ∈ fs, (v.toList.map (f.name, ·) ++ es).lookup g.name = es.lookup g.name := fun g hg => by
    have hne : g.name ≠ f.name := fun e => hn (e ▸ List.mem_map_of_mem (f := (·.name)) hg)
    cases v with
    | none => rfl
    | some x =>
      show ((f.name, x) :: es).lookup g.name = _
      rw [List.lookup_cons, beq_false_of_ne hne]
  refine ⟨?_, fun steps o t hl ht => ?_⟩
  · unfold valueNames
    rcases hv with ⟨rfl, hp⟩ | ⟨x, rfl, hp, -⟩
    · rw [List.filter_cons_of_neg (by simp [hp])]
      exact hfs.1
    · rw [List.filter_cons_of_pos (by simp [hp])]
      exact congrArg (f.name :: ·) hfs.1
  · rcases leadsIn_cons.1 hl with ⟨steps', rfl, hl'⟩ | ⟨k, o', hk, rfl, hl'⟩
    · rcases hv with ⟨-, hp⟩ | ⟨x, rfl, -, hfaith⟩
      · rw [isPadding_of_leads hl' hp] at ht
        cases ht
      · obtain ⟨v', hv', hm⟩ := hfaith steps' o t hl' ht
        refine ⟨v', ?_, hm⟩
        show ((((f.name, x) :: es).lookup f.name).bind (·.at? steps')) = _
        rw [List.lookup_cons, beq_self_eq_true]
        exact hv'
    · obtain rfl := hw k hk
      obtain ⟨v', hv', hm⟩ := hfs.2 steps o' t hl' ht
      obtain ⟨g, hg, steps', rfl⟩ := leadsIn_head hl'
      refine ⟨v', ?_, by rwa [← Nat.add_assoc]⟩
      rw [Value.at?, hother g hg]
      exact hv'

/-- The elements of the types of fields are read. -/
def BasesRead (s : Schema) (bs : Bytes) (start : Nat) (fs : List Field) : Prop :=
  ∀ f ∈ fs, s.Reads bs start (s.baseShape f.type.base).read ⟨f.type.base, .single⟩

theorem readFields_sound (hs : s.WellFormed) : ∀ {fs : List Field} {total : Option Nat} {path : Path} {q : Nat}
    {es : List (String × Value)} {c : Cursor}, s.BasesRead bs start fs →
    Fits s.baseWidth (fs.map (·.type)) total → (fs.map (·.name)).Nodup → q ≤ bs.length →
    Shape.readFields (fs.map s.fieldShape) path (.within bs start q) = .ok (es, c) →
    ∃ z, c = .within bs start (q + z) ∧ (∃ m, s.FieldsTake fs (bs.length - q) m z) ∧
      ∀ m, s.FieldsTake fs (bs.length - q) m z → s.FieldsFaithful bs m q fs es
  | [], _, path, q, es, c, _, _, _, _, h => by
    cases h
    exact ⟨0, rfl, ⟨0, fieldsTake_nil.2 rfl⟩, fun m _ => fieldsFaithful_nil⟩
  | f :: fs, _, path, q, es, c, hb, hf, hn, hq, h => by
    obtain ⟨he, hlast, _, hf'⟩ := fits_cons hf
    rw [List.map_cons, List.nodup_cons] at hn
    obtain ⟨v, c₁, es₁, hv, hes, rfl⟩ := readFields_cons_eq_ok.1 h
    obtain ⟨w, rfl, hw, hval⟩ := readEntry_sound hs (hb f (List.mem_cons_self ..)) he hq hv
    have hle : w ≤ bs.length - q := hw.elim fun _ hw => hw.le
    obtain ⟨z, rfl, hz, hfs⟩ := readFields_sound hs (fun g hg => hb g (List.mem_cons_of_mem _ hg)) hf' hn.2
      (by omega) hes
    rw [Nat.sub_add_eq] at hz hfs
    refine ⟨w + z, by rw [Nat.add_assoc], exists_fieldsTake hlast hw hz, fun m hm => ?_⟩
    obtain ⟨k, hk⟩ := hw
    obtain ⟨l, hl⟩ := hz
    obtain ⟨hmf, hmfs⟩ := (fieldsTake_split hlast hk hl).1 hm
    refine fieldsFaithful_cons hn.1 (fun k hk' => ((typeTakes_some hk').1 hmf).2.symm) ?_ (hfs m hmfs)
    rcases hval with hval | ⟨x, rfl, hp, hfaith⟩
    · exact .inl hval
    · exact .inr ⟨x, rfl, hp, hfaith m hmf⟩

theorem readFields_complete (path : Path) (hs : s.WellFormed) {m : Nat} : ∀ {fs : List Field} {total : Option Nat}
    {q z : Nat}, s.BasesRead bs start fs → Fits s.baseWidth (fs.map (·.type)) total → q ≤ bs.length →
    s.FieldsTake fs (bs.length - q) m z →
    (∀ steps o w e, s.LeadsIn m fs steps o ⟨.primitive (.text w e), .single⟩ →
      ∃ cs, e.decode ((bs.drop (q + o)).take w.1) = .ok cs) →
    ∃ es, Shape.readFields (fs.map s.fieldShape) path (.within bs start q) = .ok (es, .within bs start (q + z))
  | [], _, q, z, _, _, _, hz, _ => by
    obtain rfl := fieldsTake_nil.1 hz
    exact ⟨[], rfl⟩
  | f :: fs, _, q, z, hb, hf, hq, hz, ht => by
    obtain ⟨he, hlast, _, hf'⟩ := fits_cons hf
    obtain ⟨w, z', hw, rfl, hz'⟩ := (fieldsTake_cons_iff hlast).1 hz
    have hle := hw.le
    obtain ⟨v, hv⟩ := readEntry_complete (path.field f.name) hs (hb f (List.mem_cons_self ..)) he hq hw
      fun steps o k e hl => ht _ o k e (leadsIn_cons.2 (.inl ⟨steps, rfl, hl⟩))
    rw [← Nat.sub_add_eq] at hz'
    obtain ⟨es, hes⟩ := readFields_complete path hs (fun g hg => hb g (List.mem_cons_of_mem _ hg)) hf'
      (by omega) hz' fun steps o k e hl => by
        have hsome : s.widthOf f.type = some w := by
          rcases hlast with h | rfl
          · obtain ⟨u, hu⟩ := Option.isSome_iff_exists.1 h
            rw [hu, ((typeTakes_some hu).1 hw).2]
          · exact absurd hl not_leadsIn_nil
        have := ht steps (w + o) k e (leadsIn_cons.2 (.inr ⟨w, o, hsome, rfl, hl⟩))
        rwa [← Nat.add_assoc] at this
    rw [Nat.add_assoc] at hes
    exact ⟨_, readFields_cons_eq_ok.2 ⟨v, _, es, hv, hes, rfl⟩⟩

/-! ## Structs -/

theorem read_primitive (p : Primitive) : (Shape.primitive p).read = p.read := by
  funext path c
  rw [Shape.read]

/-- Every struct of a table is read. -/
theorem reads_struct (hs : s.WellFormed) (i : Nat) :
    s.Reads bs start (s.shapeAt i).read ⟨.struct i, .single⟩ := by
  refine hs.induction (P := fun i => s.Reads bs start (s.shapeAt i).read ⟨.struct i, .single⟩) (fun i ih => ?_) i
  have hb : s.BasesRead bs start (s.struct i).fields := fun f hf => by
    cases hfb : f.type.base with
    | primitive p =>
      show s.Reads bs start (Shape.primitive p).read _
      rw [read_primitive]
      exact reads_primitive p
    | struct j => exact ih f hf j hfb
  have hread : ∀ path c r, (s.shapeAt i).read path c = .ok r ↔
      ∃ es, Shape.readFields ((s.struct i).fields.map s.fieldShape) path c = .ok (es, r.2) ∧
        r.1 = .struct es := fun path c r => by
    rw [hs.shapeAt_eq, Shape.read, except_bind_eq_ok]
    constructor
    · rintro ⟨⟨es, c'⟩, hes, h⟩; cases h; exact ⟨es, hes, rfl⟩
    · rintro ⟨es, hes, h⟩; exact ⟨_, hes, congrArg (fun v => Except.ok (v, r.2)) h.symm⟩
  constructor
  · intro path q v c hq h
    obtain ⟨es, hes, rfl⟩ := (hread ..).1 h
    obtain ⟨z, rfl, hz, hfs⟩ := readFields_sound hs hb (hs.fits i) (hs.fieldNames i) hq hes
    simp only [hs.typeTakes_struct]
    refine ⟨z, rfl, hz, fun m hm steps o t hl ht => ?_⟩
    obtain ⟨hnames, hparts⟩ := hfs m hm
    rcases leads_struct_iff.1 hl with ⟨rfl, rfl, rfl⟩ | hl
    · exact ⟨_, rfl, .struct hnames⟩
    · exact hparts steps o t hl ht
  · intro path q m z hq hz ht
    obtain ⟨es, hes⟩ := readFields_complete path hs hb (hs.fits i) hq ((hs.typeTakes_struct i).1 hz)
      fun steps o w e hl => ht steps o w e (leads_struct_iff.2 (.inr hl))
    exact ⟨.struct es, (hread ..).2 ⟨es, hes, rfl⟩⟩

/-! ## Payloads -/

/-- Decoding a payload inside the data is reading its bytes. -/
theorem decode_eq_read {data : Bytes} {offset stop : Nat} {size : Option Int}
    (hstop : payloadEnd data offset size = stop) (hle : offset ≤ stop) (hlen : stop ≤ data.length) :
    s.decode data offset size = (((s.shapeAt s.root).read ⟨s.rootStruct.name, []⟩
      (.within ((data.drop offset).take (stop - offset)) offset 0)).map (·.1)).mapError
        (PayloadError.ofRead (data.length < offset)) := by
  have hregion : Cursor.ofRegion data offset stop = .within ((data.drop offset).take (stop - offset)) offset 0 := by
    have : ((stop : Int) - offset).toNat = stop - offset := by omega
    simp only [Cursor.ofRegion, Cursor.within, this, List.drop_zero, List.length_take, List.length_drop,
      Cursor.mk.injEq, true_and]
    omega
  rw [← hregion]
  show s.decode data offset size = ((s.readAt _).map _).mapError _
  unfold decode
  cases size with
  | none =>
    rw [← hstop]
    dsimp only [payloadEnd]
    cases s.readAt (.ofRegion data offset data.length) <;> rfl
  | some k =>
    simp only [payloadEnd] at hstop
    dsimp only
    rw [if_neg (by omega), hstop]
    cases s.readAt (.ofRegion data offset stop) <;> rfl

theorem decode_eq_ok {data : Bytes} {offset stop : Nat} {size : Option Int}
    (hstop : payloadEnd data offset size = stop) (hle : offset ≤ stop) (hlen : stop ≤ data.length) {v : Value} :
    s.decode data offset size = .ok v ↔ ∃ c, (s.shapeAt s.root).read ⟨s.rootStruct.name, []⟩
      (.within ((data.drop offset).take (stop - offset)) offset 0) = .ok (v, c) := by
  rw [decode_eq_read hstop hle hlen]
  cases (s.shapeAt s.root).read ⟨s.rootStruct.name, []⟩ _ with
  | error e => simp [Except.map, Except.mapError]
  | ok r =>
    obtain ⟨x, c⟩ := r
    simp [Except.map, Except.mapError]

/-- A payload decodes exactly when its type finds room in it and its texts are valid, and the value at
every path is that of the bytes where the layout places it. -/
theorem decode_by_layout {text : String} {root : Option String} (h : compile text root = .ok s) (data : Bytes)
    (offset stop : Nat) (size : Option Int) (hstop : payloadEnd data offset size = stop) (hle : offset ≤ stop)
    (hlen : stop ≤ data.length) :
    s.DecodesByLayout ((data.drop offset).take (stop - offset)) (s.decode data offset size) := by
  have hs := wellFormed_of_compile h
  generalize hbs : (data.drop offset).take (stop - offset) = payload
  have hreads : s.Reads payload offset (s.shapeAt s.root).read s.rootType := reads_struct hs s.root
  have hok : ∀ v, s.decode data offset size = .ok v ↔ ∃ c, (s.shapeAt s.root).read ⟨s.rootStruct.name, []⟩
      (.within payload offset 0) = .ok (v, c) := fun v => hbs ▸ decode_eq_ok hstop hle hlen
  have hsound : ∀ v, s.decode data offset size = .ok v → ∃ m z, s.TypeTakes s.rootType payload.length m z ∧
      ∀ m, s.TypeTakes s.rootType payload.length m z → s.Faithful m payload 0 s.rootType v := fun v hv => by
    obtain ⟨c, hc⟩ := (hok v).1 hv
    obtain ⟨z, -, ⟨m, hz⟩, hfaith⟩ := hreads.sound _ 0 v c (Nat.zero_le _) hc
    exact ⟨m, z, hz, hfaith⟩
  have hcomplete : ∀ m z, s.TypeTakes s.rootType payload.length m z → s.TextsValid m payload 0 s.rootType →
      ∃ v, s.decode data offset size = .ok v := fun m z hz ht => by
    obtain ⟨v, hv⟩ := hreads.complete ⟨s.rootStruct.name, []⟩ 0 m z (Nat.zero_le _) hz ht
    exact ⟨v, (hok v).2 ⟨_, hv⟩⟩
  have hstruct : s.widthOf s.rootType = s.rootStruct.width := rfl
  refine ⟨fun w hw => ?_, fun hw => ?_⟩
  · have htakes : ∀ {m z}, s.TypeTakes s.rootType payload.length m z ↔ w ≤ payload.length ∧ z = w :=
      typeTakes_some (hstruct.trans hw)
    refine ⟨⟨fun ⟨v, hv⟩ => ?_, fun ⟨hle, ht⟩ => hcomplete 0 w (htakes.2 ⟨hle, rfl⟩) ht⟩, fun v hv => ?_⟩
    · obtain ⟨m, z, hz, hfaith⟩ := hsound v hv
      exact ⟨(htakes.1 hz).1, (hfaith 0 (htakes.2 (htakes.1 hz))).textsValid⟩
    · obtain ⟨m, z, hz, hfaith⟩ := hsound v hv
      exact hfaith 0 (htakes.2 (htakes.1 hz))
  · obtain ⟨p, b, u, htail, hu, hpos⟩ := hs.exists_tail s.root hw
    have htakes : ∀ {m z}, s.TypeTakes s.rootType payload.length m z ↔
        p ≤ payload.length ∧ u ∣ payload.length - p ∧ m = (payload.length - p) / u ∧ z = payload.length := fun {m z} => by
      unfold TypeTakes
      rw [hstruct, hw]
      exact takes_none (fun p' b' => ⟨htail.unique, fun ⟨hp, hb⟩ => hp ▸ hb ▸ htail⟩) hu
    refine ⟨p, b, u, htail, hu, hpos, ⟨fun ⟨v, hv⟩ => ?_, fun ⟨hle, hdvd, ht⟩ => ?_⟩, fun v hv => ?_⟩
    · obtain ⟨m, z, hz, hfaith⟩ := hsound v hv
      obtain ⟨hle, hdvd, rfl, rfl⟩ := htakes.1 hz
      exact ⟨hle, hdvd, (hfaith _ hz).textsValid⟩
    · exact hcomplete _ _ (htakes.2 ⟨hle, hdvd, rfl, rfl⟩) ht
    · obtain ⟨m, z, hz, hfaith⟩ := hsound v hv
      obtain ⟨-, -, rfl, rfl⟩ := htakes.1 hz
      exact hfaith _ hz

end Readers

/-- A payload inside other bytes, with padding, an array of structs with texts, and an infinite one. -/
theorem decode_by_layout_points : ∃ s v,
    compile "struct P { x: U16LE, t: NSTR<1, ascii> } struct R { n: U8, gap: PAD<2>[2], ps: P[1], rest: P[+] }" none =
      .ok s ∧
    s.decode [0, 7, 9, 9, 9, 9, 1, 2, 65, 3, 4, 66, 5, 6, 67, 0] 1 (some 14) = .ok v ∧
    s.DecodesByLayout [7, 9, 9, 9, 9, 1, 2, 65, 3, 4, 66, 5, 6, 67]
      (s.decode [0, 7, 9, 9, 9, 9, 1, 2, 65, 3, 4, 66, 5, 6, 67, 0] 1 (some 14)) := by
  have hsome : ((compile "struct P { x: U16LE, t: NSTR<1, ascii> } struct R { n: U8, gap: PAD<2>[2], ps: P[1], rest: P[+] }"
      none).toOption.bind fun s =>
        (s.decode [0, 7, 9, 9, 9, 9, 1, 2, 65, 3, 4, 66, 5, 6, 67, 0] 1 (some 14)).toOption).isSome = true := by
    decide +kernel
  obtain ⟨v, hv⟩ := Option.isSome_iff_exists.1 hsome
  obtain ⟨s, hs, hv⟩ := Option.bind_eq_some_iff.1 hv
  rw [except_toOption_eq_some] at hs hv
  exact ⟨s, v, hs, hv, decode_by_layout hs [0, 7, 9, 9, 9, 9, 1, 2, 65, 3, 4, 66, 5, 6, 67, 0] 1 15 (some 14)
    rfl (by decide) (by decide)⟩

end Schema

end BinRecord
