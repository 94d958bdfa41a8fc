/-
What holds of the shapes of compiled schemas, said of shapes alone (`Fitting`): the fields of a struct stand
one after the other, of which only the last may be unbounded, and the elements of arrays have a width of at
least one byte. A value of a shape with a width is read from as many bytes, which must be left.
-/
import BinRecord.Proofs.Payload.Decode

namespace BinRecord

/-! ## Shapes that fit -/

mutual

/-- A shape fits together: a struct is as wide as its fields. All its primitives are of the kind `ok`. -/
inductive Shape.Fitting (ok : Primitive → Prop) : Shape → Prop
  | primitive {p : Primitive} : ok p → Fitting ok (.primitive p)
  | struct {width : Option Nat} {fields : List (String × Arity × Shape)} : FieldsFitting ok fields width →
      Fitting ok (.struct width fields)

/-- Fields fit one after the other and take `total` bytes together: only the last may be unbounded, and then
so is the total. -/
inductive Shape.FieldsFitting (ok : Primitive → Prop) : List (String × Arity × Shape) → Option Nat → Prop
  | nil : FieldsFitting ok [] (some 0)
  | cons {name : String} {a : Arity} {shape : Shape} {fields : List (String × Arity × Shape)} {w : Nat}
      {total : Option Nat} : shape.Fitting ok → (a ≠ .single → ∃ u, shape.width = some u ∧ 0 < u) →
      a.width shape.width = some w → FieldsFitting ok fields total →
      FieldsFitting ok ((name, a, shape) :: fields) (total.map (w + ·))
  | last {name : String} {a : Arity} {shape : Shape} : shape.Fitting ok →
      (a ≠ .single → ∃ u, shape.width = some u ∧ 0 < u) → a.width shape.width = none →
      FieldsFitting ok [(name, a, shape)] none

end

namespace Schema

variable {s : Schema} {ok : Primitive → Prop}

theorem fieldsFitting_of_fits (h : s.WellFormed) {fs : List Field} {total : Option Nat}
    (hbase : ∀ f ∈ fs, (s.baseShape f.type.base).Fitting ok) (hfits : Fits s.baseWidth (fs.map (·.type)) total) :
    Shape.FieldsFitting ok (fs.map s.fieldShape) total := by
  induction fs generalizing total with
  | nil =>
    cases hfits
    exact .nil
  | cons f fs ih =>
    obtain ⟨hf, hfs⟩ := List.forall_mem_cons.1 hbase
    rw [List.map_cons] at hfits
    generalize hts : fs.map (·.type) = ts at hfits
    cases hfits with
    | cons he hw hrest =>
      subst hts
      refine .cons hf ?_ ?_ (ih hfs hrest) <;> rw [h.width_baseShape]
      · exact he
      · exact hw
    | last he hw =>
      rw [List.map_eq_nil_iff.1 hts]
      refine .last hf ?_ ?_ <;> rw [h.width_baseShape]
      · exact he
      · exact hw

/-- The shapes of a well-formed schema fit together. -/
theorem WellFormed.fitting (h : s.WellFormed)
    (hok : ∀ i, ∀ f ∈ (s.struct i).fields, ∀ p, f.type.base = .primitive p → ok p) (i : Nat) :
    (s.shapeAt i).Fitting ok := by
  refine h.induction (P := fun i => (s.shapeAt i).Fitting ok) (fun i ih => ?_) i
  rw [h.shapeAt_eq]
  refine .struct (fieldsFitting_of_fits h (fun f hf => ?_) (h.fits i))
  cases hb : f.type.base with
  | primitive p => exact .primitive (hok i f hf p hb)
  | struct j => exact ih f hf j hb

theorem WellFormed.fitting_any (h : s.WellFormed) (i : Nat) : (s.shapeAt i).Fitting fun _ => True :=
  h.fitting (fun _ _ _ _ _ => trivial) i

end Schema

/-! ## Reading on -/

theorem Cursor.skip_skip (c : Cursor) (m n : Nat) : (c.skip m).skip n = c.skip (m + n : Nat) := by
  simp only [skip, List.drop_drop, Int.toNat_natCast, Cursor.mk.injEq, true_and]
  omega

theorem Cursor.skip_zero (c : Cursor) : c.skip 0 = c := by simp [skip]

theorem Cursor.eq_of_take {c : Cursor} {path : Path} {n : Nat} {r : Bytes × Cursor} (h : c.take path n = .ok r) :
    r = (c.rest.take n, c.skip n) ∧ (n : Int) ≤ c.left := by
  unfold take at h
  split at h
  · cases h
  · cases h
    exact ⟨rfl, by omega⟩

/-- A reader passes `width` bytes whenever it succeeds, and these were left. -/
def Advances {α : Type} (width : Nat) (reader : Path → Cursor → Except DecodeFailure (α × Cursor)) : Prop :=
  ∀ path c v c', reader path c = .ok (v, c') → c' = c.skip width ∧ (0 < width → (width : Int) ≤ c.left)

theorem Primitive.advances_read [Codecs] (p : Primitive) : Advances p.width p.read := by
  intro path c v c' h
  obtain ⟨⟨bs, after⟩, htake, h₁⟩ := except_bind_eq_ok.1 h
  obtain ⟨hr, hle⟩ := Cursor.eq_of_take htake
  cases hr
  cases p with
  | text w e =>
    simp only at h₁
    split at h₁
    · cases h₁
      exact ⟨rfl, fun _ => hle⟩
    · cases h₁
  | _ =>
    cases h₁
    exact ⟨rfl, fun _ => hle⟩

section Arrays

variable {element : Path → Cursor → Except DecodeFailure (Value × Cursor)} {u : Nat}

theorem readItems_advances (he : Advances u element) {path : Path} : ∀ {count i : Nat} {done vs : List Value}
    {c c' : Cursor}, readItems element path i done count c = .ok (vs, c') →
      c' = c.skip (u * count : Nat) ∧ (0 < u * count → ((u * count : Nat) : Int) ≤ c.left)
  | 0, _, _, _, c, c', h => by
    cases h
    rw [Nat.mul_zero]
    exact ⟨c.skip_zero.symm, fun h => absurd h (Nat.lt_irrefl 0)⟩
  | count + 1, i, done, vs, c, c', h => by
    obtain ⟨⟨v, c₁⟩, hv, h₁⟩ := except_bind_eq_ok.1 h
    obtain ⟨rfl, hle⟩ := he _ c v c₁ hv
    obtain ⟨rfl, hle'⟩ := readItems_advances he h₁
    have hsum : u * (count + 1) = u + u * count := by rw [Nat.mul_succ, Nat.add_comm]
    have hleft : (c.skip u).left = c.left - u := rfl
    rw [hleft] at hle'
    rw [hsum, Cursor.skip_skip]
    refine ⟨rfl, fun hpos => ?_⟩
    rcases Nat.eq_zero_or_pos (u * count) with hz | hz
    · have := hle (by omega)
      omega
    · have := hle' hz
      omega

theorem advances_arity (he : Advances u element) {a : Arity} {w : Nat} (hw : a.width (some u) = some w)
    (width : Nat) : Advances w fun path => readArity element width path a := by
  cases a with
  | single =>
    cases hw
    exact he
  | times count =>
    cases hw
    intro path c v c' h
    obtain ⟨⟨vs, c₁⟩, hvs, h₁⟩ := except_bind_eq_ok.1 h
    cases h₁
    exact readItems_advances he hvs
  | toEnd => cases hw

end Arrays

theorem skipPadding_advances {unit w : Nat} {a : Arity} (hw : a.width (some unit) = some w) {path : Path}
    {c c' : Cursor} (h : skipPadding unit path a c = .ok c') :
    c' = c.skip w ∧ (0 < w → (w : Int) ≤ c.left) := by
  cases a with
  | single =>
    cases hw
    obtain ⟨r, hr, h₁⟩ := except_bind_eq_ok.1 h
    obtain ⟨rfl, hle⟩ := Cursor.eq_of_take hr
    cases h₁
    exact ⟨rfl, fun _ => hle⟩
  | times count =>
    cases hw
    obtain ⟨r, hr, h₁⟩ := except_bind_eq_ok.1 h
    obtain ⟨rfl, hle⟩ := Cursor.eq_of_take hr
    cases h₁
    exact ⟨rfl, fun _ => hle⟩
  | toEnd => cases hw

theorem Shape.width_of_paddingUnit? {shape : Shape} {unit : Nat} (h : shape.paddingUnit? = some unit) :
    shape.width = some unit := by
  cases shape with
  | primitive p =>
    cases p with
    | padding w => exact h
    | _ => cases h
  | struct w fields => cases h

/-- Only types with elements of some width have a width. -/
theorem Arity.exists_of_width {element : Option Nat} {a : Arity} {w : Nat} (h : a.width element = some w) :
    ∃ u, element = some u := by
  cases element with
  | some u => exact ⟨u, rfl⟩
  | none => cases a <;> cases h

theorem Schema.readEntry_advances [Codecs] {shape : Shape} (hshape : ∀ u, shape.width = some u → Advances u shape.read)
    {a : Arity} {w : Nat} (hw : a.width shape.width = some w) : Advances w (Schema.readEntry shape a) := by
  obtain ⟨u, hu⟩ := Arity.exists_of_width hw
  rw [hu] at hw
  intro path c v c' h
  unfold readEntry at h
  split at h
  · rename_i unit hunit
    obtain ⟨c₁, hc, h₁⟩ := except_map_eq_ok.1 h
    cases h₁
    rw [Shape.width_of_paddingUnit? hunit, Option.some.injEq] at hu
    subst hu
    exact skipPadding_advances hw hc
  · obtain ⟨⟨x, c₁⟩, hc, h₁⟩ := except_map_eq_ok.1 h
    cases h₁
    exact advances_arity (hshape u hu) hw _ path c x c₁ hc

mutual

/-- A value of a shape that fits together takes the width of the shape. -/
theorem Shape.Fitting.advances [Codecs] {ok : Primitive → Prop} : ∀ {shape : Shape}, shape.Fitting ok →
    ∀ {w : Nat}, shape.width = some w → Advances w shape.read
  | .primitive p, _, w, hw => by
    cases hw
    rw [Schema.read_primitive]
    exact p.advances_read
  | .struct _ fields, .struct hfields, w, hw => by
    cases hw
    intro path c v c' h
    rw [read] at h
    obtain ⟨⟨es, c₁⟩, hes, h₁⟩ := except_bind_eq_ok.1 h
    cases h₁
    exact Shape.FieldsFitting.advances hfields rfl path c es _ hes

theorem Shape.FieldsFitting.advances [Codecs] {ok : Primitive → Prop} : ∀ {fields : List (String × Arity × Shape)}
    {total : Option Nat}, FieldsFitting ok fields total → ∀ {w : Nat}, total = some w →
      Advances w (Shape.readFields fields)
  | [], _, .nil, w, hw => by
    cases hw
    intro path c es c' h
    rw [readFields] at h
    cases h
    exact ⟨c.skip_zero.symm, fun h => absurd h (Nat.lt_irrefl 0)⟩
  | (name, a, shape) :: fields, _, .cons (w := w) hshape _ hw hfields, total, ht => by
    obtain ⟨l, rfl, rfl⟩ := Option.map_eq_some_iff.1 ht
    intro path c es c' h
    obtain ⟨v, c₁, es₁, hv, hes, -⟩ := Schema.readFields_cons_eq_ok.1 h
    obtain ⟨rfl, hle⟩ := Schema.readEntry_advances (fun u hu => Shape.Fitting.advances hshape hu) hw _ c v c₁ hv
    obtain ⟨rfl, hle'⟩ := Shape.FieldsFitting.advances hfields rfl path _ es₁ c' hes
    have hleft : (c.skip w).left = c.left - w := rfl
    rw [hleft] at hle'
    rw [Cursor.skip_skip]
    refine ⟨rfl, fun hpos => ?_⟩
    rcases Nat.eq_zero_or_pos l with hz | hz
    · have := hle (by omega)
      omega
    · have := hle' hz
      omega
  | _ :: _, _, .last .., _, hw => by cases hw

end

end BinRecord
