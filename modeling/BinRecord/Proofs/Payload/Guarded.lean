/-
A payload read along the table, with a guard at every place where that could go wrong: a struct that the table
does not have, an element without a width, a number without a format, structs nested deeper than the table is
long, an array with more elements than bytes, an element that does not take its width. For a well-formed schema
no guard fires, and what is read is what decoding reads.
-/
import BinRecord.Proofs.Payload.Shape

namespace BinRecord

/-- What a guard can find wrong. -/
inductive Breakdown where
  | missingStruct (place : Nat)
  | unboundedElement (element : BaseType Nat)
  | emptyElement (element : BaseType Nat)
  | missingFormat (width : Nat)
  | tooDeep (place : Nat)
  | tooManyItems (path : Path)
  | offWidth (path : Path)
  deriving DecidableEq, Repr

/-- A step of reading that may break down. -/
abbrev Guarded (α : Type) := ExceptT DecodeFailure (Except Breakdown) α

namespace Guarded

variable {α β : Type}

/-- A step that no guard stops. -/
def step (x : Except DecodeFailure α) : Guarded α := ExceptT.mk (.ok x)

/-- A guard stops here. -/
def breaks (b : Breakdown) : Guarded α := ExceptT.mk (.error b)

theorem step_ok (a : α) : step (.ok a) = pure a := rfl

theorem step_seq (x : Except DecodeFailure α) (g : α → Except DecodeFailure β) :
    step (x >>= g) = step x >>= fun a => step (g a) := by
  cases x <;> rfl

theorem step_congr {x : Except DecodeFailure α} {f g : α → Guarded β} (h : ∀ a, x = .ok a → f a = g a) :
    (step x >>= f) = (step x >>= g) := by
  cases x with
  | error e => rfl
  | ok a => exact h a rfl

/-- Steps one after the other are not stopped if none of them is. -/
theorem step_bind {x : Except DecodeFailure α} {f : α → Guarded β} {g : α → Except DecodeFailure β}
    (h : ∀ a, x = .ok a → f a = step (g a)) : (step x >>= f) = step (x >>= g) := by
  rw [step_seq]
  exact step_congr h

end Guarded

/-! ## Guards -/

/-- The format of a stored number by its width. -/
def FloatFormat.ofWidth? : Nat → Option FloatFormat
  | 2 => some .half
  | 4 => some .single
  | 8 => some .double
  | _ => none

theorem FloatFormat.ofWidth?_width (f : FloatFormat) : ofWidth? f.width = some f := by cases f <;> rfl

/-- Whether a value of some arity goes on after `i` items, at the cursor where the next would stand. -/
def Arity.goesOn (width : Nat) (path : Path) (i : Nat) (c : Cursor) : Arity → Except DecodeFailure Bool
  | single => .ok (i < 1)
  | times length => .ok (i < length)
  | toEnd =>
    if c.left ≤ 0 then .ok false
    else if c.left < width then .error (.error ⟨.partialElement path c.left width, c.offset⟩)
    else .ok true

namespace Guarded

/-- Reads a primitive. The format of a number must be known. -/
def primitive [Codecs] (p : Primitive) (path : Path) (c : Cursor) : Guarded (Value × Cursor) :=
  match p with
  | .float f order => do
    let (bs, after) ← step (c.take path f.width)
    match FloatFormat.ofWidth? f.width with
    | some format => pure (.float format (Double.ofBits format (bs.toNat order)), after)
    | none => breaks (.missingFormat f.width)
  | p => step (p.read path c)

/-- Reads the items from the one with index `i` on; each must take `width` bytes, and no more than `budget` of
them may be begun. -/
def items (element : Path → Cursor → Guarded (Value × Cursor)) (width : Nat)
    (goesOn : Nat → Cursor → Except DecodeFailure Bool) (path : Path) :
    Nat → Nat → List Value → Cursor → Guarded (List Value × Cursor)
  | budget, i, done, c => do
    if ← step (goesOn i c) then
      match budget with
      | 0 => breaks (.tooManyItems path)
      | budget + 1 =>
        let (v, after) ← element (path.item i) c
        if after = c.skip width then items element width goesOn path budget (i + 1) (v :: done) after
        else breaks (.offWidth path)
    else pure (done.reverse, c)

variable (s : Schema)

/-- The struct at a place, which the table must have. -/
def structAt (place : Nat) : Guarded Struct :=
  match s.structs[place]? with
  | some d => pure d
  | none => breaks (.missingStruct place)

/-- The width of an element, which must be known and at least one byte. -/
def width (b : BaseType Nat) : Guarded Nat := do
  let known ← match b with
    | .primitive p => pure (some p.width)
    | .struct j => do
      let d ← structAt s j
      pure d.width
  match known with
  | none => breaks (.unboundedElement b)
  | some 0 => breaks (.emptyElement b)
  | some w => pure w

section Fields

variable (struct : Nat → Path → Cursor → Guarded (Value × Cursor)) (budget : Nat)

/-- Reads a value of a type that is no array. -/
def base [Codecs] : BaseType Nat → Path → Cursor → Guarded (Value × Cursor)
  | .primitive p => primitive p
  | .struct j => struct j

/-- Reads a value of a type. -/
def value [Codecs] (t : FieldType Nat) (path : Path) (c : Cursor) : Guarded (Value × Cursor) :=
  match t.arity with
  | .single => base struct t.base path c
  | a => do
    let w ← width s t.base
    let (vs, c) ← items (base struct t.base) w (fun i c => a.goesOn w path i c) path budget 0 [] c
    pure (.array vs, c)

/-- Passes padding of a type. -/
def padding (t : FieldType Nat) (path : Path) (c : Cursor) : Guarded Cursor := do
  let unit ← width s t.base
  step (skipPadding unit path t.arity c)

/-- Reads the fields of a struct; those that are padding leave no entry. -/
def fields [Codecs] : List Field → Path → Cursor → Guarded (List (String × Value) × Cursor)
  | [], _, c => pure ([], c)
  | f :: fs, path, c =>
    if f.type.base.isPadding then do
      let c ← padding s f.type (path.field f.name) c
      fields fs path c
    else do
      let (v, c) ← value s struct budget f.type (path.field f.name) c
      let (entries, c) ← fields fs path c
      pure ((f.name, v) :: entries, c)

end Fields

/-- Reads the struct at a place; no more than `depth` structs may stand inside one another. -/
def struct [Codecs] (budget : Nat) : Nat → Nat → Path → Cursor → Guarded (Value × Cursor)
  | 0, place, _, _ => breaks (.tooDeep place)
  | depth + 1, place, path, c => do
    let d ← structAt s place
    let (entries, c) ← fields s (struct budget depth) budget d.fields path c
    pure (.struct entries, c)

end Guarded

namespace Schema

/-- Reads what stands at a cursor under guard: structs nest no deeper than the table is long, and no array begins
more than one item beyond the bytes that are left. -/
def guardedAt [Codecs] (s : Schema) (c : Cursor) : Guarded (Value × Cursor) := do
  let root ← Guarded.structAt s s.root
  Guarded.struct s (c.left.toNat + 1) s.structs.length s.root ⟨root.name, []⟩ c

/-- Decodes a payload under guard. -/
def guardedDecode [Codecs] (s : Schema) (data : Bytes) (offset : Nat) (size : Option Int) :
    Except Breakdown (Except PayloadFailure Value) :=
  let total := data.length
  let region (stop : Int) : Except Breakdown (Except PayloadFailure Value) :=
    match (s.guardedAt (.ofRegion data offset stop)).run with
    | .ok (.ok (v, _)) => .ok (.ok v)
    | .ok (.error e) => .ok (.error (PayloadError.ofRead (total < offset) e))
    | .error b => .error b
  match size with
  | none => region total
  | some size =>
    let available := total - offset
    if (available : Int) < size then .ok (.error (PayloadError.missing size available total))
    else region (offset + size)

end Schema

/-! ## Reading under guard -/

/-- Within regions of at most `limit` bytes, no guard stops the one reader, and it reads what the other does. -/
def Follows {α : Type} (limit : Nat) (guarded : Path → Cursor → Guarded (α × Cursor))
    (reader : Path → Cursor → Except DecodeFailure (α × Cursor)) : Prop :=
  ∀ path c, c.left ≤ (limit : Int) → guarded path c = .step (reader path c)

namespace Guarded

variable {limit : Nat}

theorem follows_primitive [Codecs] (p : Primitive) : Follows limit (primitive p) p.read := by
  intro path c _
  cases p with
  | float f order =>
    refine step_bind fun r _ => ?_
    rw [FloatFormat.ofWidth?_width]
    rfl
  | _ => rfl

section Items

variable {guarded : Path → Cursor → Guarded (Value × Cursor)}
  {element : Path → Cursor → Except DecodeFailure (Value × Cursor)} {u : Nat}
  {goesOn : Nat → Cursor → Except DecodeFailure Bool} {path : Path}

/-- An array that goes on for `count` more items reads these. Every item takes a byte at least, so the budget
lasts: the items begun and the bytes left are never more than the limit together. -/
theorem items_eq (he : Follows limit guarded element) (ha : Advances u element) (hu : 0 < u) (count : Nat)
    {budget i : Nat} {done : List Value} {c : Cursor} (hbudget : budget + i = limit + 1) (hleft : i + c.left ≤ limit)
    (hbegun : 0 < i → 0 ≤ c.left) (hgo : ∀ j < count, goesOn (i + j) (c.skip (u * j : Nat)) = .ok true)
    (hstop : goesOn (i + count) (c.skip (u * count : Nat)) ≠ .ok true) :
    items guarded u goesOn path budget i done c = (do
      let r ← step (readItems element path i done count c)
      let _ ← step (goesOn (i + count) r.2)
      pure r) := by
  induction count generalizing budget i done c with
  | zero =>
    rw [Nat.mul_zero, Nat.cast_zero, c.skip_zero] at hstop
    unfold items
    refine step_congr fun more hmore => ?_
    cases more with
    | true => exact absurd hmore hstop
    | false => rfl
  | succ count ih =>
    have hfirst := hgo 0 (Nat.succ_pos count)
    rw [Nat.mul_zero, Nat.cast_zero, c.skip_zero] at hfirst
    -- what follows the first item
    have hnext : ∀ j, goesOn (i + 1 + j) ((c.skip u).skip (u * j : Nat)) =
        goesOn (i + (j + 1)) (c.skip (u * (j + 1) : Nat)) := fun j => by
      rw [Cursor.skip_skip, Nat.mul_succ, Nat.add_comm u, Nat.add_assoc i 1 j, Nat.add_comm 1 j]
    have hskip : (c.skip u).left = c.left - u := rfl
    unfold items
    rw [show goesOn i c = _ from hfirst, step_ok, pure_bind, if_pos rfl]
    cases budget with
    | zero =>
      have := hbegun (by omega)
      omega
    | succ budget =>
      dsimp only
      rw [he _ _ (by omega), readItems, step_seq, bind_assoc]
      refine step_congr fun r hr => ?_
      obtain ⟨v, after⟩ := r
      obtain ⟨rfl, hle⟩ := ha _ c v after hr
      have := hle hu
      dsimp only
      rw [if_pos rfl, show i + (count + 1) = i + 1 + count by omega]
      refine ih ?_ ?_ (fun _ => ?_) (fun j hj => (hnext j).trans (hgo (j + 1) (by omega)))
        ((hnext count).trans_ne hstop)
      · omega
      · rw [hskip]
        omega
      · rw [hskip]
        omega

end Items

section Types

variable {s : Schema} {struct : Nat → Path → Cursor → Guarded (Value × Cursor)} {b : BaseType Nat} {u : Nat}

variable (limit s struct b) in
/-- The struct that a type refers to, if any, is in the table and read under guard. -/
def Refers [Codecs] : Prop :=
  ∀ j, b = .struct j → j < s.structs.length ∧ Follows limit (struct j) (s.shapeAt j).read

theorem follows_base [Codecs] (hb : Refers limit s struct b) : Follows limit (base struct b) (s.baseShape b).read := by
  cases b with
  | primitive p =>
    show Follows limit (primitive p) (Shape.primitive p).read
    rw [Schema.read_primitive]
    exact follows_primitive p
  | struct j => exact (hb j rfl).2

theorem structAt_eq {i : Nat} (h : i < s.structs.length) : structAt s i = pure (s.struct i) := by
  unfold structAt Schema.struct
  rw [List.getElem?_eq_getElem h]
  rfl

theorem width_eq [Codecs] (hb : Refers limit s struct b) (hu : s.baseWidth b = some u) (hpos : 0 < u) :
    width s b = pure u := by
  obtain ⟨w, rfl⟩ := Nat.exists_eq_add_one.2 hpos
  unfold width
  cases b with
  | primitive p =>
    change some p.width = some (w + 1) at hu
    simp only [pure_bind, hu]
  | struct j =>
    change (s.struct j).width = some (w + 1) at hu
    simp only [structAt_eq (hb j rfl).1, pure_bind, hu]

theorem advances_base [Codecs] (hs : s.WellFormed) (hu : s.baseWidth b = some u) : Advances u (s.baseShape b).read := by
  have hfit : (s.baseShape b).Fitting fun _ => True := by
    cases b with
    | primitive p => exact .primitive trivial
    | struct j => exact hs.fitting (fun _ _ _ _ _ => trivial) j
  exact hfit.advances (hs.width_baseShape.trans hu)

/-- An infinite array goes on as long as a whole element is left. -/
theorem goesOn_toEnd_of_lt {i j : Nat} {path : Path} {c : Cursor} (hj : j < c.left.toNat / u) :
    Arity.toEnd.goesOn u path i (c.skip (u * j : Nat)) = .ok true := by
  have hroom : u * (j + 1) ≤ c.left.toNat :=
    (Nat.mul_le_mul_left u hj).trans (Nat.mul_div_le _ u)
  have hpos : 0 < u := Nat.pos_of_ne_zero fun h => by simp [h] at hj
  have hleft : (c.skip (u * j : Nat)).left = c.left - (u * j : Nat) := rfl
  rw [Nat.mul_succ] at hroom
  rw [Arity.goesOn, hleft, if_neg (by omega), if_neg (by omega)]

/-- After the last whole element, an infinite array ends, or what is left is a partial element. -/
theorem goesOn_toEnd_of_eq (hu : 0 < u) (i : Nat) (path : Path) (c : Cursor) :
    Arity.toEnd.goesOn u path i (c.skip (u * (c.left.toNat / u) : Nat)) =
      if 0 < (c.skip (u * (c.left.toNat / u) : Nat)).left then
        .error (.error ⟨.partialElement path (c.skip (u * (c.left.toNat / u) : Nat)).left u,
          (c.skip (u * (c.left.toNat / u) : Nat)).offset⟩)
      else .ok false := by
  have hrest := Nat.lt_mul_div_succ c.left.toNat hu
  rw [Nat.mul_succ] at hrest
  have hleft : (c.skip (u * (c.left.toNat / u) : Nat)).left = c.left - (u * (c.left.toNat / u) : Nat) := rfl
  rw [Arity.goesOn]
  split
  · rw [if_neg (by omega)]
  · rw [if_pos (by omega), if_pos (by omega)]

/-- An array is read item by item, until it does not go on. -/
theorem follows_value [Codecs] (hs : s.WellFormed) {t : FieldType Nat} (hb : Refers limit s struct t.base)
    (he : ElementFits s.baseWidth t) :
    Follows limit (value s struct (limit + 1) t) fun path =>
      readArity (s.baseShape t.base).read ((s.baseShape t.base).width.getD 0) path t.arity := by
  have hbase := follows_base hb
  obtain ⟨b, a⟩ := t
  intro path c hc
  cases a with
  | single => exact hbase path c hc
  | times length =>
    obtain ⟨u, hu, hpos⟩ := he (by simp)
    simp only [value]
    rw [width_eq hb hu hpos, pure_bind, items_eq hbase (advances_base hs hu) hpos length (by omega) (by omega)
      (by omega) (fun j hj => by simp [Arity.goesOn, hj]) (by simp [Arity.goesOn]), bind_assoc]
    exact step_bind fun r _ => rfl
  | toEnd =>
    obtain ⟨u, hu, hpos⟩ := he (by simp)
    change s.baseWidth b = some u at hu
    have hend := goesOn_toEnd_of_eq hpos (0 + c.left.toNat / u) path c
    simp only [value]
    rw [width_eq hb hu hpos, pure_bind, items_eq hbase (advances_base hs hu) hpos (c.left.toNat / u) (by omega)
      (by omega) (by omega) (fun j hj => goesOn_toEnd_of_lt hj) (by rw [hend]; split <;> simp), bind_assoc]
    rw [hs.width_baseShape, hu, Option.getD_some]
    refine step_bind fun ⟨vs, after⟩ hr => ?_
    obtain ⟨rfl, -⟩ := readItems_advances (advances_base hs hu) hr
    dsimp only
    rw [hend]
    split <;> rfl

theorem padding_eq {w : Width} {a : Arity} {path : Path} {c : Cursor} :
    padding s ⟨.primitive (.padding w), a⟩ path c = step (skipPadding w.1 path a c) := by
  obtain ⟨n, hn⟩ := w
  obtain ⟨m, rfl⟩ := Nat.exists_eq_add_one.2 hn
  rfl

/-- Fields are read one after the other. What an unbounded field leaves does not matter, for it is the last. -/
theorem follows_fields [Codecs] (hs : s.WellFormed) : ∀ {fs : List Field} {total : Option Nat},
    Fits s.baseWidth (fs.map (·.type)) total → (∀ f ∈ fs, Refers limit s struct f.type.base) →
      Follows limit (fields s struct (limit + 1) fs) (Shape.readFields (fs.map s.fieldShape))
  | [], _, _, _ => by
    intro path c _
    rw [List.map_nil, Shape.readFields]
    rfl
  | f :: fs, _, hfits, hb => by
    intro path c hc
    obtain ⟨hbf, hbfs⟩ := List.forall_mem_cons.1 hb
    obtain ⟨he, hlast, _, hrest⟩ := Schema.fits_cons hfits
    have hnext : ∀ {c₁ : Cursor}, (∀ w, s.widthOf f.type = some w → c₁ = c.skip w) →
        fields s struct (limit + 1) fs path c₁ = step (Shape.readFields (fs.map s.fieldShape) path c₁) := by
      intro c₁ hc₁
      rcases hlast with hw | rfl
      · obtain ⟨w, hw⟩ := Option.isSome_iff_exists.1 hw
        refine follows_fields hs hrest hbfs path c₁ ?_
        rw [hc₁ w hw]
        show c.left - w ≤ _
        omega
      · rw [List.map_nil, Shape.readFields]
        rfl
    rw [fields, List.map_cons, Schema.fieldShape, Shape.readFields, hs.paddingUnit?_eq]
    by_cases hp : f.type.base.isPadding = true
    · obtain ⟨name, ⟨_, a⟩, position⟩ := f
      obtain ⟨unit, rfl⟩ := Schema.isPadding_iff.1 hp
      rw [if_pos hp, if_pos hp, padding_eq]
      refine step_bind fun c₁ hc₁ => hnext fun w hw => ?_
      exact (skipPadding_advances hw hc₁).1
    · rw [if_neg hp, if_neg hp, follows_value hs hbf he _ _ hc]
      refine step_bind fun ⟨v, c₁⟩ hv => ?_
      dsimp only
      rw [hnext fun w hw => ?_]
      · exact step_bind fun _ _ => rfl
      · obtain ⟨u, hu⟩ := Arity.exists_of_width hw
        rw [Schema.widthOf, hu] at hw
        exact (advances_arity (advances_base hs hu) hw _ _ c v c₁ hv).1

end Types

/-! ## Nesting -/

/-- A struct is read under guard if nesting may be deeper than its level. -/
theorem follows_struct [Codecs] {s : Schema} (hs : s.WellFormed) {level : Nat → Nat}
    (hlevel : ∀ i, ∀ f ∈ (s.struct i).fields, ∀ j, f.type.base = .struct j → level j < level i) :
    ∀ {depth i : Nat}, level i < depth → i < s.structs.length →
      Follows limit (struct s (limit + 1) depth i) (s.shapeAt i).read
  | depth + 1, i, hi, hlt => by
    intro path c hc
    have hb : ∀ f ∈ (s.struct i).fields, Refers limit s (struct s (limit + 1) depth) f.type.base :=
      fun f hf j hj => by
        have := hlevel i f hf j hj
        have hlt' := hs.target i f hf j hj
        exact ⟨hlt', follows_struct hs hlevel (by omega) hlt'⟩
    rw [struct, structAt_eq hlt, pure_bind, hs.shapeAt_eq, Shape.read, follows_fields hs (hs.fits i) hb path c hc]
    exact step_bind fun _ _ => rfl

end Guarded

namespace Schema

variable {s : Schema}

/-- The structs of a table stand on levels, fewer than there are structs, each above those it refers to. -/
theorem WellFormed.exists_level (h : s.WellFormed) : ∃ level : Nat → Nat,
    (∀ i < s.structs.length, level i < s.structs.length) ∧
    ∀ i, ∀ f ∈ (s.struct i).fields, ∀ j, f.type.base = .struct j → level j < level i := by
  obtain ⟨rank, hrank⟩ := h.rank
  -- the level is the number of structs of a lower rank
  let lower (i : Nat) : Finset Nat := (Finset.range s.structs.length).filter (rank · < rank i)
  refine ⟨fun i => (lower i).card, fun i hi => ?_, fun i f hf j hj => ?_⟩
  · have hsub : lower i ⊂ Finset.range s.structs.length :=
      Finset.filter_ssubset.2 ⟨i, Finset.mem_range.2 hi, Nat.lt_irrefl _⟩
    simpa using Finset.card_lt_card hsub
  · have hlt := hrank i f hf j hj
    refine Finset.card_lt_card (Finset.ssubset_iff_of_subset ?_ |>.2 ⟨j, ?_, ?_⟩)
    · exact Finset.monotone_filter_right _ fun k _ hk => lt_trans hk hlt
    · exact Finset.mem_filter.2 ⟨Finset.mem_range.2 (h.target i f hf j hj), hlt⟩
    · simp [lower]

theorem WellFormed.guardedAt_eq [Codecs] (h : s.WellFormed) (c : Cursor) : s.guardedAt c = .step (s.readAt c) := by
  obtain ⟨level, hlt, hlevel⟩ := h.exists_level
  rw [guardedAt, Guarded.structAt_eq h.root, pure_bind]
  exact Guarded.follows_struct h hlevel (hlt _ h.root) h.root _ c (by omega)

/-- No guard stops decoding by a well-formed schema, and what it reads is what decoding reads. -/
theorem WellFormed.guardedDecode_eq [Codecs] (h : s.WellFormed) (data : Bytes) (offset : Nat) (size : Option Int) :
    s.guardedDecode data offset size = .ok (s.decode data offset size) := by
  unfold guardedDecode decode
  simp only [h.guardedAt_eq]
  cases size with
  | none => cases s.readAt (.ofRegion data offset data.length) <;> rfl
  | some size =>
    dsimp only
    split
    · rfl
    · cases s.readAt (.ofRegion data offset (offset + size)) <;> rfl

/-- A guard stops a struct that stands in itself. -/
example : (⟨[⟨"R", [⟨"x", ⟨.struct 0, .single⟩, ⟨1, 1, 0, 1⟩⟩], some 0, ⟨1, 1, 0, 1⟩⟩], 0⟩ : Schema).guardedDecode
    [] 0 none = .error (.tooDeep 0) := rfl

end Schema

end BinRecord
