/-
Writing payloads of schemas whose values stand for their bytes: integers, byte strings and padding. A value
lays out a template, in which the bytes of its padding are open; filling them gives a payload. Unbounded
padding may be as long as the writer likes, in whole pieces.
-/
import BinRecord.Proofs.Bytes.Integer
import BinRecord.Proofs.Payload.Shape

namespace BinRecord

/-! ## Templates -/

/-- The bytes of a payload as far as they are laid down; none where any byte may stand. -/
abbrev Template := List (Option UInt8)

namespace Template

/-- Room for `n` bytes of padding. -/
def gap (n : Nat) : Template := List.replicate n none

/-- Bytes that are all laid down. -/
def ofBytes (bs : Bytes) : Template := bs.map some

/-- The template with filler in its gaps. -/
def fill (filler : Nat → UInt8) (t : Template) : Bytes := t.mapIdx fun i b => b.getD (filler i)

/-- The bytes from `q` on follow the template. -/
structure StandsAt (bs : Bytes) (q : Nat) (t : Template) : Prop where
  fits : q + t.length ≤ bs.length
  agrees : ∀ i b, t[i]? = some (some b) → bs[q + i]? = some b

variable {bs : Bytes} {q n : Nat} {t t₁ t₂ : Template} {filler : Nat → UInt8}

@[simp] theorem length_gap : (gap n).length = n := List.length_replicate

@[simp] theorem length_ofBytes : (ofBytes bs).length = bs.length := List.length_map some

@[simp] theorem length_fill : (t.fill filler).length = t.length := List.length_mapIdx

theorem gap_zero : gap 0 = [] := rfl

theorem gap_add (m n : Nat) : gap (m + n) = gap m ++ gap n := List.replicate_add ..

theorem standsAt_nil : StandsAt bs q [] ↔ q ≤ bs.length := by
  constructor
  · intro h
    exact h.fits
  · intro h
    exact ⟨h, fun i b hi => by simp at hi⟩

theorem standsAt_gap : (gap n).StandsAt bs q ↔ q + n ≤ bs.length := by
  constructor
  · intro h
    simpa using h.fits
  · intro h
    refine ⟨by simpa using h, fun i b hi => ?_⟩
    rw [gap, List.getElem?_replicate] at hi
    split at hi <;> cases hi

theorem standsAt_append : StandsAt bs q (t₁ ++ t₂) ↔ t₁.StandsAt bs q ∧ t₂.StandsAt bs (q + t₁.length) := by
  constructor
  · rintro ⟨hfits, hagrees⟩
    rw [List.length_append] at hfits
    refine ⟨⟨by omega, fun i b hi => hagrees i b ?_⟩, ⟨by omega, fun i b hi => ?_⟩⟩
    · rw [List.getElem?_append_left (List.getElem?_eq_some_iff.1 hi).1]
      exact hi
    · rw [Nat.add_assoc]
      refine hagrees (t₁.length + i) b ?_
      rw [List.getElem?_append_right (Nat.le_add_right _ _), Nat.add_sub_cancel_left]
      exact hi
  · rintro ⟨h₁, h₂⟩
    have := h₂.fits
    refine ⟨by rw [List.length_append]; omega, fun i b hi => ?_⟩
    rcases lt_or_ge i t₁.length with hlt | hge
    · rw [List.getElem?_append_left hlt] at hi
      exact h₁.agrees i b hi
    · rw [List.getElem?_append_right hge] at hi
      have := h₂.agrees _ b hi
      rwa [Nat.add_assoc, Nat.add_sub_cancel' hge] at this

theorem ofBytes_getElem? {xs : Bytes} {i : Nat} {b : UInt8} : (ofBytes xs)[i]? = some (some b) ↔ xs[i]? = some b := by
  simp [ofBytes]

theorem standsAt_ofBytes {xs : Bytes} :
    (ofBytes xs).StandsAt bs q ↔ q + xs.length ≤ bs.length ∧ (bs.drop q).take xs.length = xs := by
  constructor
  · rintro ⟨hfits, hagrees⟩
    rw [length_ofBytes] at hfits
    refine ⟨hfits, List.ext_getElem? fun i => ?_⟩
    rcases lt_or_ge i xs.length with hi | hi
    · have hx := List.getElem?_eq_getElem hi
      rw [List.getElem?_take_of_lt hi, List.getElem?_drop, hx]
      exact hagrees i _ (ofBytes_getElem?.2 hx)
    · rw [List.getElem?_eq_none hi, List.getElem?_eq_none (by simp; omega)]
  · rintro ⟨hfits, heq⟩
    refine ⟨by simpa using hfits, fun i b hi => ?_⟩
    have hx := ofBytes_getElem?.1 hi
    have hlt := (List.getElem?_eq_some_iff.1 hx).1
    rw [← heq] at hx
    rwa [List.getElem?_take_of_lt hlt, List.getElem?_drop] at hx

/-- Whatever the filler, a payload follows its template. -/
theorem standsAt_fill (t : Template) (filler : Nat → UInt8) : t.StandsAt (t.fill filler) 0 := by
  refine ⟨by simp, fun i b hi => ?_⟩
  rw [Nat.zero_add, fill, List.getElem?_mapIdx, hi]
  rfl

/-- Bytes that follow a template are those of the template with these bytes in its gaps. -/
theorem StandsAt.fill_eq (h : t.StandsAt bs 0) : t.fill (fun i => bs[i]?.getD 0) = bs.take t.length := by
  have hfits := h.fits
  rw [Nat.zero_add] at hfits
  refine List.ext_getElem? fun i => ?_
  rw [fill, List.getElem?_mapIdx]
  rcases lt_or_ge i t.length with hi | hi
  · rw [List.getElem?_take_of_lt hi, List.getElem?_eq_getElem hi, Option.map_some]
    cases hb : t[i] with
    | none => rw [List.getElem?_eq_getElem (by omega)]; rfl
    | some b =>
      have := h.agrees i b (by rw [List.getElem?_eq_getElem hi, hb])
      rw [Nat.zero_add] at this
      rw [this]
      rfl
  · have hend : (bs.take t.length)[i]? = none := List.getElem?_eq_none (by simp; omega)
    rw [List.getElem?_eq_none hi, hend]
    rfl

end Template

/-! ## Primitives -/

namespace Primitive

/-- Whether values of a primitive tell all of its bytes. -/
def isExact : Primitive → Bool
  | unsigned .. | signed .. | bytes _ | padding _ => true
  | float .. | text .. => false

/-- The values of a primitive: integers in range, and byte strings of the declared width. -/
def Conforms : Primitive → Value → Prop
  | unsigned w _, .int n => 0 ≤ n ∧ n < 2 ^ (8 * w.bytes)
  | signed w _, .int n => -2 ^ (8 * w.bytes - 1) ≤ n ∧ n < 2 ^ (8 * w.bytes - 1)
  | bytes w, .bytes bs | padding w, .bytes bs => bs.length = w
  | _, _ => False

/-- The bytes of a value. -/
def store : Primitive → Value → Bytes
  | unsigned w order, .int n => Bytes.ofNat order w.bytes n.toNat
  | signed w order, .int n => Bytes.ofInt order w.bytes n
  | bytes _, .bytes bs | padding _, .bytes bs => bs
  | _, _ => []

variable {p : Primitive} {v : Value} {bs : Bytes}

theorem length_store (h : p.Conforms v) : (p.store v).length = p.width := by
  cases p <;> cases v <;> simp_all [Conforms, store, width, Bytes.length_ofNat, Bytes.length_ofInt]

/-- A primitive has the value that is stored in its bytes. -/
theorem value?_eq_some_iff [Codecs] (hp : p.isExact) (hlen : bs.length = p.width) :
    p.value? bs = some v ↔ p.Conforms v ∧ p.store v = bs := by
  cases p with
  | float => cases hp
  | text => cases hp
  | unsigned w order =>
    cases v with
    | int n =>
      show some (Value.int (bs.toNat order)) = some (.int n) ↔ _
      rw [Option.some.injEq, Value.int.injEq]
      exact Bytes.natCast_toNat_eq_iff order hlen
    | _ => simp [value?, Conforms]
  | signed w order =>
    cases v with
    | int n =>
      show some (Value.int (bs.toInt order)) = some (.int n) ↔ _
      rw [Option.some.injEq, Value.int.injEq]
      exact Bytes.toInt_eq_iff order (signed w order).width_pos hlen
    | _ => simp [value?, Conforms]
  | bytes w =>
    constructor
    · intro h
      cases h
      exact ⟨hlen, rfl⟩
    · rintro ⟨hv, rfl⟩
      cases v with
      | bytes bs => rfl
      | _ => cases hv
  | padding w =>
    constructor
    · intro h
      cases h
      exact ⟨hlen, rfl⟩
    · rintro ⟨hv, rfl⟩
      cases v with
      | bytes bs => rfl
      | _ => cases hv

end Primitive

/-! ## Values -/

namespace Arity

/-- The values of some arity, from those of the elements. -/
def Conforms (element : Value → Prop) : Arity → Value → Prop
  | single, v => element v
  | times k, .array vs => vs.length = k ∧ ∀ v ∈ vs, element v
  | toEnd, .array vs => ∀ v ∈ vs, element v
  | _, _ => False

/-- What values of some arity lay out: their elements, one after the other. -/
def template (element : Value → Template) : Arity → Value → Template
  | single, v => element v
  | times _, .array vs | toEnd, .array vs => vs.flatMap element
  | _, _ => []

/-- The number of pieces of padding, `units` if it is unbounded. -/
def pieces (units : Nat) : Arity → Nat
  | single => 1
  | times k => k
  | toEnd => units

end Arity

namespace Shape

mutual

/-- The values of a shape. -/
def Conforms : Shape → Value → Prop
  | primitive p, v => p.Conforms v
  | struct _ fields, .struct entries => FieldsConform fields entries
  | struct _ _, _ => False

/-- The entries of a struct are named as its fields are, in their order. Padding has none. -/
def FieldsConform : List (String × Arity × Shape) → List (String × Value) → Prop
  | [], entries => entries = []
  | (name, a, shape) :: fields, entries =>
    match shape.paddingUnit?, entries with
    | some _, entries => FieldsConform fields entries
    | none, (key, v) :: entries => key = name ∧ a.Conforms (Conforms shape) v ∧ FieldsConform fields entries
    | none, [] => False

end

mutual

/-- What a value of a shape lays out. Unbounded padding has `units` pieces. -/
def template (units : Nat) : Shape → Value → Template
  | primitive p, v => .ofBytes (p.store v)
  | struct _ fields, .struct entries => templateFields units fields entries
  | struct _ _, _ => []

/-- What the entries of a struct lay out, with the padding between them. -/
def templateFields (units : Nat) : List (String × Arity × Shape) → List (String × Value) → Template
  | [], _ => []
  | (_, a, shape) :: fields, entries =>
    match shape.paddingUnit?, entries with
    | some unit, entries => .gap (unit * a.pieces units) ++ templateFields units fields entries
    | none, (_, v) :: entries => a.template (template units shape) v ++ templateFields units fields entries
    | none, [] => []

end

end Shape

namespace Schema

variable (s : Schema)

/-- The values of all primitives of a schema tell their bytes. -/
def isExact : Bool :=
  s.structs.all fun d => d.fields.all fun f =>
    match f.type.base with
    | .primitive p => p.isExact
    | .struct _ => true

/-- The values of a schema. -/
def Conforms (v : Value) : Prop := s.shape.Conforms v

/-- What a value lays out in a payload. Unbounded padding has `units` pieces. -/
def template (units : Nat) (v : Value) : Template := s.shape.template units v

/-- Writes a value as a payload, with filler for the bytes of its padding. -/
def encode (units : Nat) (filler : Nat → UInt8) (v : Value) : Bytes := (s.template units v).fill filler

variable {s}

theorem isExact_of_mem (h : s.isExact) (i : Nat) {f : Field} (hf : f ∈ (s.struct i).fields) {p : Primitive}
    (hp : f.type.base = .primitive p) : p.isExact := by
  unfold struct at hf
  cases hd : s.structs[i]? with
  | none =>
    rw [hd] at hf
    cases hf
  | some d =>
    rw [hd] at hf
    have := List.all_eq_true.1 (List.all_eq_true.1 h d (List.mem_of_getElem? hd)) f hf
    rwa [hp] at this

end Schema

end BinRecord
