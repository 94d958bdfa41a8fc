/-
What decoding looks at: the length of the payload and the bytes of its values. Two payloads of the same length
that have the same bytes in all values without parts come to the same outcome, be it a value or an error.

Two readings are compared step by step: both fail with the same error, or give the same value and go on at
the same place (`Twin`).
-/
import BinRecord.Proofs.Payload.Leaves

namespace BinRecord

/-- A value without parts has the same bytes in two payloads. -/
def Leaf.Shared (bs bs' : Bytes) (l : Leaf) : Prop :=
  ∀ p, l.kind = .value p → (bs'.drop l.offset).take p.width = (bs.drop l.offset).take p.width

/-- Two readings of payloads that start at `start` come to the same. -/
inductive Twin {α : Type} (bs bs' : Bytes) (start : Nat) :
    Except DecodeFailure (α × Cursor) → Except DecodeFailure (α × Cursor) → Prop
  | ok (v : α) {q : Nat} : q ≤ bs.length →
      Twin bs bs' start (.ok (v, .within bs start q)) (.ok (v, .within bs' start q))
  | error (e : DecodeFailure) : Twin bs bs' start (.error e) (.error e)

/-- A reader comes to the same on two payloads if the leaves that it reads are shared. -/
def TwinBy {α : Type} (bs bs' : Bytes) (start : Nat) (leaves : Path → Nat → List Leaf)
    (reader : Path → Cursor → Except DecodeFailure (α × Cursor)) : Prop :=
  ∀ path q, q ≤ bs.length → (∀ l ∈ leaves path q, l.Shared bs bs') →
    Twin bs bs' start (reader path (.within bs start q)) (reader path (.within bs' start q))

section

variable {α β : Type} {bs bs' : Bytes} {start : Nat}

theorem Cursor.within_inj {q q' : Nat} (h : within bs start q = within bs start q') : q = q' := by
  have hoffset : (start : Int) + q = start + q' := congrArg Cursor.offset h
  omega

theorem Twin.bind {x x' : Except DecodeFailure (α × Cursor)} {k : α × Cursor → Except DecodeFailure (β × Cursor)}
    (hx : Twin bs bs' start x x')
    (hk : ∀ v q, x = .ok (v, .within bs start q) → q ≤ bs.length →
      Twin bs bs' start (k (v, .within bs start q)) (k (v, .within bs' start q))) :
    Twin bs bs' start (x >>= k) (x' >>= k) := by
  cases hx with
  | ok v hq => exact hk v _ rfl hq
  | error e => exact .error e

theorem Twin.map {x x' : Except DecodeFailure (α × Cursor)} (hx : Twin bs bs' start x x') (f : α → β) :
    Twin bs bs' start (x.map fun r => (f r.1, r.2)) (x'.map fun r => (f r.1, r.2)) := by
  cases hx with
  | ok v hq => exact .ok (f v) hq
  | error e => exact .error e

theorem except_map_bind {ε α β γ : Type} (x : Except ε α) (k : α → Except ε β) (f : β → γ) :
    (x >>= k).map f = x >>= fun a => (k a).map f := by
  cases x <;> rfl

variable (hlen : bs'.length = bs.length)

include hlen

theorem Cursor.left_twin (q : Nat) : (within bs' start q).left = (within bs start q).left :=
  congrArg (fun n : Nat => (n : Int) - q) hlen

/-- As many bytes are taken from both payloads, or are missing in both. -/
theorem Twin.of_take {path : Path} {q n : Nat} {k : Bytes × Cursor → Except DecodeFailure (β × Cursor)}
    (hq : q ≤ bs.length)
    (hk : q + n ≤ bs.length → Twin bs bs' start (k ((bs.drop q).take n, .within bs start (q + n)))
      (k ((bs'.drop q).take n, .within bs' start (q + n)))) :
    Twin bs bs' start ((Cursor.within bs start q).take path n >>= k)
      ((Cursor.within bs' start q).take path n >>= k) := by
  by_cases hin : q + n ≤ bs.length
  · rw [Cursor.take_eq_ok.2 ⟨hin, rfl⟩, Cursor.take_eq_ok.2 ⟨hlen ▸ hin, rfl⟩]
    exact hk hin
  · rw [(Cursor.take_eq_error hq).2 ⟨by omega, rfl⟩, (Cursor.take_eq_error (hlen ▸ hq)).2 ⟨by omega, rfl⟩, hlen]
    exact .error _

theorem Primitive.twinBy_read [Codecs] (p : Primitive) :
    TwinBy bs bs' start (fun path q => [⟨path, q, .value p⟩]) p.read := by
  intro path q hq hshared
  have hbytes : (bs'.drop q).take p.width = (bs.drop q).take p.width := hshared _ (List.mem_singleton_self _) p rfl
  unfold read
  refine Twin.of_take hlen hq fun hin => ?_
  rw [hbytes]
  cases p with
  | text w e =>
    dsimp only
    split
    · exact .ok _ hin
    · exact .error _
  | _ => exact .ok _ hin

theorem twin_skipPadding (unit : Nat) (a : Arity) (path : Path) {q : Nat} (hq : q ≤ bs.length) (v : α) :
    Twin bs bs' start ((skipPadding unit path a (.within bs start q)).map fun c => (v, c))
      ((skipPadding unit path a (.within bs' start q)).map fun c => (v, c)) := by
  -- so many bytes are passed at once
  have htake : ∀ n, Twin bs bs' start
      (((Cursor.within bs start q).take path n >>= fun r => .ok r.2).map fun c => (v, c))
      (((Cursor.within bs' start q).take path n >>= fun r => .ok r.2).map fun c => (v, c)) := fun n => by
    rw [except_map_bind, except_map_bind]
    exact Twin.of_take hlen hq fun hin => .ok v hin
  cases a with
  | single => exact htake unit
  | times k => exact htake (unit * k)
  | toEnd =>
    dsimp only [skipPadding]
    rw [Cursor.left_twin hlen]
    split
    · exact .error _
    · rw [Cursor.left_within hq, Cursor.skip_within, Cursor.skip_within]
      exact .ok v (by omega)

section Arrays

variable {element : Path → Cursor → Except DecodeFailure (Value × Cursor)} {leaves : Path → Nat → List Leaf} {u : Nat}

omit hlen in
theorem twin_readItems (he : TwinBy bs bs' start leaves element) (hu : Advances u element) (path : Path) (o : Nat) :
    ∀ (count i : Nat) (done : List Value), o + i * u ≤ bs.length →
      (∀ l ∈ (List.range' i count).flatMap fun j => leaves (path.item j) (o + j * u), l.Shared bs bs') →
      Twin bs bs' start (readItems element path i done count (.within bs start (o + i * u)))
        (readItems element path i done count (.within bs' start (o + i * u)))
  | 0, _, done, hq, _ => .ok done.reverse hq
  | count + 1, i, done, hq, hshared => by
    rw [List.range'_succ, List.flatMap_cons, List.forall_mem_append] at hshared
    rw [readItems, readItems]
    refine (he _ _ hq hshared.1).bind fun v q' hv hq' => ?_
    -- the next item stands where this one ends
    have hnext : q' = o + (i + 1) * u := by
      obtain ⟨hc, -⟩ := hu _ _ v _ hv
      rw [Cursor.skip_within] at hc
      rw [Cursor.within_inj hc, Nat.succ_mul, Nat.add_assoc]
    subst hnext
    exact twin_readItems he hu path o count (i + 1) (v :: done) hq' hshared.2

theorem twinBy_readArity (he : TwinBy bs bs' start leaves element) {a : Arity}
    (hu : a ≠ .single → Advances u element) :
    TwinBy bs bs' start (a.leaves bs.length u leaves) fun path => readArity element u path a := by
  intro path q hq hshared
  cases a with
  | single => exact he path q hq hshared
  | times k =>
    rw [Arity.leaves, List.range_eq_range'] at hshared
    have hitems := twin_readItems he (hu (by simp)) path q k 0 [] (by simpa using hq) hshared
    rw [Nat.zero_mul, Nat.add_zero] at hitems
    exact hitems.bind fun vs q' _ hq' => .ok (Value.array vs) hq'
  | toEnd =>
    rw [Arity.leaves, List.forall_mem_append, List.range_eq_range'] at hshared
    have hitems := twin_readItems he (hu (by simp)) path q ((bs.length - q) / u) 0 [] (by simpa using hq) hshared.1
    rw [Nat.zero_mul, Nat.add_zero] at hitems
    dsimp only [readArity]
    rw [Cursor.left_twin hlen, Cursor.toNat_left_within]
    refine hitems.bind fun vs q' _ hq' => ?_
    dsimp only
    rw [Cursor.left_twin hlen]
    split
    · exact .error _
    · exact .ok (Value.array vs) hq'

end Arrays

theorem twinBy_readEntry [Codecs] {shape : Shape} {a : Arity}
    (hs : TwinBy bs bs' start (shape.leaves bs.length) shape.read)
    (hadv : ∀ u, shape.width = some u → Advances u shape.read)
    (ha : a ≠ .single → ∃ u, shape.width = some u ∧ 0 < u) :
    TwinBy bs bs' start (shape.entryLeaves bs.length (shape.leaves bs.length) a) (Schema.readEntry shape a) := by
  intro path q hq hshared
  unfold Schema.readEntry
  unfold Shape.entryLeaves at hshared
  cases hpad : shape.paddingUnit? with
  | some unit => exact twin_skipPadding hlen unit a path hq none
  | none =>
    rw [hpad] at hshared
    refine (twinBy_readArity hlen hs (fun hne => ?_) path q hq hshared).map _
    obtain ⟨u, hu, -⟩ := ha hne
    rw [hu]
    exact hadv u hu

end

section

variable {bs bs' : Bytes} {start : Nat}

mutual

/-- A value of a shape is read from its leaves alone. -/
theorem Shape.Fitting.twinBy [Codecs] {ok : Primitive → Prop} (hlen : bs'.length = bs.length) : ∀ {shape : Shape},
    shape.Fitting ok → TwinBy bs bs' start (shape.leaves bs.length) shape.read
  | .primitive p, _, path, q, hq, hshared => by
    rw [leaves] at hshared
    rw [Schema.read_primitive]
    exact p.twinBy_read hlen path q hq hshared
  | .struct _ fields, .struct hfields, path, q, hq, hshared => by
    rw [leaves] at hshared
    rw [read, read]
    exact (Shape.FieldsFitting.twin hlen hfields path q hq hshared).bind fun es q' _ hq' => .ok (Value.struct es) hq'

theorem Shape.FieldsFitting.twin [Codecs] {ok : Primitive → Prop} (hlen : bs'.length = bs.length) :
    ∀ {fields : List (String × Arity × Shape)} {total : Option Nat}, FieldsFitting ok fields total →
      TwinBy bs bs' start (fieldLeaves bs.length fields) (readFields fields)
  | [], _, .nil, path, q, hq, _ => by
    rw [readFields, readFields]
    exact .ok [] hq
  | (name, a, shape) :: fields, _, .cons (w := w) hshape ha hw hfields, path, q, hq, hshared => by
    have hadv := fun u hu => Shape.Fitting.advances hshape (w := u) hu
    rw [fieldLeaves, List.forall_mem_append, hw, Option.getD_some] at hshared
    have hentry := twinBy_readEntry hlen (Shape.Fitting.twinBy hlen hshape) hadv ha _ q hq hshared.1
    rw [Schema.readFields_cons, Schema.readFields_cons]
    refine hentry.bind fun v q' hv hq' => ?_
    have hnext : q' = q + w := by
      obtain ⟨hc, -⟩ := Schema.readEntry_advances hadv hw _ _ v _ hv
      rw [Cursor.skip_within] at hc
      exact Cursor.within_inj hc
    subst hnext
    exact (Shape.FieldsFitting.twin hlen hfields path _ hq' hshared.2).bind fun es q' _ hq' => .ok _ hq'
  | [(name, a, shape)], _, .last hshape ha hw, path, q, hq, hshared => by
    have hadv := fun u hu => Shape.Fitting.advances hshape (w := u) hu
    rw [fieldLeaves, List.forall_mem_append] at hshared
    have hentry := twinBy_readEntry hlen (Shape.Fitting.twinBy hlen hshape) hadv ha _ q hq hshared.1
    rw [Schema.readFields_cons, Schema.readFields_cons]
    exact hentry.bind fun v q' _ hq' => .ok _ hq'

end

end

/-! ## Payloads -/

namespace Schema

variable {s : Schema} {data data' : Bytes} {offset stop : Nat} {size : Option Int}

/-- A byte of a payload of `n` bytes is one of padding. -/
def PaddingByte (s : Schema) (n i : Nat) : Prop :=
  ∃ m steps o w, s.Counts m n (s.Tail s.rootType) 0 ∧
    s.Leads m s.rootType steps o ⟨.primitive (.padding w), .single⟩ ∧ o ≤ i ∧ i < o + w.1

/-- Payloads of the same length come to the same outcome if they share the bytes of their values. -/
theorem WellFormed.decode_congr [Codecs] (h : s.WellFormed) (hstop : payloadEnd data offset size = stop)
    (hle : offset ≤ stop)
    (hlen : stop ≤ data.length) (hlen' : data'.length = data.length)
    (hshared : ∀ l ∈ s.leaves (stop - offset),
      l.Shared ((data.drop offset).take (stop - offset)) ((data'.drop offset).take (stop - offset))) :
    s.decode data' offset size = s.decode data offset size := by
  have hstop' : payloadEnd data' offset size = stop := by
    rw [← hstop]
    cases size with
    | none => exact congrArg Nat.cast hlen'
    | some k => rfl
  rw [decode_eq_read hstop hle hlen, decode_eq_read hstop' hle (hlen' ▸ hlen), hlen']
  have hlength : ((data.drop offset).take (stop - offset)).length = stop - offset := length_region hlen
  have hlength' : ((data'.drop offset).take (stop - offset)).length = stop - offset := length_region (hlen' ▸ hlen)
  generalize (data.drop offset).take (stop - offset) = payload at hlength hshared
  generalize (data'.drop offset).take (stop - offset) = payload' at hlength' hshared
  rw [← hlength] at hshared hlength'
  have htwin : Twin payload payload' offset
      ((s.shapeAt s.root).read ⟨s.rootStruct.name, []⟩ (.within payload offset 0))
      ((s.shapeAt s.root).read ⟨s.rootStruct.name, []⟩ (.within payload' offset 0)) :=
    (h.fitting_any s.root).twinBy hlength' _ 0 (Nat.zero_le _) hshared
  generalize (s.shapeAt s.root).read _ (.within payload offset 0) = x at htwin
  generalize (s.shapeAt s.root).read _ (.within payload' offset 0) = x' at htwin
  cases htwin with
  | ok => rfl
  | error => rfl

/-- No byte of a value is one of padding. -/
theorem WellFormed.not_paddingByte (h : s.WellFormed) {m n o i : Nat} {steps : List PathStep} {p : Primitive}
    (hl : s.Leads m s.rootType steps o ⟨.primitive p, .single⟩) (hp : p.isPadding = false)
    (hi : o ≤ i ∧ i < o + p.width) : ¬ s.PaddingByte n i := by
  rintro ⟨m', steps', o', w, -, hl', hi'⟩
  obtain rfl := h.eq_of_shared hl hl' hi hi'
  cases hp

/-- Data that differ in nothing but bytes of padding come to the same outcome. -/
theorem WellFormed.decode_eq_of_padding [Codecs] (h : s.WellFormed) (hstop : payloadEnd data offset size = stop)
    (hle : offset ≤ stop) (hlen : stop ≤ data.length) (hlen' : data'.length = data.length)
    (hsame : ∀ i < stop - offset, ¬ s.PaddingByte (stop - offset) i → data'[offset + i]? = data[offset + i]?) :
    s.decode data' offset size = s.decode data offset size := by
  obtain ⟨m, hm⟩ := h.exists_counts (stop - offset)
  refine h.decode_congr hstop hle hlen hlen' fun l hl p hp => ?_
  obtain ⟨steps, o, t, kind, hlead, hleaf, rfl⟩ := (h.mem_leaves_iff hm).1 hl
  obtain rfl : kind = .value p := hp
  cases hleaf with
  | value hpad =>
    refine List.ext_getElem? fun i => ?_
    rw [List.getElem?_take, List.getElem?_take]
    split
    · rename_i hi
      rw [List.getElem?_drop, List.getElem?_drop, List.getElem?_take, List.getElem?_take]
      split
      · rename_i hin
        rw [List.getElem?_drop, List.getElem?_drop]
        exact hsame _ hin (h.not_paddingByte hlead hpad ⟨Nat.le_add_right .., Nat.add_lt_add_left hi _⟩)
      · rfl
    · rfl

end Schema

end BinRecord
