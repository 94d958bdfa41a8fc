/-
Decoding by a compiled schema cannot go wrong inside. No guard ever stops it, and it ends with a value or with an
error that it reports: that the payload is too short, or that a text is not valid. Two things escape: what the codec
of a text in the payload raises of its own, and that a message would show a number with too many digits.

A reader keeps its cursor inside the region of the payload (`Inside`), and with it the numbers and the bytes that it
can come to. So there is one statement about every reader (`Sound`), proved along the references of the table.
-/
import BinRecord.Proofs.Payload.Guarded

namespace BinRecord

/-! ## What messages show -/

namespace Schema

/-- A field of a table is a text of some width in some encoding, or an array of such texts. -/
def HasText (s : Schema) (w : Width) (encoding : Encoding) : Prop :=
  ∃ i, ∃ f ∈ (s.struct i).fields, f.type.base = .primitive (.text w encoding)

/-- A field of a table takes so many bytes, or an element of it does. -/
def HasExtent (s : Schema) (n : Nat) : Prop :=
  ∃ i, ∃ f ∈ (s.struct i).fields, s.baseWidth f.type.base = some n ∨ s.widthOf f.type = some n

/-- A number that a message about a payload can show: how many bytes the payload has or are left of it, how many a
field or an element takes, and a place, if the payload starts beyond the data. -/
inductive Shows (s : Schema) (data : Bytes) (offset : Nat) (stop : Int) : Int → Prop
  | left {n : Int} : n.natAbs ≤ (stop - offset).natAbs → Shows s data offset stop n
  | extent {n : Nat} : s.HasExtent n → Shows s data offset stop n
  | start {n : Int} : data.length < offset → stop ≤ n → n ≤ offset → Shows s data offset stop n
  | behind {n : Int} {w : Nat} : data.length < offset → s.HasExtent w → stop - w ≤ n → n ≤ offset →
      Shows s data offset stop n

/-- What escapes where a payload is read: an error that the codec of a text raises of its own on bytes of the data,
or that a number in a message has too many digits. -/
inductive Escapes [Codecs] (s : Schema) (data : Bytes) (offset : Nat) (stop : Int) : Escape → Prop
  | codec {w : Width} {encoding : Encoding} {bs : Bytes} {x : Escape} : s.HasText w encoding → bs <:+: data →
      bs.length = w.1 → encoding.decode bs = .error (.escaped x) → Escapes s data offset stop x
  | unwritable {n : Int} : s.Shows data offset stop n → Text.isWritable n = false →
      Escapes s data offset stop .unwritable

/-! ## Cursors -/

section Cursors

/-- A cursor in the region of a payload. -/
structure Inside (data : Bytes) (offset : Nat) (stop : Int) (c : Cursor) : Prop where
  bytes : c.rest <:+: data
  length : c.rest.length = c.left.toNat
  ends : c.offset + c.left = stop
  left : c.left.natAbs ≤ (stop - offset).natAbs
  beyond : data.length < offset → c.left ≤ 0 ∧ c.offset ≤ offset

variable {data : Bytes} {offset : Nat} {stop : Int} {c : Cursor}

theorem Inside.skip (h : Inside data offset stop c) {n : Nat} (hn : (n : Int) ≤ c.left) :
    Inside data offset stop (c.skip n) := by
  have hleft := h.left
  refine ⟨(List.drop_suffix n c.rest).isInfix.trans h.bytes, ?_, ?_, ?_, fun hbeyond => ?_⟩
  · show (c.rest.drop n).length = (c.left - n).toNat
    rw [List.length_drop, h.length]
    omega
  · show c.offset + n + (c.left - n) = stop
    rw [← h.ends]
    omega
  · show (c.left - n).natAbs ≤ _
    omega
  · obtain ⟨hnone, hoffset⟩ := h.beyond hbeyond
    show c.left - n ≤ 0 ∧ c.offset + n ≤ offset
    omega

/-- Nothing is left when all that is left is passed. -/
theorem Inside.skip_left (h : Inside data offset stop c) : Inside data offset stop (c.skip c.left) := by
  refine ⟨(List.drop_suffix c.left.toNat c.rest).isInfix.trans h.bytes, ?_, ?_, ?_, fun hbeyond => ?_⟩
  · show (c.rest.drop c.left.toNat).length = (c.left - c.left).toNat
    rw [List.length_drop, h.length]
    omega
  · show c.offset + c.left + (c.left - c.left) = stop
    rw [← h.ends]
    omega
  · show (c.left - c.left).natAbs ≤ _
    omega
  · obtain ⟨hnone, hoffset⟩ := h.beyond hbeyond
    show c.left - c.left ≤ 0 ∧ c.offset + c.left ≤ offset
    omega

/-- A region starts inside itself. -/
theorem inside_ofRegion (hstop : stop ≤ data.length ∨ stop ≤ offset) :
    Inside data offset stop (.ofRegion data offset stop) := by
  refine ⟨(List.take_prefix _ _).isInfix.trans (List.drop_suffix _ _).isInfix, ?_, ?_, le_refl _, fun hbeyond => ?_⟩
  · show ((data.drop offset).take (stop - offset).toNat).length = (stop - offset).toNat
    rw [List.length_take, List.length_drop]
    omega
  · show (offset : Int) + (stop - offset) = stop
    omega
  · show stop - offset ≤ 0 ∧ (offset : Int) ≤ offset
    omega

end Cursors

/-! ## Readers -/

section Readers

variable [Codecs] (s : Schema) (data : Bytes) (offset : Nat) (stop : Int)

/-- A failure that reading can come to. -/
inductive Found : DecodeFailure → Prop
  | error {e : DecodeError} : e.fault.kind = .truncated ∨ e.fault.kind = .invalidEncoding →
      (∀ n ∈ e.fault.numbers, s.Shows data offset stop n) →
      (data.length < offset → s.Shows data offset stop e.offset) → Found (.error e)
  | escaped {x : Escape} : s.Escapes data offset stop x → Found (.escaped x)

/-- Reading comes to such a failure, or to something of which `P` holds. -/
def Ends {α : Type} (P : α → Prop) : Except DecodeFailure α → Prop
  | .ok a => P a
  | .error e => s.Found data offset stop e

/-- A reader stays in the region. -/
def Sound {α : Type} (reader : Path → Cursor → Except DecodeFailure (α × Cursor)) : Prop :=
  ∀ path c, Inside data offset stop c →
    s.Ends data offset stop (fun r : α × Cursor => Inside data offset stop r.2) (reader path c)

variable {s data offset stop} {path : Path} {c : Cursor}

theorem Ends.bind {α β : Type} {P : α → Prop} {Q : β → Prop} {x : Except DecodeFailure α}
    {f : α → Except DecodeFailure β} (hx : s.Ends data offset stop P x)
    (hf : ∀ a, P a → s.Ends data offset stop Q (f a)) : s.Ends data offset stop Q (x >>= f) := by
  cases x with
  | error e => exact hx
  | ok a => exact hf a hx

/-- The bytes that are taken are bytes of the data. -/
theorem ends_take (path : Path) (h : Inside data offset stop c) {n : Nat} (hn : s.HasExtent n) :
    s.Ends data offset stop (fun r : Bytes × Cursor => Inside data offset stop r.2 ∧ (n : Int) ≤ c.left ∧
      r.1 <:+: data ∧ r.1.length = n) (c.take path n) := by
  unfold Cursor.take
  split
  · rename_i hshort
    refine .error (.inl rfl) ?_ fun hbeyond => ?_
    · simpa [DecodeFault.numbers] using ⟨Shows.extent hn, Shows.left h.left⟩
    · obtain ⟨hnone, hoffset⟩ := h.beyond hbeyond
      exact .start hbeyond (by rw [← h.ends]; show c.offset + c.left ≤ c.offset; omega) hoffset
  · rename_i henough
    refine ⟨h.skip (by omega), by omega, (List.take_prefix n c.rest).isInfix.trans h.bytes, ?_⟩
    rw [List.length_take, h.length]
    omega

theorem sound_primitive {p : Primitive} (hextent : s.HasExtent p.width) (htext : ∀ w e, p = .text w e → s.HasText w e) :
    s.Sound data offset stop p.read := by
  intro path c h
  unfold Primitive.read
  refine (ends_take path h hextent).bind ?_
  rintro ⟨bs, after⟩ ⟨hafter, hleft, hbs, hlen⟩
  cases p with
  | text w e =>
    dsimp only
    split
    · exact hafter
    · rename_i failure hfailure
      cases failure with
      | escaped x => exact .escaped (.codec (htext w e rfl) hbs hlen hfailure)
      | error malformed =>
        refine .error (.inr rfl) (by simp [DecodeFault.numbers]) fun hbeyond => ?_
        -- beyond the data there is no room for a text
        have := (h.beyond hbeyond).1
        have hpos := w.2
        change ((w.1 : Nat) : Int) ≤ c.left at hleft
        omega
  | _ => exact hafter

section Arrays

variable {element : Path → Cursor → Except DecodeFailure (Value × Cursor)}

theorem ends_readItems (he : s.Sound data offset stop element) (path : Path) {i : Nat} {done : List Value} {count : Nat}
    (h : Inside data offset stop c) :
    s.Ends data offset stop (fun r : List Value × Cursor => Inside data offset stop r.2)
      (readItems element path i done count c) := by
  induction count generalizing i done c with
  | zero => exact h
  | succ count ih => exact (he (path.item i) c h).bind fun r hr => ih hr

theorem sound_readArity (he : s.Sound data offset stop element) {width : Nat} {a : Arity}
    (hwidth : a = .toEnd → s.HasExtent width) : s.Sound data offset stop fun path => readArity element width path a := by
  intro path c h
  cases a with
  | single => exact he path c h
  | times length => exact (ends_readItems he path h).bind fun r hr => hr
  | toEnd =>
    refine (ends_readItems he path h).bind ?_
    rintro ⟨vs, after⟩ (hafter : Inside data offset stop after)
    dsimp only
    split
    · rename_i hrest
      refine .error (.inl rfl) ?_ fun hbeyond => ?_
      · simpa [DecodeFault.numbers] using ⟨Shows.left hafter.left, Shows.extent (hwidth rfl)⟩
      · have := (hafter.beyond hbeyond).1
        omega
    · exact hafter

end Arrays

/-- Padding is passed inside the region. -/
theorem ends_skipPadding (path : Path) (h : Inside data offset stop c) {w : Width} {a : Arity} (hw : s.HasExtent w.1)
    (hwhole : ∀ n, s.widthOf ⟨.primitive (.padding w), a⟩ = some n → s.HasExtent n) :
    s.Ends data offset stop (Inside data offset stop) (skipPadding w.1 path a c) := by
  cases a with
  | single => exact (ends_take path h hw).bind fun r hr => hr.1
  | times length => exact (ends_take path h (hwhole _ rfl)).bind fun r hr => hr.1
  | toEnd =>
    unfold skipPadding
    dsimp only
    split
    · refine .error (.inl rfl) (by simp [DecodeFault.numbers]) fun hbeyond => ?_
      have hstop := h.ends
      have hnone := h.beyond hbeyond
      have hpos : (0 : Int) < (w.1 : Nat) := by exact_mod_cast w.2
      have hextra := Int.emod_nonneg c.left hpos.ne'
      have hunit := Int.emod_lt_of_pos c.left hpos
      refine .behind hbeyond hw ?_ ?_
      · show stop - (w.1 : Nat) ≤ c.offset + c.left - c.left % (w.1 : Nat)
        omega
      · show c.offset + c.left - c.left % (w.1 : Nat) ≤ offset
        omega
    · exact h.skip_left

/-- Fields are read inside the region if the types that they are made of are. -/
theorem sound_readFields (hs : s.WellFormed) {i : Nat} {fs : List Field} (hfs : fs ⊆ (s.struct i).fields)
    (hstructs : ∀ f ∈ (s.struct i).fields, ∀ j, f.type.base = .struct j → s.Sound data offset stop (s.shapeAt j).read) :
    s.Sound data offset stop (Shape.readFields (fs.map s.fieldShape)) := by
  induction fs with
  | nil =>
    intro path c h
    exact h
  | cons f fs ih =>
    obtain ⟨hf, hrest⟩ := List.cons_subset.1 hfs
    intro path c h
    rw [List.map_cons, fieldShape, Shape.readFields, hs.paddingUnit?_eq]
    by_cases hp : f.type.base.isPadding = true
    · obtain ⟨w, hw⟩ := isPadding_iff.1 hp
      have htype : f.type = ⟨.primitive (.padding w), f.type.arity⟩ := by rw [← hw]
      rw [if_pos hp, hw]
      refine (ends_skipPadding _ h ⟨i, f, hf, .inl (by rw [hw]; rfl)⟩ fun n hn => ?_).bind
        fun c' hc' => ih hrest path c' hc'
      exact ⟨i, f, hf, .inr (htype ▸ hn)⟩
    · have hbase : s.Sound data offset stop (s.baseShape f.type.base).read := by
        cases hb : f.type.base with
        | primitive p =>
          show s.Sound data offset stop (Shape.primitive p).read
          rw [read_primitive]
          exact sound_primitive ⟨i, f, hf, .inl (by rw [hb]; rfl)⟩ fun w e he => ⟨i, f, hf, by rw [hb, he]⟩
        | struct j => exact hstructs f hf j hb
      have hwidth : f.type.arity = .toEnd → s.HasExtent ((s.baseShape f.type.base).width.getD 0) := fun ha => by
        obtain ⟨u, hu, -⟩ := hs.elementFits hf (by rw [ha]; simp)
        rw [hs.width_baseShape, hu]
        exact ⟨i, f, hf, .inl hu⟩
      rw [if_neg hp]
      exact (sound_readArity hbase hwidth _ c h).bind fun r hr => (ih hrest path r.2 hr).bind fun r' hr' => hr'

/-- Every struct of a table is read inside the region. -/
theorem sound_struct (hs : s.WellFormed) (i : Nat) : s.Sound data offset stop (s.shapeAt i).read := by
  refine hs.induction (P := fun i => s.Sound data offset stop (s.shapeAt i).read) (fun i ih => ?_) i
  intro path c h
  rw [hs.shapeAt_eq, Shape.read]
  exact (sound_readFields hs (List.Subset.refl _) ih path c h).bind fun r hr => hr

end Readers

/-! ## Decoding -/

section Decoding

variable [Codecs] {s : Schema}

/-- A value, or an error that is reported: the payload has fewer bytes than were declared or than its type
needs, or a text in it is not valid. -/
def Reported : Except PayloadFailure Value → Prop
  | .ok _ => True
  | .error (.error (.header e)) => e.fault.kind = .truncatedPayload
  | .error (.error (.decode e)) => e.fault.kind = .truncated ∨ e.fault.kind = .invalidEncoding
  | .error (.escaped _) => False

/-- No guard stops decoding, and it ends with what is reported or with what escapes. -/
structure DecodesSafely (s : Schema) (data : Bytes) (offset : Nat) (size : Option Int) : Prop where
  unbroken : s.guardedDecode data offset size = .ok (s.decode data offset size)
  outcome : Reported (s.decode data offset size) ∨ ∃ x, s.decode data offset size = .error (.escaped x) ∧
    s.Escapes data offset (payloadEnd data offset size) x

/-- What reading comes to is reported, or it escapes. -/
theorem Found.reported {data : Bytes} {offset : Nat} {stop : Int} {f : DecodeFailure}
    (h : s.Found data offset stop f) :
    Reported (.error (PayloadError.ofRead (data.length < offset) f)) ∨
      ∃ x, PayloadError.ofRead (data.length < offset) f = .escaped x ∧ s.Escapes data offset stop x := by
  cases h with
  | escaped hx => exact .inr ⟨_, rfl, hx⟩
  | @error e hkind hnumbers hplace =>
    by_cases hshown : (e.fault.numbers.all Text.isWritable &&
        (!decide (data.length < offset) || Text.isWritable e.offset)) = true
    · refine .inl ?_
      rw [PayloadError.ofRead, DecodeError.failure, if_pos hshown]
      exact hkind
    · refine .inr ⟨.unwritable, by rw [PayloadError.ofRead, DecodeError.failure, if_neg hshown]; rfl, ?_⟩
      rw [Bool.and_eq_true, not_and_or, Bool.not_eq_true, Bool.not_eq_true, List.all_eq_false, Bool.or_eq_false_iff,
        Bool.not_eq_false', decide_eq_true_eq] at hshown
      rcases hshown with ⟨n, hn, hlong⟩ | ⟨hbeyond, hlong⟩
      · exact .unwritable (hnumbers n hn) (by simpa using hlong)
      · exact .unwritable (hplace hbeyond) hlong

/-- Reading a region ends with what is reported, or with what escapes. -/
theorem region_outcome (hs : s.WellFormed) {data : Bytes} {offset : Nat} {stop : Int}
    (hstop : stop ≤ data.length ∨ stop ≤ offset) {result : Except PayloadFailure Value}
    (hresult : result = ((s.readAt (.ofRegion data offset stop)).map (·.1)).mapError
      (PayloadError.ofRead (data.length < offset))) :
    Reported result ∨ ∃ x, result = .error (.escaped x) ∧ s.Escapes data offset stop x := by
  have hends := sound_struct hs s.root ⟨s.rootStruct.name, []⟩ _ (inside_ofRegion hstop)
  change s.Ends data offset stop _ (s.readAt _) at hends
  subst hresult
  cases hread : s.readAt (.ofRegion data offset stop) with
  | ok r => exact .inl trivial
  | error f =>
    rw [hread] at hends
    rcases hends.reported with hreported | ⟨x, hx, hescapes⟩
    · exact .inl hreported
    · exact .inr ⟨x, congrArg Except.error hx, hescapes⟩

/-- A number of bytes that is declared but not there is reported, if it can be written. -/
theorem missing_outcome (s : Schema) {data : Bytes} {offset : Nat} {declared : Int} {available : Nat}
    (h : (available : Int) < declared) :
    Reported (.error (PayloadError.missing declared available data.length)) ∨
      ∃ x, PayloadError.missing declared available data.length = .escaped x ∧
        s.Escapes data offset (offset + declared) x := by
  unfold PayloadError.missing HeaderError.failure
  split
  · exact .inl rfl
  · rename_i hno
    refine .inr ⟨.unwritable, rfl, ?_⟩
    rw [Bool.not_eq_true, List.all_eq_false] at hno
    obtain ⟨n, hn, hlong⟩ := hno
    refine .unwritable (.left ?_) (by simpa using hlong)
    simp only [HeaderFault.numbers, List.mem_cons, List.not_mem_nil, or_false] at hn
    rcases hn with rfl | rfl <;> omega

/-- Decoding by a compiled schema is safe. -/
theorem decode_safely {text : String} {root : Option String} (h : compile text root = .ok s) (data : Bytes)
    (offset : Nat) (size : Option Int) : s.DecodesSafely data offset size := by
  have hs := wellFormed_of_compile h
  refine ⟨hs.guardedDecode_eq data offset size, ?_⟩
  cases size with
  | none =>
    refine region_outcome hs (.inl (le_refl _)) ?_
    unfold decode
    dsimp only [payloadEnd]
    cases s.readAt (.ofRegion data offset data.length) <;> rfl
  | some size =>
    by_cases hmissing : ((data.length - offset : Nat) : Int) < size
    · have hdecode : s.decode data offset (some size) =
          .error (PayloadError.missing size (data.length - offset : Nat) data.length) := if_pos hmissing
      rw [hdecode]
      rcases missing_outcome s hmissing with hreported | ⟨x, hx, hescapes⟩
      · exact .inl hreported
      · exact .inr ⟨x, congrArg Except.error hx, hescapes⟩
    · refine region_outcome hs (by show _ ∨ (offset : Int) + size ≤ offset; simp only [payloadEnd]; omega) ?_
      unfold decode
      dsimp only [payloadEnd]
      rw [if_neg hmissing]
      cases s.readAt (.ofRegion data offset (offset + size)) <;> rfl

/-- What the codec of a text raises of its own passes through. -/
theorem read_text_escaped {w : Width} {encoding : Encoding} {path : Path} {c : Cursor} (h : (w.1 : Int) ≤ c.left)
    {x : Escape} (hx : encoding.decode (c.rest.take w.1) = .error (.escaped x)) :
    (Primitive.text w encoding).read path c = .error (.escaped x) := by
  have htake : c.take path w.1 = .ok (c.rest.take w.1, c.skip w.1) := if_neg (by omega)
  simp only [Primitive.read, Primitive.width, htake, bind, Except.bind, hx, Failure.map]

/-- No payload decodes that is long enough and starts with a text on which the codec fails in a way of its own, and
this failure is not reported. -/
theorem WellFormed.decode_escapes (h : s.WellFormed) {f : Field} {fs : List Field} {w : Width} {encoding : Encoding}
    (hfields : s.rootStruct.fields = f :: fs) (hf : f.type = ⟨.primitive (.text w encoding), .single⟩)
    {data : Bytes} {offset : Nat} (hlen : offset + w.1 ≤ data.length) {x : Escape}
    (hx : encoding.decode ((data.drop offset).take w.1) = .error (.escaped x)) :
    s.decode data offset none = .error (.escaped x) := by
  have hall : (Cursor.ofRegion data offset data.length).rest = data.drop offset :=
    List.take_of_length_le (by rw [List.length_drop]; omega)
  have hread : s.readAt (.ofRegion data offset data.length) = .error (.escaped x) := by
    show (s.shapeAt s.root).read _ _ = _
    rw [h.shapeAt_eq, show (s.struct s.root).fields = f :: fs from hfields, Shape.read, List.map_cons, fieldShape, hf,
      Shape.readFields]
    show ((((Shape.primitive (.text w encoding)).read (Path.field ⟨s.rootStruct.name, []⟩ f.name)
      (.ofRegion data offset data.length)) >>= _) >>= _) = _
    rw [read_primitive, read_text_escaped (by show (w.1 : Int) ≤ data.length - offset; omega) (hall ▸ hx)]
    rfl
  unfold decode
  dsimp only
  rw [hread]
  rfl

end Decoding

/-- Nested structs, an array of more elements than there are bytes, and a text in which no bytes are text. -/
theorem decode_safely_nested : ∃ s,
    compile "struct P { x: F32, t: NSTR<2, undefined> } struct R { n: U8, gap: PAD<1>[3], ps: P[900], rest: P[+] }" none =
      .ok s ∧ s.DecodesSafely [7, 0, 0, 0, 64, 73, 15, 219, 65, 66] 0 none := by
  have hsome : (compile
      "struct P { x: F32, t: NSTR<2, undefined> } struct R { n: U8, gap: PAD<1>[3], ps: P[900], rest: P[+] }"
      none).toOption.isSome = true := by decide +kernel
  obtain ⟨s, hs⟩ := Option.isSome_iff_exists.1 hsome
  rw [except_toOption_eq_some] at hs
  exact ⟨s, hs, decode_safely hs _ 0 none⟩

/-- Such a schema compiles. -/
example : ((compile "struct R { t: NSTR<1, undefined> }" none).toOption.map fun s =>
    (s.decode [0] 0 none).toOption.isNone) = some true := by decide +kernel

end Schema

end BinRecord
