/-
The text of a compiled schema compiles to the schema again. Only the places of structs and fields in the
text may change; `unplaced` forgets them, and nothing that a schema is used for looks at them.
-/
import BinRecord.Payload.Decode
import BinRecord.Proofs.Schema.Derivation
import BinRecord.Proofs.Schema.Spelling

namespace BinRecord

/-! ## Without places -/

/-- A field put at the place of the missing struct. -/
def Field.unplaced (f : Field) : Field := ⟨f.name, f.type, Struct.missing.position⟩

/-- A struct and its fields put at the place of the missing struct. -/
def Struct.unplaced (d : Struct) : Struct :=
  ⟨d.name, d.fields.map Field.unplaced, d.width, Struct.missing.position⟩

namespace Schema

/-- A schema without the places of its structs and fields. -/
def unplaced (s : Schema) : Schema := ⟨s.structs.map Struct.unplaced, s.root⟩

@[simp] theorem struct_unplaced (s : Schema) (i : Nat) : s.unplaced.struct i = (s.struct i).unplaced := by
  unfold struct unplaced
  rw [List.getElem?_map]
  cases s.structs[i]? with
  | none => rfl
  | some d => rfl

@[simp] theorem baseText_unplaced (s : Schema) : s.unplaced.baseText = s.baseText := by
  funext b
  cases b with
  | primitive p => rfl
  | struct i => rw [baseText, struct_unplaced]; rfl

theorem structText_unplaced (s : Schema) (d : Struct) : s.unplaced.structText d.unplaced = s.structText d := by
  simp [structText, typeText, Struct.unplaced, Field.unplaced, Function.comp_def]

/-- The text of a schema does not show places. -/
theorem text_unplaced (s : Schema) : s.unplaced.text = s.text := by
  rw [text, text, unplaced, List.map_map]
  exact congrArg (fun l => "\n\n".intercalate l ++ "\n") (List.map_congr_left fun d _ => s.structText_unplaced d)

theorem references_unplaced (s : Schema) : s.unplaced.references = s.references := by
  funext i
  rw [references, references, struct_unplaced, Struct.unplaced, List.filterMap_map]
  rfl

theorem shape_unplaced (s : Schema) : s.unplaced.shape = s.shape := by
  have hstep : ∀ shapes d, shapeOf shapes (Struct.unplaced d) = shapeOf shapes d := fun shapes d => by
    rw [shapeOf, shapeOf, Struct.unplaced, List.map_map]
    rfl
  have horder : s.unplaced.order = s.order := by
    rw [order, order, references_unplaced, unplaced, List.length_map]
  simp only [shape, tabulate, horder, struct_unplaced, hstep]
  rfl

/-- Decoding does not look at places. -/
theorem decode_unplaced [Codecs] (s : Schema) : s.unplaced.decode = s.decode := by
  funext data offset size
  have hroot : s.unplaced.rootStruct.name = s.rootStruct.name := by
    rw [rootStruct, struct_unplaced]
    rfl
  unfold decode readAt
  rw [shape_unplaced, hroot]

/-! ## What a schema says is what it is -/

variable {s s' : Schema}

theorem getElem?_structs {i : Nat} (hi : i < s.structs.length) : s.structs[i]? = some (s.struct i) := by
  have he := List.getElem?_eq_getElem hi
  rw [he, struct_eq_of_getElem? he]

theorem getElem?_names {i : Nat} (hi : i < s.structs.length) :
    (s.structs.map (·.name))[i]? = some (s.struct i).name := by
  rw [List.getElem?_map, getElem?_structs hi, Option.map_some]

theorem names_of_signatures (s : Schema) : (s.structs.map s.signature).map (·.name) = s.structs.map (·.name) := by
  rw [List.map_map]
  rfl

/-- A type as it is written, with the place of the struct that it names. -/
def placedBase (names : List String) : BaseType String → BaseType Nat
  | .primitive p => .primitive p
  | .struct n => .struct (names.idxOf n)

/-- A field as it is written, with places for names. -/
def placedField (names : List String) (f : String × FieldType String) : Field :=
  ⟨f.1, ⟨placedBase names f.2.base, f.2.arity⟩, Struct.missing.position⟩

theorem WellFormed.placedBase_writtenBase (h : s.WellFormed) {b : BaseType Nat}
    (hb : ∀ i, b = .struct i → i < s.structs.length) :
    placedBase (s.structs.map (·.name)) (s.writtenBase b) = b := by
  cases b with
  | primitive p => rfl
  | struct i =>
    obtain ⟨hi, he⟩ := List.getElem?_eq_some_iff.1 (getElem?_names (hb i rfl))
    rw [writtenBase, placedBase, ← he, h.names.idxOf_getElem i hi]

/-- The fields of a struct are what it says of them. -/
theorem WellFormed.fields_eq (h : s.WellFormed) (i : Nat) : (s.struct i).fields.map Field.unplaced =
    (s.signature (s.struct i)).fields.map (placedField (s.structs.map (·.name))) := by
  rw [signature, List.map_map]
  refine List.map_congr_left fun f hf => ?_
  show _ = placedField _ (s.writtenField f)
  rw [writtenField, placedField, h.placedBase_writtenBase (h.target i f hf)]
  rfl

section Signatures

variable (hsig : s'.structs.map s'.signature = s.structs.map s.signature)

include hsig

theorem length_of_signatures : s'.structs.length = s.structs.length := by
  simpa using congrArg List.length hsig

theorem signature_eq {i : Nat} (hi : i < s.structs.length) : s'.signature (s'.struct i) = s.signature (s.struct i) := by
  have h := congrArg (·[i]?) hsig
  simpa [getElem?_structs hi, getElem?_structs (length_of_signatures hsig ▸ hi)] using h

/-- Schemas that say the same have the same fields. -/
theorem fields_of_signatures (h : s.WellFormed) (h' : s'.WellFormed) (i : Nat) :
    (s'.struct i).fields.map Field.unplaced = (s.struct i).fields.map Field.unplaced := by
  have hnames : s'.structs.map (·.name) = s.structs.map (·.name) := by
    rw [← names_of_signatures, hsig, names_of_signatures]
  have hlen := length_of_signatures hsig
  by_cases hi : i < s.structs.length
  · rw [h'.fields_eq, h.fields_eq, signature_eq hsig hi, hnames]
  · rw [struct_of_ge (by omega), struct_of_ge (by omega)]

end Signatures

/-- Schemas with the same fields have the same widths. -/
theorem width_of_fields (h : s.WellFormed) (h' : s'.WellFormed)
    (hfields : ∀ i, (s'.struct i).fields.map Field.unplaced = (s.struct i).fields.map Field.unplaced) (i : Nat) :
    (s'.struct i).width = (s.struct i).width := by
  refine h.induction (P := fun i => (s'.struct i).width = (s.struct i).width) (fun i ih => ?_) i
  have htypes : (s'.struct i).fields.map (·.type) = (s.struct i).fields.map (·.type) := by
    have := congrArg (List.map Field.type) (hfields i)
    simpa [Function.comp_def, Field.unplaced] using this
  -- the same types, over elements that have the same widths
  have hfits : Fits s'.baseWidth ((s'.struct i).fields.map (·.type)) (s.struct i).width := by
    refine (h.fits i).congr ?_
    rw [htypes, List.forall₂_same]
    intro t ht
    obtain ⟨f, hf, rfl⟩ := List.mem_map.1 ht
    refine ⟨rfl, ?_⟩
    cases hb : f.type.base with
    | primitive p => rfl
    | struct j => exact ih f hf j hb
  rw [(h'.fits i).total_eq, hfits.total_eq]

/-- Schemas that say the same, of the same struct as root, differ in places only. -/
theorem unplaced_of_signatures (h : s.WellFormed) (h' : s'.WellFormed)
    (hsig : s'.structs.map s'.signature = s.structs.map s.signature) (hroot : s'.root = s.root) :
    s'.unplaced = s.unplaced := by
  have hfields := fields_of_signatures hsig h h'
  have hwidth := width_of_fields h h' hfields
  have hlen := length_of_signatures hsig
  have hstructs : s'.structs.map Struct.unplaced = s.structs.map Struct.unplaced := by
    apply List.ext_getElem?
    intro i
    by_cases hi : i < s.structs.length
    · have hname : (s'.struct i).name = (s.struct i).name := congrArg Signature.name (signature_eq hsig hi)
      have hstruct : (s'.struct i).unplaced = (s.struct i).unplaced := by
        rw [Struct.unplaced, Struct.unplaced, hname, hfields i, hwidth i]
      rw [List.getElem?_map, List.getElem?_map, getElem?_structs hi, getElem?_structs (hlen ▸ hi), Option.map_some,
        Option.map_some, hstruct]
    · rw [List.getElem?_eq_none (by simpa [hlen] using hi), List.getElem?_eq_none (by simpa using hi)]
  rw [unplaced, unplaced, hstructs, hroot]

/-! ## From text to text -/

variable {ds : List (Declaration String)} {root : Option String}

theorem writtenBase_of_resolves {b : BaseType String} {c : BaseType Nat}
    (h : BaseResolves (s.structs.map (·.name)) b c) : s.writtenBase c = b := by
  cases h with
  | primitive p => rfl
  | struct hi =>
    obtain ⟨hlt, -⟩ := List.getElem?_eq_some_iff.1 hi
    rw [getElem?_names (by simpa using hlt), Option.some.injEq] at hi
    rw [writtenBase, hi]

/-- A schema says what the declarations say that it represents. -/
theorem signatures_of_represents (h : Represents ds root s) :
    s.structs.map s.signature = ds.map (·.signature) := by
  have hnames := names_of_represents h
  apply List.ext_getElem?
  intro i
  rw [List.getElem?_map, List.getElem?_map]
  cases hd : ds[i]? with
  | none =>
    rw [List.getElem?_eq_none_iff, ← h.length] at hd
    rw [List.getElem?_eq_none hd]
    rfl
  | some d =>
    obtain ⟨st, hst, hname, -, hfields⟩ := h.structs i d hd
    rw [hst, Option.map_some, Option.map_some, signature, Declaration.signature, hname]
    have hwritten : st.fields.map s.writtenField = d.fields.map fun f => (f.name, f.type) := by
      rw [← List.forall₂_eq_eq_eq, List.forall₂_map_left_iff, List.forall₂_map_right_iff]
      refine hfields.flip.imp fun g f hfg => ?_
      obtain ⟨hname, -, harity, hbase⟩ := hfg
      rw [writtenField, hname, writtenBase_of_resolves (hnames ▸ hbase), harity]
    rw [hwritten]

/-- A type with an encoding says one that is known, or none. -/
theorem canonical_of_base [Codecs] [Codecs.Canonical] {t : Derivation.TypePart} {w : Width} {e : Encoding}
    (h : t.base = .primitive (.text w e)) : e = .utf8 ∨ e.Canonical := by
  cases t with
  | numeric _ _ n p _ denotes =>
    cases h
    cases denotes
  | sized family _ _ _ _ _ _ encoding _ _ =>
    cases family with
    | text =>
      cases h
      cases encoding with
      | none => exact .inl rfl
      | some part => exact .inr (Codecs.Canonical.canonical part.known)
    | bytes => cases h
    | padding => cases h
  | struct => cases h

/-- The width of a type stands among its words. -/
theorem figures_of_base [Codecs] {t : Derivation.TypePart} {p : Primitive} {w : Width} (h : t.base = .primitive p)
    (hw : p.givenWidth? = some w) (hread : t.Numbers Text.Readable) :
    ∃ figures place, ⟨.figures figures, place⟩ ∈ t.words ∧
      Text.Readable figures.toList ∧ Text.decimalValue figures.toList = w.1 := by
  cases t with
  | numeric _ _ n p _ denotes =>
    cases h
    cases denotes <;> cases hw
  | sized family _ _ figures place width value encoding _ _ =>
    have hwidth : width = w := by cases family <;> cases h <;> cases hw <;> rfl
    exact ⟨figures, place, by simp [Derivation.TypePart.words], hread, by rw [value, hwidth]⟩
  | struct => cases h

/-- The names and numbers of a compiled schema stand in its text as such. -/
theorem named_of_compile [Codecs] [Codecs.Canonical] {text : String} (h : compile text root = .ok s) : s.Named := by
  obtain ⟨words, ds, hw, hd, hds⟩ := compile_eq_ok.1 h
  obtain ⟨hne, hwords⟩ := TokenList.declarations_eq_ok.1 hd
  obtain ⟨hrep, -⟩ := represents_of_ofDeclarations hne hds
  -- what the schema is called is called so in a declaration, and stands among the words
  have hproper : ∀ t ∈ words.tokens, t.lexeme.Proper := fun t ht =>
    Token.proper_of_words (Token.scan_eq_ok.1 ⟨words, hw, rfl⟩) _ (List.mem_map_of_mem ht)
  have hsigs : ∀ st ∈ s.structs, ∃ d ∈ ds, d.signature = s.signature st := fun st hst => by
    have hmem := List.mem_map_of_mem (f := s.signature) hst
    rw [signatures_of_represents hrep] at hmem
    exact List.mem_map.1 hmem
  have hfields : ∀ st ∈ s.structs, ∀ f ∈ st.fields, ∃ t : Derivation.FieldTree, t.words ⊆ words.tokens ∧
      t.Numbers Text.Readable ∧ t.declaration.name = f.name ∧ t.declaration.type = (s.writtenField f).2 :=
      fun st hst f hf => by
    obtain ⟨d, hmem, he⟩ := hsigs st hst
    have hwritten : (d.fields.map fun g => (g.name, g.type)) = st.fields.map s.writtenField :=
      congrArg Signature.fields he
    have hin := List.mem_map_of_mem (f := s.writtenField) hf
    rw [← hwritten] at hin
    obtain ⟨g, hg, hgf⟩ := List.mem_map.1 hin
    obtain ⟨t, rfl, hwords, hread⟩ := Derivation.exists_fieldTree hd hmem hg
    exact ⟨t, hwords, hread, congrArg Prod.fst hgf, congrArg Prod.snd hgf⟩
  refine ⟨fun st hst => ?_, fun st hst f hf => ?_, fun st hst f hf w e hb => ?_, fun st hst f hf p w hb hw => ?_,
    fun st hst f hf n hn => ?_⟩
  · obtain ⟨d, hd, he⟩ := hsigs st hst
    have hname : d.name = st.name := congrArg Signature.name he
    obtain ⟨hin, hbuiltIn, -⟩ := hwords.places d hd
    exact ⟨hname ▸ hproper ⟨.name d.name, d.position⟩ hin, hname ▸ hbuiltIn⟩
  · obtain ⟨t, hin, -, hname, -⟩ := hfields st hst f hf
    have hmem : ⟨.name t.name, t.position⟩ ∈ words.tokens := hin (by simp [Derivation.FieldTree.words])
    exact hname ▸ hproper ⟨.name t.name, t.position⟩ hmem
  · obtain ⟨t, -, -, -, htype⟩ := hfields st hst f hf
    exact canonical_of_base (t := t.type) ((congrArg FieldType.base htype).trans (congrArg s.writtenBase hb))
  · obtain ⟨t, hin, hread, -, htype⟩ := hfields st hst f hf
    have hbase : t.type.base = .primitive p := (congrArg FieldType.base htype).trans (congrArg s.writtenBase hb)
    obtain ⟨figures, place, hmem, hfigures, hvalue⟩ := figures_of_base hbase hw hread.1
    have hword : ⟨.figures figures, place⟩ ∈ t.words := by simp [Derivation.FieldTree.words, hmem]
    exact hvalue ▸ Text.readable_repr (hproper _ (hin hword)) hfigures
  · obtain ⟨t, hin, hread, -, htype⟩ := hfields st hst f hf
    have harity : Derivation.arityOf t.array = .times n := (congrArg FieldType.arity htype).trans hn
    cases harray : t.array with
    | none =>
      rw [harray] at harity
      cases harity
    | some part =>
      rw [harray] at harity
      cases part with
      | times left figures place right =>
        cases harity
        have hmem : ⟨.figures figures, place⟩ ∈ t.words := by
          simp [Derivation.FieldTree.words, harray, Derivation.optional, Derivation.ArrayPart.words]
        exact Text.readable_repr (hproper _ (hin hmem)) (hread.2 _ harray)
      | toEnd => cases harity

/-- The text of a compiled schema, with its root by name, compiles to the same schema apart from places,
which has the same text and decodes every payload alike. -/
theorem compile_text [Codecs] [Codecs.Canonical] {text : String} (h : compile text root = .ok s) :
    ∃ s', compile s.text (some s.rootStruct.name) = .ok s' ∧ s'.unplaced = s.unplaced ∧ s'.text = s.text ∧
      ∀ data offset size, s'.decode data offset size = s.decode data offset size := by
  have hwell := wellFormed_of_compile h
  obtain ⟨words, es, hw, hd, hsigs⟩ := declarations_text hwell (named_of_compile h)
  obtain ⟨_, ds, -, hd₀, hds⟩ := compile_eq_ok.1 h
  obtain ⟨hrep, hacc⟩ := represents_of_ofDeclarations (ne_nil_of_declarations hd₀) hds
  rw [← signatures_of_represents hrep] at hacc
  -- the printed text declares the same as the first one, which keeps to the rules
  have hacc' : Signature.Acceptable (es.map (·.signature)) (some s.rootStruct.name) := by
    rw [hsigs]
    refine ⟨hacc.distinct, hacc.known, hacc.acyclic, hacc.last, hacc.elements, ?_⟩
    rintro n ⟨⟩
    rw [names_of_signatures]
    exact List.mem_of_getElem? (getElem?_names hwell.root)
  obtain ⟨s', hs'⟩ := ofDeclarations_of_acceptable hacc'
  have hcompile : compile s.text (some s.rootStruct.name) = .ok s' := compile_eq_ok.2 ⟨words, es, hw, hd, hs'⟩
  obtain ⟨hrep', -⟩ := represents_of_ofDeclarations (ne_nil_of_declarations hd) hs'
  have hwell' := wellFormed_of_compile hcompile
  have hsig : s'.structs.map s'.signature = s.structs.map s.signature := (signatures_of_represents hrep').trans hsigs
  have hroot : s'.root = s.root := by
    rcases hrep'.root with ⟨hnone, -⟩ | ⟨n, hn, hat⟩
    · cases hnone
    · cases hn
      rw [← names_of_represents hrep', ← names_of_signatures, hsig, names_of_signatures, rootStruct,
        ← getElem?_names hwell.root] at hat
      have hlt : s.root < (s.structs.map (·.name)).length := by rw [List.length_map]; exact hwell.root
      exact ((List.getElem?_inj hlt hwell.names).1 hat.symm).symm
  have hunplaced := unplaced_of_signatures hwell hwell' hsig hroot
  refine ⟨s', hcompile, hunplaced, ?_, fun data offset size => ?_⟩
  · rw [← text_unplaced, hunplaced, text_unplaced]
  · rw [← decode_unplaced, hunplaced, decode_unplaced]

/-- Older names, figures with zeros in front, an encoding by another name, a forward reference, an empty
struct, and one that is called `struct`. -/
theorem compile_text_struct :
    ∃ s, compile ("struct struct { a: UINT16, b: U8[000] c: P[+] } " ++
        "struct P { x: NSTR<03, Utf_16LE>; e: E } struct E {}") (some "struct") = .ok s ∧
      s.text = "struct struct \x7b\n    a: U16\n    b: U8[0]\n    c: P[+]\n\x7d\n\n" ++
        "struct P \x7b\n    x: NSTR<3, utf-16-le>\n    e: E\n\x7d\n\nstruct E \x7b\n\x7d\n" ∧
      ∃ s', compile s.text (some s.rootStruct.name) = .ok s' ∧ s'.unplaced = s.unplaced ∧ s'.text = s.text ∧
        ∀ data offset size, s'.decode data offset size = s.decode data offset size := by
  have hsome : ((compile ("struct struct { a: UINT16, b: U8[000] c: P[+] } " ++
      "struct P { x: NSTR<03, Utf_16LE>; e: E } struct E {}") (some "struct")).toOption.map text) =
      some ("struct struct \x7b\n    a: U16\n    b: U8[0]\n    c: P[+]\n\x7d\n\n" ++
        "struct P \x7b\n    x: NSTR<3, utf-16-le>\n    e: E\n\x7d\n\nstruct E \x7b\n\x7d\n") := by
    decide +kernel
  obtain ⟨s, hs, htext⟩ := Option.map_eq_some_iff.1 hsome
  rw [except_toOption_eq_some] at hs
  exact ⟨s, hs, htext, compile_text hs⟩

end Schema

end BinRecord
