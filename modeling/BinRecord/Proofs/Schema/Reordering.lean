/-
The order of the declarations in a schema text makes no difference, as long as the root is named: the rules
of schemas look at what is declared and not where, and in two compiled schemas that say the same in another
order, structs with the same name have the same width and the same shape.
-/
import BinRecord.Proofs.Schema.RoundTrip

namespace BinRecord

/-! ## The rules -/

namespace Signature

variable {sigs sigs' : List Signature} {root : Option String}

theorem Mentions.mono (hsub : sigs ⊆ sigs') {a b : String} (h : Mentions sigs a b) : Mentions sigs' a b := by
  obtain ⟨d, hd, hrest⟩ := h
  exact ⟨d, hsub hd, hrest⟩

theorem Unbounded.mono (hsub : sigs ⊆ sigs') {t : FieldType String} (h : Unbounded sigs t) :
    Unbounded sigs' t := by
  induction h with
  | array b => exact .array b
  | struct hd hf _ ih => exact .struct (hsub hd) hf ih

/-- The fields of a struct have widths one by one, so the induction carries a statement for their list. -/
theorem HasWidth.mono (hsub : sigs ⊆ sigs') {t : FieldType String} {w : Nat} (h : HasWidth sigs t w) :
    HasWidth sigs' t w := by
  refine @HasWidth.rec sigs (fun t w _ => HasWidth sigs' t w)
    (fun fs ws _ => List.Forall₂ (fun f w => HasWidth sigs' f.2 w) fs ws) ?_ ?_ ?_ ?_ ?_ t w h
  · intro p
    exact .primitive p
  · intro d ws hd _ ih
    exact .struct (hsub hd) ih
  · intro b w length _ ih
    exact .array length ih
  · exact .nil
  · intro f w fs ws _ _ ihf ihfs
    exact .cons ihf ihfs

/-- Declarations in another order keep to the rules if they do in one. -/
theorem Acceptable.perm (h : Acceptable sigs root) (hperm : sigs'.Perm sigs) : Acceptable sigs' root := by
  have hnames := hperm.map (·.name)
  refine ⟨hnames.nodup_iff.2 h.distinct, fun d hd f hf n hn => ?_, fun n hn => ?_, fun d hd before f after he hu => ?_,
    fun d hd f hf ha => ?_, fun n hn => hnames.mem_iff.2 (h.root n hn)⟩
  · exact hnames.mem_iff.2 (h.known d (hperm.mem_iff.1 hd) f hf n hn)
  · exact h.acyclic n (Relation.TransGen.mono (fun _ _ => Mentions.mono hperm.subset) n n hn)
  · exact h.last d (hperm.mem_iff.1 hd) before f after he (hu.mono hperm.subset)
  · obtain ⟨hbounded, hwide⟩ := h.elements d (hperm.mem_iff.1 hd) f hf ha
    exact ⟨fun hu => hbounded (hu.mono hperm.subset), fun hw => hwide (hw.mono hperm.subset)⟩

end Signature

namespace Schema

variable {s s' : Schema}

/-! ## Structs by name -/

/-- Two schemas say the same, perhaps in another order. -/
structure Reordered (s s' : Schema) : Prop where
  wellFormed : s.WellFormed
  wellFormed' : s'.WellFormed
  signatures : (s'.structs.map s'.signature).Perm (s.structs.map s.signature)

/-- Places of the two tables at which structs with the same name stand. -/
structure SameName (s s' : Schema) (i i' : Nat) : Prop where
  lt : i < s.structs.length
  lt' : i' < s'.structs.length
  name : (s'.struct i').name = (s.struct i).name

/-- Structs with the same name say the same. -/
theorem Reordered.signature_eq (h : Reordered s s') {i i' : Nat} (hi : SameName s s' i i') :
    s'.signature (s'.struct i') = s.signature (s.struct i) := by
  have hmem : ∀ {s : Schema} {i : Nat}, i < s.structs.length →
      s.signature (s.struct i) ∈ s.structs.map s.signature := fun hi =>
    List.mem_map_of_mem (List.mem_of_getElem? (getElem?_structs hi))
  have hnodup : ((s.structs.map s.signature).map (·.name)).Nodup := by
    rw [names_of_signatures]
    exact h.wellFormed.names
  exact List.inj_on_of_nodup_map hnodup (h.signatures.mem_iff.1 (hmem hi.lt')) (hmem hi.lt) hi.name

/-- Fields of the two schemas with the same name and arity, whose elements have the same width and shape. -/
structure FieldsAgree (s s' : Schema) (f f' : Field) : Prop where
  name : f'.name = f.name
  arity : f'.type.arity = f.type.arity
  width : s'.baseWidth f'.type.base = s.baseWidth f.type.base
  shape : s'.baseShape f'.type.base = s.baseShape f.type.base

/-- Structs with the same name have the same width and shape. -/
structure Agrees (s s' : Schema) (i i' : Nat) : Prop where
  width : (s'.struct i').width = (s.struct i).width
  shape : s'.shapeAt i' = s.shapeAt i

theorem fieldsAgree_of_written {f f' : Field} (hwritten : s'.writtenField f' = s.writtenField f)
    (htarget : ∀ j j', f.type.base = .struct j → f'.type.base = .struct j' → (s'.struct j').name = (s.struct j).name →
      Agrees s s' j j') : FieldsAgree s s' f f' := by
  obtain ⟨name, ⟨base, arity⟩, position⟩ := f
  obtain ⟨name', ⟨base', arity'⟩, position'⟩ := f'
  simp only [writtenField, Prod.mk.injEq, FieldType.mk.injEq] at hwritten
  obtain ⟨hname, hbase, harity⟩ := hwritten
  suffices s'.baseWidth base' = s.baseWidth base ∧ s'.baseShape base' = s.baseShape base from
    ⟨hname, harity, this.1, this.2⟩
  cases base with
  | primitive p =>
    cases base' with
    | primitive p' =>
      obtain rfl : p' = p := BaseType.primitive.inj hbase
      exact ⟨rfl, rfl⟩
    | struct j' => cases hbase
  | struct j =>
    cases base' with
    | primitive p' => cases hbase
    | struct j' =>
      have hagree := htarget j j' rfl rfl (BaseType.struct.inj hbase)
      exact ⟨hagree.width, hagree.shape⟩

/-- A struct takes its width and its shape from its fields. -/
theorem Reordered.agrees_of_fields (h : Reordered s s') {i i' : Nat}
    (hfields : List.Forall₂ (FieldsAgree s s') (s.struct i).fields (s'.struct i').fields) : Agrees s s' i i' := by
  have hwidth : (s'.struct i').width = (s.struct i).width := by
    have hfits : Fits s'.baseWidth ((s'.struct i').fields.map (·.type)) (s.struct i).width := by
      refine (h.wellFormed.fits i).congr ?_
      rw [List.forall₂_map_left_iff, List.forall₂_map_right_iff]
      exact hfields.imp fun f f' hf => ⟨hf.arity, hf.width⟩
    rw [(h.wellFormed'.fits i').total_eq, hfits.total_eq]
  refine ⟨hwidth, ?_⟩
  rw [h.wellFormed'.shapeAt_eq, h.wellFormed.shapeAt_eq, hwidth]
  refine congrArg (Shape.struct _) ?_
  rw [← List.forall₂_eq_eq_eq, List.forall₂_map_left_iff, List.forall₂_map_right_iff]
  refine hfields.flip.imp fun f' f hf => ?_
  rw [fieldShape, fieldShape, hf.name, hf.arity, hf.shape]

/-- Structs with the same name agree, by induction along the references between the structs of one table. -/
theorem Reordered.agrees (h : Reordered s s') {i i' : Nat} (hi : SameName s s' i i') : Agrees s s' i i' := by
  refine h.wellFormed.induction (P := fun i => ∀ i', SameName s s' i i' → Agrees s s' i i')
    (fun i ih i' hi => ?_) i i' hi
  have hsame : (s'.struct i').fields.map s'.writtenField = (s.struct i).fields.map s.writtenField :=
    congrArg Signature.fields (h.signature_eq hi)
  rw [← List.forall₂_eq_eq_eq, List.forall₂_map_left_iff, List.forall₂_map_right_iff] at hsame
  refine h.agrees_of_fields ((forall₂_mem hsame.flip).imp fun f f' ⟨⟨hf, hf'⟩, hwritten⟩ => ?_)
  refine fieldsAgree_of_written hwritten fun j j' hj hj' hname => ?_
  exact ih f hf j hj j' ⟨h.wellFormed.target i f hf j hj, h.wellFormed'.target i' f' hf' j' hj', hname⟩

/-! ## From text -/

/-- What two schemas have in common that differ in the order of their structs only. -/
structure Alike [Codecs] (s s' : Schema) : Prop where
  names : (s'.structs.map (·.name)).Perm (s.structs.map (·.name))
  width : ∀ d ∈ s.structs, ∀ d' ∈ s'.structs, d'.name = d.name → d'.width = d.width
  decode : ∀ data offset size, s'.decode data offset size = s.decode data offset size

theorem Reordered.alike [Codecs] (h : Reordered s s') (hroot : s'.rootStruct.name = s.rootStruct.name) :
    Alike s s' := by
  refine ⟨?_, fun d hd d' hd' hname => ?_, fun data offset size => ?_⟩
  · rw [← names_of_signatures, ← names_of_signatures s]
    exact h.signatures.map _
  · obtain ⟨i, hi, rfl⟩ := mem_structs_iff.1 hd
    obtain ⟨i', hi', rfl⟩ := mem_structs_iff.1 hd'
    exact (h.agrees ⟨hi, hi', hname⟩).width
  · have hshape : s'.shape = s.shape := (h.agrees ⟨h.wellFormed.root, h.wellFormed'.root, hroot⟩).shape
    unfold Schema.decode readAt
    rw [hshape, hroot]

theorem rootStruct_of_represents {ds : List (Declaration String)} {n : String} (h : Represents ds (some n) s) :
    s.rootStruct.name = n := by
  rcases h.root with ⟨hnone, -⟩ | ⟨m, hm, hat⟩
  · cases hnone
  · cases hm
    rw [← names_of_represents h, List.getElem?_map] at hat
    obtain ⟨d, hd, hname⟩ := Option.map_eq_some_iff.1 hat
    rw [rootStruct, struct_eq_of_getElem? hd, hname]

theorem reordered_of_represents {ds ds' : List (Declaration String)} {root : Option String} (hwell : s.WellFormed)
    (hwell' : s'.WellFormed) (h : Represents ds root s) (h' : Represents ds' root s')
    (hperm : (ds'.map (·.signature)).Perm (ds.map (·.signature))) : Reordered s s' := by
  refine ⟨hwell, hwell', ?_⟩
  rwa [signatures_of_represents h, signatures_of_represents h']

/-- Of two texts that declare the same structs in different orders, both compile or none, and what they compile to
with the same root has the same widths and decodes every payload alike. -/
theorem compile_reordered [Codecs] {text text' : String} {words words' : TokenList} {ds ds' : List (Declaration String)}
    (hw : Token.scan text = .ok words) (hd : words.declarations = .ok ds) (hw' : Token.scan text' = .ok words')
    (hd' : words'.declarations = .ok ds') (hperm : (ds'.map (·.signature)).Perm (ds.map (·.signature)))
    (root : String) :
    ((∃ s, compile text (some root) = .ok s) ↔ ∃ s', compile text' (some root) = .ok s') ∧
      ∀ s s', compile text (some root) = .ok s → compile text' (some root) = .ok s' → Alike s s' := by
  have hcompile : ∀ {s}, compile text (some root) = .ok s ↔ ofDeclarations ds (some root) = .ok s :=
    compile_of_declarations hw hd
  have hcompile' : ∀ {s}, compile text' (some root) = .ok s ↔ ofDeclarations ds' (some root) = .ok s :=
    compile_of_declarations hw' hd'
  have hne := ne_nil_of_declarations hd
  have hne' := ne_nil_of_declarations hd'
  refine ⟨⟨?_, ?_⟩, fun s s' hs hs' => ?_⟩
  · rintro ⟨s, hs⟩
    obtain ⟨-, hacc⟩ := represents_of_ofDeclarations hne (hcompile.1 hs)
    obtain ⟨s', hs'⟩ := ofDeclarations_of_acceptable (hacc.perm hperm)
    exact ⟨s', hcompile'.2 hs'⟩
  · rintro ⟨s', hs'⟩
    obtain ⟨-, hacc⟩ := represents_of_ofDeclarations hne' (hcompile'.1 hs')
    obtain ⟨s, hs⟩ := ofDeclarations_of_acceptable (hacc.perm hperm.symm)
    exact ⟨s, hcompile.2 hs⟩
  · obtain ⟨hrep, -⟩ := represents_of_ofDeclarations hne (hcompile.1 hs)
    obtain ⟨hrep', -⟩ := represents_of_ofDeclarations hne' (hcompile'.1 hs')
    have hreordered := reordered_of_represents (wellFormed_of_compile hs) (wellFormed_of_compile hs') hrep hrep' hperm
    refine hreordered.alike ?_
    rw [rootStruct_of_represents hrep, rootStruct_of_represents hrep']

/-- Two structs, the one that refers to the other before and after it. -/
theorem compile_reordered_swapped : ∃ words words' ds ds',
    Token.scan "struct A \x7b n: U8 rest: B[+] \x7d struct B \x7b x: U16LE \x7d" = .ok words ∧
    words.declarations = .ok ds ∧
    Token.scan "struct B \x7b x: U16LE \x7d\nstruct A \x7b n: U8, rest: B[+] \x7d" = .ok words' ∧
    words'.declarations = .ok ds' ∧
    (ds'.map (·.signature)).Perm (ds.map (·.signature)) ∧
    ((∃ s, compile "struct A \x7b n: U8 rest: B[+] \x7d struct B \x7b x: U16LE \x7d" (some "A") = .ok s) ↔
      ∃ s', compile "struct B \x7b x: U16LE \x7d\nstruct A \x7b n: U8, rest: B[+] \x7d" (some "A") = .ok s') ∧
    ∀ s s', compile "struct A \x7b n: U8 rest: B[+] \x7d struct B \x7b x: U16LE \x7d" (some "A") = .ok s →
      compile "struct B \x7b x: U16LE \x7d\nstruct A \x7b n: U8, rest: B[+] \x7d" (some "A") = .ok s' → Alike s s' := by
  have hsome : ((Token.scan "struct A \x7b n: U8 rest: B[+] \x7d struct B \x7b x: U16LE \x7d").toOption.bind
      (·.declarations.toOption)).map (·.map (·.signature)) =
      some [⟨"A", [("n", ⟨.primitive (.unsigned .one .big), .single⟩), ("rest", ⟨.struct "B", .toEnd⟩)]⟩,
        ⟨"B", [("x", ⟨.primitive (.unsigned .two .little), .single⟩)]⟩] := by decide +kernel
  have hsome' : ((Token.scan "struct B \x7b x: U16LE \x7d\nstruct A \x7b n: U8, rest: B[+] \x7d").toOption.bind
      (·.declarations.toOption)).map (·.map (·.signature)) =
      some [⟨"B", [("x", ⟨.primitive (.unsigned .two .little), .single⟩)]⟩,
        ⟨"A", [("n", ⟨.primitive (.unsigned .one .big), .single⟩), ("rest", ⟨.struct "B", .toEnd⟩)]⟩] := by
    decide +kernel
  obtain ⟨ds, hds, hsigs⟩ := Option.map_eq_some_iff.1 hsome
  obtain ⟨words, hw, hd⟩ := Option.bind_eq_some_iff.1 hds
  obtain ⟨ds', hds', hsigs'⟩ := Option.map_eq_some_iff.1 hsome'
  obtain ⟨words', hw', hd'⟩ := Option.bind_eq_some_iff.1 hds'
  rw [except_toOption_eq_some] at hw hd hw' hd'
  have hperm : (ds'.map (·.signature)).Perm (ds.map (·.signature)) := by
    rw [hsigs, hsigs']
    exact List.Perm.swap ..
  exact ⟨words, words', ds, ds', hw, hd, hw', hd', hperm, compile_reordered hw hd hw' hd' hperm "A"⟩

end Schema

end BinRecord
