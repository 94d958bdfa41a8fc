/-
Which word a schema error blames. A fault of the scanner lies at the first character with which nothing starts, and
missing words at the end of the text. Every other fault but that of an unknown root lies at one word, and for a broken
rule this is the word that breaks it: a name that is declared again, the name of the type that is unknown, in a cycle or
unbounded, or the bracket of an array of empty elements.
-/
import BinRecord.Proofs.Schema.Cycle
import BinRecord.Proofs.Schema.Division
import BinRecord.Proofs.Schema.Location

namespace BinRecord.Schema

open References

/-! ## Broken rules -/

/-- How declarations break the rules of schemas, by the word that breaks one and what is reported. -/
inductive BreaksRule (ds : List (Declaration String)) : Token → SchemaFault → Prop
  | duplicateStruct {before after : List (Declaration String)} {d first : Declaration String} :
      ds = before ++ d :: after → first ∈ before → first.name = d.name →
      BreaksRule ds ⟨.name d.name, d.position⟩ (.duplicateStruct d.name first.position)
  | unknownType {d : Declaration String} {f : FieldDeclaration String} {n : String} : d ∈ ds → f ∈ d.fields →
      f.type.base = .struct n → n ∉ ds.map (·.name) → BreaksRule ds ⟨.name n, f.typePosition⟩ (.unknownType n)
  | cycle {d : Declaration String} {f : FieldDeclaration String} {first : String} {others : List String} :
      (first :: others).Nodup →
      (first :: others ++ [first]).IsChain (Signature.Mentions (ds.map (·.signature))) → d ∈ ds →
      (first :: others).getLast? = some d.name → f ∈ d.fields → f.type.base = .struct first →
      BreaksRule ds ⟨.name first, f.typePosition⟩ (.cycle (first :: others ++ [first]))
  | unboundedElement {d : Declaration String} {f : FieldDeclaration String} {n : String} : d ∈ ds → f ∈ d.fields →
      f.type.arity ≠ .single → f.type.base = .struct n →
      Signature.Unbounded (ds.map (·.signature)) ⟨.struct n, .single⟩ →
      BreaksRule ds ⟨.name n, f.typePosition⟩ (.unboundedElement f.name)
  | emptyElement {d : Declaration String} {f : FieldDeclaration String} {b : TextPosition} : d ∈ ds → f ∈ d.fields →
      f.type.arity ≠ .single → f.bracket = some b →
      Signature.HasWidth (ds.map (·.signature)) ⟨f.type.base, .single⟩ 0 →
      BreaksRule ds ⟨.mark '[', b⟩ (.emptyElement f.name)
  | fieldAfterUnbounded {d : Declaration String} {before after : List (FieldDeclaration String)}
      {f g : FieldDeclaration String} : d ∈ ds → d.fields = before ++ f :: g :: after →
      Signature.Unbounded (ds.map (·.signature)) f.type →
      BreaksRule ds ⟨.name g.name, g.position⟩ (.fieldAfterUnbounded g.name f.name d.name)

variable {ds : List (Declaration String)} {rs : List (Declaration Nat)} {done : List Nat} {root : Option String}
  {e : SchemaError} {ts : List Token}

theorem checkNames_eq_error {before : List (Declaration String)} (h : checkNames before ds = .error e) :
    ∃ passed d after first, ds = passed ++ d :: after ∧ first ∈ before ++ passed ∧ first.name = d.name ∧
      e = ⟨.duplicateStruct d.name first.position, some d.position, none⟩ := by
  induction ds generalizing before with
  | nil => cases h
  | cons d ds ih =>
    rw [checkNames] at h
    split at h
    · rename_i first hfirst
      cases h
      refine ⟨[], d, ds, first, rfl, ?_, by simpa using List.find?_some hfirst, rfl⟩
      rw [List.append_nil]
      exact List.mem_of_find?_eq_some hfirst
    · obtain ⟨passed, d', after, first, rfl, hmem, hname, rfl⟩ := ih h
      exact ⟨d :: passed, d', after, first, rfl, by simpa using hmem, hname, rfl⟩

theorem resolve_eq_error {names : List String} {d : Declaration String} (h : resolve names d = .error e) :
    ∃ f ∈ d.fields, ∃ n, f.type.base = .struct n ∧ n ∉ names ∧ e = ⟨.unknownType n, some f.typePosition, none⟩ := by
  unfold resolve at h
  rcases except_bind_eq_error.1 h with hfields | ⟨fs, -, h⟩
  · obtain ⟨f, hf, hfield⟩ := exists_of_mapM_eq_error hfields
    refine ⟨f, hf, ?_⟩
    unfold resolveField at hfield
    rcases except_bind_eq_error.1 hfield with hbase | ⟨b, -, hb⟩
    · unfold resolveBase at hbase
      split at hbase
      · cases hbase
      · rename_i n hn
        split at hbase
        · cases hbase
        · rename_i hno
          cases hbase
          exact ⟨n, hn, List.idxOf?_eq_none_iff.1 hno, rfl⟩
    · cases hb
  · cases h

/-- A width of elements that is known is the one of the rules. -/
theorem describes_of_baseWidth (hr : Resolved ds rs done) {b : BaseType String} {c : BaseType Nat}
    (hbc : BaseResolves (ds.map (·.name)) b c) {w : Option Nat}
    (hw : declaredBaseWidth (finalWidths rs done) c = .ok w) :
    Signature.Describes (ds.map (·.signature)) ⟨b, .single⟩ w := by
  cases hbc with
  | primitive p =>
    cases hw
    exact Signature.describes_primitive p
  | struct hi =>
    rw [List.getElem?_map, Option.map_eq_some_iff] at hi
    obtain ⟨d, hd, rfl⟩ := hi
    obtain ⟨e, he, -⟩ := forall₂_getElem? hr.resolves hd
    rw [declaredBaseWidth, finalWidths_eq hr he, Option.getD_some] at hw
    exact describes_of_finalWidths hr hd (by rw [finalWidths_eq hr he, hw])

/-- A field without a width has an unbounded type. -/
theorem unbounded_of_fieldWidth (hr : Resolved ds rs done) {f : FieldDeclaration String} {g : FieldDeclaration Nat}
    (hfg : FieldResolves (ds.map (·.name)) f g) (hw : fieldWidth (finalWidths rs done) g = .ok none) :
    Signature.Unbounded (ds.map (·.signature)) f.type := by
  obtain ⟨u, hu, -⟩ := except_bind_eq_ok.1 hw
  -- the elements of the field have this width, however they are called
  let placed : BaseType Nat → Option Nat := fun _ => u
  let written : BaseType String → Option Nat := fun _ => u
  have hbase : declaredBaseWidth (finalWidths rs done) g.type.base = .ok (placed g.type.base) := hu
  have hdescribes : Signature.Describes (ds.map (·.signature)) ⟨f.type.base, .single⟩ (written f.type.base) :=
    describes_of_baseWidth hr hfg.base hu
  obtain ⟨hfits, hwidth⟩ := (fieldWidth_eq_ok hbase).1 hw
  have hdesc := Signature.describes_type (fun hne => hfits (hfg.arity ▸ hne)) hdescribes
  refine hdesc.none_iff.1 ?_
  rw [← hwidth, FieldType.width, FieldType.width, hfg.arity]

/-- The word that a broken rule of widths is reported at breaks it. -/
theorem breaksRule_of_breaksWidths [Codecs] (hr : Resolved ds rs done) (hwords : Grammar.Structs Text.Readable ts ds)
    {r : Declaration Nat} (hmem : r ∈ rs) (h : BreaksWidths (finalWidths rs done) r.name r.fields e) :
    ∃ t ∈ ts, BreaksRule ds t e.fault ∧ e.position = some t.position := by
  obtain ⟨d, hd, hdr⟩ := forall₂_right hr.resolves r hmem
  have hplaces := (hwords.places d hd).2.2
  cases h with
  | @element g hg harity hbase =>
    obtain ⟨f, hf, hfg⟩ := forall₂_right hdr.fields g hg
    have hunbounded := (describes_of_baseWidth hr hfg.base hbase).none_iff.1 rfl
    rw [hfg.arity] at harity
    rw [hfg.name, hfg.typePosition]
    cases hb : f.type.base with
    | primitive p =>
      rw [hb] at hunbounded
      cases hunbounded
    | struct n =>
      rw [hb] at hunbounded
      exact ⟨_, (hplaces f hf).type n hb, .unboundedElement hd hf harity hb hunbounded, rfl⟩
  | @empty g hg harity hbase =>
    obtain ⟨f, hf, hfg⟩ := forall₂_right hdr.fields g hg
    have hwidth := ((describes_of_baseWidth hr hfg.base hbase).some_iff 0).1 rfl
    rw [hfg.arity] at harity
    obtain ⟨b, hb, hmem⟩ := (hplaces f hf).bracket harity
    rw [hfg.name, hfg.bracket]
    exact ⟨_, hmem, .emptyElement hd hf harity hb hwidth, hb⟩
  | after before after g g' hfs hwidth =>
    have hall := hdr.fields
    rw [hfs] at hall
    obtain ⟨f, fs, hfg, hfs', hdrop⟩ := List.forall₂_cons_right_iff.1 (List.forall₂_drop_append _ _ _ hall)
    obtain ⟨f', after', hfg', -, rfl⟩ := List.forall₂_cons_right_iff.1 hfs'
    have hsplit : d.fields = d.fields.take before.length ++ f :: f' :: after' := by
      rw [← hdrop, List.take_append_drop]
    have hf' : f' ∈ d.fields := by rw [hsplit]; simp
    rw [hfg.name, hfg'.name, hfg'.position, hdr.name]
    exact ⟨_, (hplaces f' hf').name, .fieldAfterUnbounded hd hsplit (unbounded_of_fieldWidth hr hfg hwidth), rfl⟩

/-- Declarations are refused for a root that is not declared, or at a word that breaks a rule. -/
theorem breaksRule_of_ofDeclarations [Codecs] (hwords : Grammar.Structs Text.Readable ts ds)
    (h : ofDeclarations ds root = .error e) :
    (∃ name, root = some name ∧ name ∉ ds.map (·.name) ∧ e = ⟨.unknownRoot name, none, none⟩) ∨
      ∃ t ∈ ts, BreaksRule ds t e.fault ∧ e.position = some t.position := by
  have hchain := h
  unfold ofDeclarations at hchain
  rcases except_bind_eq_error.1 hchain with hnames | ⟨_, hnames, hchain⟩
  · obtain ⟨before, d, after, first, hds, hmem, hname, rfl⟩ := checkNames_eq_error hnames
    have hd : d ∈ ds := by rw [hds]; simp
    exact .inr ⟨_, (hwords.places d hd).1, .duplicateStruct hds (by simpa using hmem) hname, rfl⟩
  have hn := (checkNames_eq_ok.1 hnames).2
  rcases except_bind_eq_error.1 hchain with hresolve | ⟨rs, hrs, -⟩
  · obtain ⟨d, hd, hresolve⟩ := exists_of_mapM_eq_error hresolve
    obtain ⟨f, hf, n, hbase, hno, rfl⟩ := resolve_eq_error hresolve
    exact .inr ⟨_, ((hwords.places d hd).2.2 f hf).type n hbase, .unknownType hd hf hbase hno, rfl⟩
  replace hrs := (except_mapM_eq_ok.1 hrs).imp fun d r hdr => (resolve_eq_ok hn).1 hdr
  rcases ordered_or_reportsCycle hn hrs with ⟨done, hr, horder⟩ | ⟨e', first, others, horder, hreport⟩
  · rcases breaks_of_resolved hr horder h with ⟨r, hmem, hbreaks⟩ | hroot
    · exact .inr (breaksRule_of_breaksWidths hr hwords hmem hbreaks)
    · exact .inl hroot
  · have he : ofDeclarations ds root = .error e' := (ofDeclarations_eq_error hn hrs).2 (.inl horder)
    rw [h, Except.error.injEq] at he
    subst he
    obtain ⟨d, hd, hlast, f, hf, hbase, hposition⟩ := hreport.closing
    rw [hreport.fault]
    exact .inr ⟨_, ((hwords.places d hd).2.2 f hf).type first hbase, .cycle hreport.distinct hreport.mention hd
      hlast hf hbase, hposition⟩

theorem BreaksRule.kind_ne {t : Token} {x : SchemaFault} (h : BreaksRule ds t x) :
    x.isUnexpected = false ∧ x.kind ≠ .unexpectedEnd := by
  cases h <;> exact ⟨rfl, by simp [SchemaFault.kind]⟩

/-! ## From text -/

variable {text : String}

theorem compile_eq_error [Codecs] (h : compile text root = .error (.error e)) :
    Token.scan text = .error e ∨ ∃ words, Token.scan text = .ok words ∧
      (words.declarations = .error (.error e) ∨
        ∃ ds, words.declarations = .ok ds ∧ ofDeclarations ds root = .error e) := by
  unfold compile at h
  simp only [except_bind_eq_error, except_mapError_eq_error, except_mapError_eq_ok, Failure.error.injEq,
    exists_eq_right] at h
  exact h

theorem exists_scan_of_compile [Codecs] (h : compile text root = .error (.error e))
    (hkind : e.fault.kind ≠ .unknownToken) :
    ∃ words, Token.scan text = .ok words := by
  rcases compile_eq_error h with hscan | ⟨words, hscan, -⟩
  · have hscanned := Token.scanned_scan text
    rw [hscan] at hscanned
    cases hscanned
    exact absurd rfl hkind
  · exact ⟨words, hscan⟩

/-- How a word of a text is to blame for a fault: it may not stand where it does or says what there is not, it names a
field that has the name of one before it in its struct, or it breaks a rule. -/
inductive ToBlame [Codecs] (words : TokenList) : Token → SchemaFault → Prop
  | word {t : Token} {x : SchemaFault} : x.kind = .unexpectedToken ∨ x.kind = .malformedLiteral → ToBlame words t x
  | duplicateField {before us ws after : List Token} {x : String} {fs : List (FieldDeclaration String)}
      {f g : FieldDeclaration String} (p q r : TextPosition) :
      words.tokens = before ++
        (⟨.name "struct", p⟩ :: ⟨.name x, q⟩ :: ⟨.mark '\x7b', r⟩ :: (us ++ (ws ++ after))) →
      Grammar.Fields Text.Readable us fs → Grammar.Field Text.Readable ws f → g ∈ fs → g.name = f.name →
      ToBlame words ⟨.name f.name, f.position⟩ (.duplicateField f.name x g.position)
  | rule {ds : List (Declaration String)} {t : Token} {x : SchemaFault} : words.declarations = .ok ds →
      BreaksRule ds t x → ToBlame words t x

theorem kind_of_isUnexpected {x : SchemaFault} (h : x.isUnexpected = true) :
    x.kind = .unexpectedToken ∨ x.kind = .malformedLiteral := by
  refine (SchemaFault.isUnexpected_iff.1 h).imp_right ?_
  rintro ⟨expected, found, rfl⟩
  rfl

/-- A fault in the words lies at the end of the text, when words are missing, or at the word that is to blame. -/
theorem toBlame_of_syntaxError [Codecs] {words : TokenList} (h : SyntaxError words e) :
    ((e.fault.kind = .unexpectedEnd ∨ e.fault.kind = .emptySchema) ∧ e.position = some words.finish) ∨
      ∃ t ∈ words.tokens, ToBlame words t e.fault ∧ e.position = some t.position := by
  cases h with
  | wrong hts _ _ hx => exact .inr ⟨_, by rw [hts]; simp, .word (kind_of_isUnexpected hx), rfl⟩
  | ended => exact .inl ⟨.inl rfl, rfl⟩
  | malformed ht hx => exact .inr ⟨_, ht, .word (.inr hx), rfl⟩
  | @repeated _ _ _ _ _ _ f _ p q r hts hfs hf hg hname =>
    have hmem : ⟨.name f.name, f.position⟩ ∈ words.tokens := by
      have := hf.places.name
      rw [hts]
      simp [this]
    exact .inr ⟨_, hmem, .duplicateField p q r hts hfs hf hg hname, rfl⟩
  | empty => exact .inl ⟨.inr rfl, rfl⟩

/-- Every schema error but that of an unknown root lies in the text: at the first character with which nothing starts,
at the end of the text, or at the word that is to blame. -/
theorem compile_blames [Codecs] (h : compile text root = .error (.error e)) :
    (∃ name, root = some name ∧ e.fault = .unknownRoot name ∧ e.position = none) ∨
    (∃ c i p ts, e.fault = .unknownToken c ∧ e.position = some p ∧ p.LiesAt text.toList i 1 ∧
      p.marked text.toList = [c] ∧ Divides text.toList i 0 ts ∧ StartsNothing c) ∨
    ∃ words, Token.scan text = .ok words ∧
      ((e.fault.kind = .unexpectedEnd ∨ e.fault.kind = .emptySchema) ∧ e.position = some words.finish ∧
          words.finish.LiesAt text.toList text.toList.length 1 ∧ words.finish.marked text.toList = [] ∨
        ∃ t ∈ words.tokens, ToBlame words t e.fault ∧ e.position = some t.position ∧ t.StandsIn text.toList) := by
  rcases compile_eq_error h with hscan | ⟨words, hscan, h⟩
  · have hscanned := Token.scanned_scan text
    rw [hscan] at hscanned
    cases hscanned with
    | error hts hc hnothing hp =>
      refine .inr (.inl ⟨_, _, _, _, rfl, rfl, hp, ?_, hts, hnothing⟩)
      rw [hp.marked_eq, List.extract, Nat.add_sub_cancel_left, List.take_one, List.head?_drop, hc]
      rfl
  obtain ⟨hts, hfinish⟩ := Token.divides_of_scan hscan
  rcases h with h | ⟨ds, hds, h⟩
  · refine .inr (.inr ⟨words, hscan, ?_⟩)
    rcases toBlame_of_syntaxError (TokenList.declarations_eq_error h) with ⟨hkind, hposition⟩ | ⟨t, ht, hblames, hposition⟩
    · refine .inl ⟨hkind, hposition, hfinish, ?_⟩
      rw [hfinish.marked_eq, List.extract, List.drop_length, List.take_nil]
    · exact .inr ⟨t, ht, hblames, hposition, hts.standsIn t ht⟩
  · obtain ⟨-, hwords⟩ := TokenList.declarations_eq_ok.1 hds
    rcases breaksRule_of_ofDeclarations hwords h with ⟨name, hname, -, rfl⟩ | ⟨t, ht, hbreaks, hposition⟩
    · exact .inl ⟨name, hname, rfl, rfl⟩
    · exact .inr (.inr ⟨words, hscan, .inr ⟨t, ht, .rule hds hbreaks, hposition, hts.standsIn t ht⟩⟩)

/-- An unknown type in the second line. -/
theorem compile_blames_unknown : ∃ words, Token.scan "struct A \x7b x: U8\n y: Foo \x7d" = .ok words ∧
    ∃ t ∈ words.tokens, ToBlame words t (.unknownType "Foo") ∧ t.position = ⟨2, 5, 21, 3⟩ ∧
      t.StandsIn "struct A \x7b x: U8\n y: Foo \x7d".toList := by
  have herror : compile "struct A \x7b x: U8\n y: Foo \x7d" none =
      .error (.error ⟨.unknownType "Foo", some ⟨2, 5, 21, 3⟩, none⟩) := by decide +kernel
  rcases compile_blames herror with ⟨name, hname, -⟩ | ⟨c, i, p, ts, hfault, -⟩ | ⟨words, hscan, ⟨hkind, -⟩ | hword⟩
  · cases hname
  · cases hfault
  · rcases hkind with hkind | hkind <;> cases hkind
  · obtain ⟨t, ht, hblames, hposition, hstands⟩ := hword
    exact ⟨words, hscan, t, ht, hblames, (Option.some.inj hposition).symm, hstands⟩

/-- The word that is reported where it may not stand is the first such word: what stands before it can be completed to a
schema, and with it it cannot. When words are missing at the end, all words can be completed, but are no schema. -/
theorem compile_blames_first [Codecs] {words : TokenList} (hscan : Token.scan text = .ok words)
    (h : compile text root = .error (.error e)) :
    (e.fault.kind = .unexpectedToken ∨ (∃ expected found, e.fault = .notFigures expected found) →
      ∃ before t after, words.tokens = before ++ t :: after ∧ e.position = some t.position ∧
        (∃ rest, Form.Sentence (before.map (·.lexeme) ++ rest)) ∧
        ∀ rest, ¬ Form.Sentence (before.map (·.lexeme) ++ t.lexeme :: rest)) ∧
    (e.fault.kind = .unexpectedEnd →
      (∃ rest, rest ≠ [] ∧ Form.Sentence (words.tokens.map (·.lexeme) ++ rest)) ∧
        ¬ Form.Sentence (words.tokens.map (·.lexeme))) := by
  rw [← SchemaFault.isUnexpected_iff]
  rcases compile_eq_error h with hno | ⟨words', hscan', h⟩
  · rw [hscan] at hno
    cases hno
  rw [hscan, Except.ok.injEq] at hscan'
  subst hscan'
  rcases h with h | ⟨ds, hds, h⟩
  · cases TokenList.declarations_eq_error h with
    | wrong hts hq hnext hx =>
      refine ⟨fun _ => ⟨_, _, _, hts, rfl, Stage.exists_sentence hq, Stage.not_sentence_of_next hq hnext⟩, fun hkind => ?_⟩
      rcases kind_of_isUnexpected hx with hx | hx <;> simp [hx] at hkind
    | ended expected hq hopen =>
      have hno := Stage.not_sentence_of_ne_closed hq hopen
      obtain ⟨rest, hrest⟩ := Stage.exists_sentence hq
      refine ⟨fun hx => absurd hx (by simp [SchemaFault.isUnexpected]), fun _ => ⟨⟨rest, ?_, hrest⟩, hno⟩⟩
      rintro rfl
      rw [List.append_nil] at hrest
      exact hno hrest
    | malformed _ hkind hx => simp [hx, hkind]
    | repeated => simp [SchemaFault.isUnexpected, SchemaFault.kind]
    | empty => simp [SchemaFault.isUnexpected, SchemaFault.kind]
  · obtain ⟨-, hwords⟩ := TokenList.declarations_eq_ok.1 hds
    rcases breaksRule_of_ofDeclarations hwords h with ⟨name, -, -, rfl⟩ | ⟨t, -, hbreaks, -⟩
    · simp [SchemaFault.isUnexpected, SchemaFault.kind]
    · simp [hbreaks.kind_ne]

/-- A colon that is missing before a type, and a brace that is missing at the end. -/
theorem compile_blames_first_missing :
    (∃ words before t after, Token.scan "struct A \x7b x U8 \x7d" = .ok words ∧ words.tokens = before ++ t :: after ∧
      t.position = ⟨1, 14, 13, 2⟩ ∧ (∃ rest, Form.Sentence (before.map (·.lexeme) ++ rest)) ∧
      ∀ rest, ¬ Form.Sentence (before.map (·.lexeme) ++ t.lexeme :: rest)) ∧
    ∃ words, Token.scan "struct A \x7b x: U8" = .ok words ∧
      (∃ rest, rest ≠ [] ∧ Form.Sentence (words.tokens.map (·.lexeme) ++ rest)) ∧
        ¬ Form.Sentence (words.tokens.map (·.lexeme)) := by
  have hcolon : compile "struct A \x7b x U8 \x7d" none =
      .error (.error ⟨.unexpectedToken (.mark ':') "U8", some ⟨1, 14, 13, 2⟩, none⟩) := by decide +kernel
  have hbrace : compile "struct A \x7b x: U8" none =
      .error (.error ⟨.unexpectedEnd .fieldName, some ⟨1, 17, 16, 1⟩, none⟩) := by decide +kernel
  constructor
  · obtain ⟨words, hscan⟩ := exists_scan_of_compile hcolon (by decide)
    obtain ⟨before, t, after, hts, hposition, hrest⟩ := (compile_blames_first hscan hcolon).1 (.inl rfl)
    exact ⟨words, before, t, after, hscan, hts, (Option.some.inj hposition).symm, hrest⟩
  · obtain ⟨words, hscan⟩ := exists_scan_of_compile hbrace (by decide)
    exact ⟨words, hscan, (compile_blames_first hscan hbrace).2 rfl⟩

end BinRecord.Schema
