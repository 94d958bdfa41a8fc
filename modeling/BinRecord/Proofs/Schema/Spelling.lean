/-
The text of a schema, word by word: which words it is made of, and that they are those of declarations
that say what the schema says. Numbers are read back from their figures, and each type from its keyword.
-/
import BinRecord.Proofs.Schema.Scan
import BinRecord.Proofs.Schema.WellFormed
import BinRecord.Proofs.Text.Integer
import BinRecord.Text.StandardCodecs

namespace BinRecord

/-! ## Numbers and keywords -/

@[simp] theorem toString_string (x : String) : toString x = x := rfl

theorem toList_intercalate_cons (sep x : String) (xs : List String) :
    (sep.intercalate (x :: xs)).toList = x.toList ++ xs.flatMap fun y => sep.toList ++ y.toList := by
  induction xs generalizing x with
  | nil => simp
  | cons y ys ih =>
    rw [String.intercalate_cons_cons, String.toList_append, String.toList_append, ih, List.flatMap_cons]
    simp

/-- The width of a type that is given in angle brackets. -/
def Primitive.givenWidth? : Primitive → Option Width
  | .text w _ | .bytes w | .padding w => some w
  | .unsigned .. | .signed .. | .float .. => none

/-- The words of a type with its width in angle brackets, and perhaps an encoding. -/
def sizedWords (keyword : String) (w : Width) (encoding : List Lexeme) : List Lexeme :=
  .name keyword :: .mark '<' :: .figures w.1.repr :: (encoding ++ [.mark '>'])

/-- The words that name an encoding after a width. -/
def Encoding.words (e : Encoding) : List Lexeme := if e = .utf8 then [] else [.mark ',', .name e.name]

/-- The words of a primitive. -/
def Primitive.words : Primitive → List Lexeme
  | .text w e => sizedWords "NSTR" w e.words
  | .bytes w => sizedWords "BYTES" w []
  | .padding w => sizedWords "PAD" w []
  | p => [.name p.keyword]

/-- The words of a repetition. -/
def Arity.words : Arity → List Lexeme
  | .single => []
  | .times n => [.mark '[', .figures n.repr, .mark ']']
  | .toEnd => [.mark '[', .mark '+', .mark ']']

/-- An encoding that a schema can name by the name under which it is shown. -/
structure Encoding.Canonical [Codecs] (e : Encoding) : Prop where
  isName : isName e.name = true
  ofName : ofName e.name = .text e

/-- Whatever names an encoding, it is shown under a name that names it too. -/
class Codecs.Canonical [Codecs] : Prop where
  canonical : ∀ {s e}, Encoding.ofName s = .text e → e.Canonical

/-- The standard codecs name their encodings so. -/
instance : Codecs.Canonical where
  canonical {s e} h := by
    have hknown : ∀ known : StandardEncoding, Encoding.Canonical ⟨known.name⟩ := fun known => by
      rcases known with _ | _ | _ | _ | _ | _ | (_ | (_ | _)) | (_ | (_ | _)) <;>
        exact ⟨by decide +kernel, by decide +kernel⟩
    simp only [Encoding.ofName, Codecs.lookUp] at h
    split at h
    · cases h
      exact hknown _
    · split_ifs at h
      cases h
      exact ⟨by decide +kernel, by decide +kernel⟩

namespace Spells

open Token

theorem angle (keyword : String) (w : Width) (hk : isName keyword = true) {as : List Char} {ws : List Lexeme}
    (has : Spells as ws) (hstop : Stops isNamePart as) :
    Spells (keyword.toList ++ '<' :: (w.1.repr.toList ++ (as ++ ['>']))) (sizedWords keyword w ws) := by
  refine name_append hk (mark_append rfl ?_) (.cons rfl)
  exact (figures w.1).append (has.append (mark_append rfl nil) (.cons rfl)) (hstop.append (.cons rfl))

theorem encoding {e : Encoding} (h : isName e.name = true) :
    Spells (',' :: ' ' :: e.name.toList) [.mark ',', .name e.name] :=
  mark_append rfl (blanks_append [' '] (by decide) (name h))

theorem primitive {p : Primitive} (h : ∀ w e, p = .text w e → e = .utf8 ∨ isName e.name = true) :
    Spells p.keyword.toList p.words := by
  cases p with
  | unsigned w order => exact name (by cases w <;> cases order <;> decide +kernel)
  | signed w order => exact name (by cases w <;> cases order <;> decide +kernel)
  | float f order => exact name (by cases f <;> cases order <;> decide +kernel)
  | text w e =>
    rw [Primitive.keyword, Primitive.words, Encoding.words]
    by_cases he : e = .utf8
    · rw [if_pos he, if_pos he]
      have h := angle "NSTR" w (by decide +kernel) nil .nil
      simpa using h
    · rw [if_neg he, if_neg he]
      have h := angle "NSTR" w (by decide +kernel) (encoding ((h w e rfl).resolve_left he)) (.cons rfl)
      simpa using h
  | bytes w =>
    rw [Primitive.keyword, Primitive.words]
    have h := angle "BYTES" w (by decide +kernel) nil .nil
    simpa using h
  | padding w =>
    rw [Primitive.keyword, Primitive.words]
    have h := angle "PAD" w (by decide +kernel) nil .nil
    simpa using h

theorem arity (a : Arity) : Spells a.suffix.toList a.words ∧ Stops isNamePart a.suffix.toList := by
  cases a with
  | single => exact ⟨nil, .nil⟩
  | times n =>
    have he : (Arity.times n).suffix.toList = '[' :: (n.repr.toList ++ [']']) := by simp [Arity.suffix]
    rw [he]
    exact ⟨mark_append rfl ((figures n).append (mark_append rfl nil) (.cons rfl)), .cons rfl⟩
  | toEnd => exact ⟨mark_append rfl (mark_append rfl (mark_append rfl nil)), .cons rfl⟩

end Spells

/-! ## The words of a schema -/

namespace Schema

variable {s : Schema}

/-- The words of a type that is no array. -/
def baseWords (s : Schema) : BaseType Nat → List Lexeme
  | .primitive p => p.words
  | .struct i => [.name (s.struct i).name]

/-- The words of a field. -/
def fieldWords (s : Schema) (f : Field) : List Lexeme :=
  .name f.name :: .mark ':' :: (s.baseWords f.type.base ++ f.type.arity.words)

/-- The words of a struct. -/
def structWords (s : Schema) (d : Struct) : List Lexeme :=
  .name "struct" :: .name d.name :: .mark '\x7b' :: (d.fields.flatMap s.fieldWords ++ [.mark '\x7d'])

/-- The words of a schema. -/
def words (s : Schema) : List Lexeme := s.structs.flatMap s.structWords

/-- What the scanner and the parser ensure of the names and the numbers of a schema: they can be read. -/
structure Named [Codecs] (s : Schema) : Prop where
  struct : ∀ d ∈ s.structs, isName d.name = true ∧ isBuiltIn d.name = false
  field : ∀ d ∈ s.structs, ∀ f ∈ d.fields, isName f.name = true
  encoding : ∀ d ∈ s.structs, ∀ f ∈ d.fields, ∀ w e, f.type.base = .primitive (.text w e) → e = .utf8 ∨ e.Canonical
  width : ∀ d ∈ s.structs, ∀ f ∈ d.fields, ∀ p w, f.type.base = .primitive p → p.givenWidth? = some w →
    Text.Readable w.1.repr.toList
  length : ∀ d ∈ s.structs, ∀ f ∈ d.fields, ∀ n, f.type.arity = .times n → Text.Readable n.repr.toList

variable [Codecs]

/-- The names that the types of a struct refer to can be read as such. -/
theorem WellFormed.named_target (h : s.WellFormed) (hn : s.Named) {d : Struct} (hd : d ∈ s.structs) {f : Field}
    (hf : f ∈ d.fields) {i : Nat} (hi : f.type.base = .struct i) :
    isName (s.struct i).name = true ∧ isBuiltIn (s.struct i).name = false := by
  obtain ⟨j, -, rfl⟩ := mem_structs_iff.1 hd
  exact hn.struct _ (mem_structs_iff.2 ⟨i, h.target j f hf i hi, rfl⟩)

theorem spells_field (h : s.WellFormed) (hn : s.Named) {d : Struct} (hd : d ∈ s.structs) {f : Field}
    (hf : f ∈ d.fields) : Spells (s!"    {f.name}: {s.typeText f.type}").toList (s.fieldWords f) := by
  have hbase : Spells (s.baseText f.type.base).toList (s.baseWords f.type.base) := by
    cases hb : f.type.base with
    | primitive p =>
      refine .primitive fun w e he => (hn.encoding d hd f hf w e (he ▸ hb)).imp_right (·.isName)
    | struct i => exact .name (h.named_target hn hd hf hb).1
  obtain ⟨harity, hstop⟩ := Spells.arity f.type.arity
  have he : (s!"    {f.name}: {s.typeText f.type}").toList = "    ".toList ++ (f.name.toList ++
      ':' :: ([' '] ++ ((s.baseText f.type.base).toList ++ f.type.arity.suffix.toList))) := by
    simp [typeText]
  rw [he]
  refine .blanks_append _ (by decide +kernel) (.name_append (hn.field d hd f hf) ?_ (.cons rfl))
  exact .mark_append rfl (.blanks_append [' '] (by decide) (hbase.append harity hstop))

theorem spells_struct (h : s.WellFormed) (hn : s.Named) {d : Struct} (hd : d ∈ s.structs) :
    Spells (s.structText d).toList (s.structWords d) := by
  obtain ⟨hfields, hstop⟩ := Spells.flatMap (b := '\n') rfl fun f hf => spells_field h hn hd hf
  have he : (s.structText d).toList = "struct".toList ++ ' ' :: (d.name.toList ++ ' ' :: '\x7b' ::
      ((d.fields.flatMap fun f => '\n' :: (s!"    {f.name}: {s.typeText f.type}").toList) ++ ['\n', '\x7d'])) := by
    rw [structText, List.singleton_append, List.cons_append, toList_intercalate_cons, List.flatMap_append, List.flatMap_map]
    simp
  -- the first line, then the fields, a line end before each, and the brace
  rw [he]
  refine .name_append (by decide +kernel) ?_ (.cons rfl)
  refine .blanks_append [' '] (by decide) (.name_append (hn.struct d hd).1 ?_ (.cons rfl))
  refine .blanks_append [' '] (by decide) (.mark_append rfl (hfields.append ?_ (.cons rfl)))
  exact .blanks_append ['\n'] (by decide) (.mark_append rfl .nil)

/-- The scanner finds these words in the text of a schema. -/
theorem words_text (h : s.WellFormed) (hn : s.Named) : Words s.text.toList s.words := by
  obtain ⟨d, ds, hds⟩ := List.exists_cons_of_ne_nil (List.ne_nil_of_length_pos (Nat.zero_lt_of_lt h.root))
  have hall : ∀ d ∈ s.structs, Spells (s.structText d).toList (s.structWords d) := fun d hd =>
    spells_struct h hn hd
  rw [hds, List.forall_mem_cons] at hall
  have hlines : ∀ d ∈ ds, Spells ('\n' :: (s.structText d).toList) (s.structWords d) := fun d hd =>
    .blanks_append ['\n'] (by decide) (hall.2 d hd)
  obtain ⟨hrest, hstop⟩ := Spells.flatMap (b := '\n') rfl hlines
  have he : s.text.toList = ((s.structText d).toList ++ ds.flatMap fun d => '\n' :: '\n' :: (s.structText d).toList) ++
      ['\n'] := by
    rw [text, hds, List.map_cons, String.toList_append, toList_intercalate_cons, List.flatMap_map]
    simp
  rw [he, words, hds]
  exact (hall.1.append hrest hstop).words (by decide) (.cons rfl)

end Schema

/-! ## Reading the words back -/

section Reading

variable {ts : List Token}

theorem tokens_cons {l : Lexeme} {ls : List Lexeme} (h : ts.map (·.lexeme) = l :: ls) :
    ∃ p us, ts = ⟨l, p⟩ :: us ∧ us.map (·.lexeme) = ls := by
  obtain ⟨⟨_, p⟩, us, rfl, rfl, hus⟩ := List.map_eq_cons_iff.1 h
  exact ⟨p, us, rfl, hus⟩

theorem tokens_nil (h : ts.map (·.lexeme) = []) : ts = [] := List.map_eq_nil_iff.1 h

theorem repeated_of_words {a : Arity} (hlength : ∀ n, a = .times n → Text.Readable n.repr.toList)
    (h : ts.map (·.lexeme) = a.words) : ∃ bracket, Grammar.Repeated Text.Readable ts a bracket := by
  cases a with
  | single =>
    rw [tokens_nil h]
    exact ⟨none, .single⟩
  | times n =>
    obtain ⟨p, us₁, rfl, h₁⟩ := tokens_cons h
    obtain ⟨q, us₂, rfl, h₂⟩ := tokens_cons h₁
    obtain ⟨r, us₃, rfl, h₃⟩ := tokens_cons h₂
    have htimes := Grammar.Repeated.times n.repr p q r (hlength n rfl)
    rw [Text.decimalValue_repr] at htimes
    rw [tokens_nil h₃]
    exact ⟨_, htimes⟩
  | toEnd =>
    obtain ⟨p, us₁, rfl, h₁⟩ := tokens_cons h
    obtain ⟨q, us₂, rfl, h₂⟩ := tokens_cons h₁
    obtain ⟨r, us₃, rfl, h₃⟩ := tokens_cons h₂
    rw [tokens_nil h₃]
    exact ⟨_, .toEnd p q r⟩

variable [Codecs]

theorem encoded_of_nil (family : SizedFamily) (h : ts.map (·.lexeme) = []) : Grammar.Encoded family ts .utf8 := by
  rw [tokens_nil h]
  exact .default family

theorem encoded_of_words {e : Encoding} (he : e = .utf8 ∨ e.Canonical) (h : ts.map (·.lexeme) = e.words) :
    Grammar.Encoded .text ts e := by
  unfold Encoding.words at h
  split at h
  · rename_i hutf8
    rw [hutf8]
    exact encoded_of_nil .text h
  · rename_i hutf8
    obtain ⟨p, us₁, rfl, h₁⟩ := tokens_cons h
    obtain ⟨q, us₂, rfl, h₂⟩ := tokens_cons h₁
    rw [tokens_nil h₂]
    exact .given p q (he.resolve_left hutf8).ofName

theorem base_of_sizedWords {family : SizedFamily} {keyword : String} (hk : SizedFamily.ofName? keyword = some family)
    {w : Width} (hw : Text.Readable w.1.repr.toList) {ws : List Lexeme} {e : Encoding}
    (he : ∀ us : List Token, us.map (·.lexeme) = ws → Grammar.Encoded family us e)
    (h : ts.map (·.lexeme) = sizedWords keyword w ws) :
    ∃ p, Grammar.Base Text.Readable ts (.primitive (Grammar.sized family w e)) p := by
  obtain ⟨p, us₁, rfl, h₁⟩ := tokens_cons h
  obtain ⟨q, us₂, rfl, h₂⟩ := tokens_cons h₁
  obtain ⟨r, us₃, rfl, h₃⟩ := tokens_cons h₂
  obtain ⟨us, vs, rfl, hus, hvs⟩ := List.map_eq_append_iff.1 h₃
  obtain ⟨t, vs', rfl, hvs'⟩ := tokens_cons hvs
  rw [tokens_nil hvs']
  exact ⟨p, .sized p q r t hk hw (Text.decimalValue_repr w.1) (he us hus)⟩

theorem base_of_keyword {k : Primitive} (hs : SizedFamily.ofName? k.keyword = none)
    (hn : ∃ n ∈ NumericName.ofName? k.keyword, Text.Readable n.figures ∧
      n.family.primitive? (Text.decimalValue n.figures) n.order = some k)
    (h : ts.map (·.lexeme) = [.name k.keyword]) : ∃ p, Grammar.Base Text.Readable ts (.primitive k) p := by
  obtain ⟨p, us, rfl, hus⟩ := tokens_cons h
  obtain ⟨n, hname, hread, hk⟩ := hn
  rw [tokens_nil hus]
  exact ⟨p, .numeric p hs hname hread hk⟩

/-- The words of a primitive are those of a type that is this primitive. -/
theorem base_of_primitive {k : Primitive} (he : ∀ w e, k = .text w e → e = .utf8 ∨ e.Canonical)
    (hw : ∀ w, k.givenWidth? = some w → Text.Readable w.1.repr.toList) (h : ts.map (·.lexeme) = k.words) :
    ∃ p, Grammar.Base Text.Readable ts (.primitive k) p := by
  cases k with
  | unsigned w order =>
    refine base_of_keyword (k := .unsigned w order) ?_ ?_ h <;> cases w <;> cases order <;> decide +kernel
  | signed w order =>
    refine base_of_keyword (k := .signed w order) ?_ ?_ h <;> cases w <;> cases order <;> decide +kernel
  | float f order =>
    refine base_of_keyword (k := .float f order) ?_ ?_ h <;> cases f <;> cases order <;> decide +kernel
  | text w e => exact base_of_sizedWords rfl (hw w rfl) (fun _ => encoded_of_words (he w e rfl)) h
  | bytes w => exact base_of_sizedWords rfl (hw w rfl) (fun _ hus => encoded_of_nil .bytes hus) h
  | padding w => exact base_of_sizedWords rfl (hw w rfl) (fun _ hus => encoded_of_nil .padding hus) h

end Reading

namespace Schema

variable {s : Schema}

/-- A type with the name of the struct that it refers to. -/
def writtenBase (s : Schema) : BaseType Nat → BaseType String
  | .primitive p => .primitive p
  | .struct i => .struct (s.struct i).name

/-- What a field says. -/
def writtenField (s : Schema) (f : Field) : String × FieldType String :=
  (f.name, ⟨s.writtenBase f.type.base, f.type.arity⟩)

/-- What a struct says, as a declaration does. -/
def signature (s : Schema) (d : Struct) : Signature := ⟨d.name, d.fields.map s.writtenField⟩

variable [Codecs]

theorem field_of_words (h : s.WellFormed) (hn : s.Named) {d : Struct} (hd : d ∈ s.structs) {f : Field}
    (hf : f ∈ d.fields) (hts : ts.map (·.lexeme) = s.fieldWords f) :
    ∃ g, Grammar.Field Text.Readable ts g ∧ (g.name, g.type) = s.writtenField f := by
  obtain ⟨p, us₁, rfl, h₁⟩ := tokens_cons hts
  obtain ⟨q, us₂, rfl, h₂⟩ := tokens_cons h₁
  obtain ⟨ws, vs, rfl, hws, hvs⟩ := List.map_eq_append_iff.1 h₂
  obtain ⟨bracket, hrepeated⟩ := repeated_of_words (hn.length d hd f hf) hvs
  have hbase : ∃ t, Grammar.Base Text.Readable ws (s.writtenBase f.type.base) t := by
    cases hb : f.type.base with
    | primitive k =>
      rw [hb] at hws
      exact base_of_primitive (fun w e he => hn.encoding d hd f hf w e (he ▸ hb))
        (fun w => hn.width d hd f hf k w hb) hws
    | struct i =>
      rw [hb] at hws
      obtain ⟨t, us, rfl, hus⟩ := tokens_cons hws
      rw [tokens_nil hus]
      exact ⟨t, .struct t (h.named_target hn hd hf hb).2⟩
  obtain ⟨t, hbase⟩ := hbase
  exact ⟨_, .mk p q hbase hrepeated, rfl⟩

theorem fields_of_words (h : s.WellFormed) (hn : s.Named) {d : Struct} (hd : d ∈ s.structs) {fs : List Field}
    (hfs : ∀ f ∈ fs, f ∈ d.fields) (hts : ts.map (·.lexeme) = fs.flatMap s.fieldWords) :
    ∃ gs, Grammar.Fields Text.Readable ts gs ∧ gs.map (fun g => (g.name, g.type)) = fs.map s.writtenField := by
  induction fs generalizing ts with
  | nil =>
    rw [tokens_nil hts]
    exact ⟨[], .nil, rfl⟩
  | cons f fs ih =>
    rw [List.forall_mem_cons] at hfs
    obtain ⟨ws, vs, rfl, hws, hvs⟩ := List.map_eq_append_iff.1 hts
    obtain ⟨g, hg, he⟩ := field_of_words h hn hd hfs.1 hws
    obtain ⟨gs, hgs, hes⟩ := ih hfs.2 hvs
    exact ⟨g :: gs, .cons hg .none hgs, by rw [List.map_cons, List.map_cons, he, hes]⟩

theorem struct_of_words (h : s.WellFormed) (hn : s.Named) {d : Struct} (hd : d ∈ s.structs)
    (hts : ts.map (·.lexeme) = s.structWords d) :
    ∃ e, Grammar.Struct Text.Readable ts e ∧ e.signature = s.signature d := by
  obtain ⟨p, us₁, rfl, h₁⟩ := tokens_cons hts
  obtain ⟨q, us₂, rfl, h₂⟩ := tokens_cons h₁
  obtain ⟨r, us₃, rfl, h₃⟩ := tokens_cons h₂
  obtain ⟨ws, vs, rfl, hws, hvs⟩ := List.map_eq_append_iff.1 h₃
  obtain ⟨t, vs', rfl, hvs'⟩ := tokens_cons hvs
  obtain ⟨gs, hgs, he⟩ := fields_of_words h hn hd (fun _ => id) hws
  have hnames : gs.map (·.name) = d.fields.map (·.name) := by
    have := congrArg (List.map Prod.fst) he
    simpa [Function.comp_def, writtenField] using this
  have hnodup : (d.fields.map (·.name)).Nodup := by
    obtain ⟨i, -, rfl⟩ := mem_structs_iff.1 hd
    exact h.fieldNames i
  rw [tokens_nil hvs']
  refine ⟨_, .mk p q r t (hn.struct d hd).2 hgs (hnames ▸ hnodup), ?_⟩
  rw [Declaration.signature, he]
  rfl

/-- The words of a schema declare what it says. -/
theorem structs_of_words (h : s.WellFormed) (hn : s.Named) {l : List Struct} (hl : ∀ d ∈ l, d ∈ s.structs)
    (hts : ts.map (·.lexeme) = l.flatMap s.structWords) :
    ∃ es, Grammar.Structs Text.Readable ts es ∧ es.map (·.signature) = l.map s.signature := by
  induction l generalizing ts with
  | nil =>
    rw [tokens_nil hts]
    exact ⟨[], .nil, rfl⟩
  | cons d l ih =>
    rw [List.forall_mem_cons] at hl
    obtain ⟨ws, vs, rfl, hws, hvs⟩ := List.map_eq_append_iff.1 hts
    obtain ⟨e, he, hsig⟩ := struct_of_words h hn hl.1 hws
    obtain ⟨es, hes, hsigs⟩ := ih hl.2 hvs
    exact ⟨e :: es, .cons he hes, by rw [List.map_cons, List.map_cons, hsig, hsigs]⟩

/-- The text of a schema declares what the schema says. -/
theorem declarations_text (h : s.WellFormed) (hn : s.Named) : ∃ words es, Token.scan s.text = .ok words ∧
    words.declarations = .ok es ∧ es.map (·.signature) = s.structs.map s.signature := by
  obtain ⟨words, hw, hls⟩ := Token.scan_eq_ok.2 (words_text h hn)
  obtain ⟨es, hes, hsigs⟩ := structs_of_words h hn (fun _ => id) hls
  refine ⟨words, es, hw, TokenList.declarations_eq_ok.2 ⟨?_, hes⟩, hsigs⟩
  rintro rfl
  have hlen := congrArg List.length hsigs
  have := h.root
  simp only [List.length_map, List.length_nil] at hlen
  omega

end Schema

end BinRecord
