/-
The derivations of schema text: for each way in which the grammar makes up a schema a tree, with the words that
it stands for and what it declares. No two trees stand for the same words, and the parser accepts exactly the
words of trees whose numbers can be read, and returns what the tree declares. Otherwise it reports a fault at one
of the words or at the end, unless it comes to a number that is too long to be read.
-/
import BinRecord.Proofs.Schema.Keyword
import BinRecord.Proofs.Schema.Location

namespace BinRecord

namespace Derivation

variable [Codecs]

/-! ## Trees -/

/-- A comma and an encoding that is known. -/
structure EncodingPart where
  comma : TextPosition
  name : String
  position : TextPosition
  encoding : Encoding
  known : Encoding.ofName name = .text encoding

/-- A type that is no array: a numeric type there is, a type with its width in angle brackets, of which only text
has an encoding, or the name of a struct. -/
inductive TypePart where
  | numeric (name : String) (position : TextPosition) (n : NumericName) (p : Primitive) (spelled : IsNumeric name n)
      (denotes : n.Denotes p)
  | sized (family : SizedFamily) (position less : TextPosition) (figures : String) (place : TextPosition)
      (width : Width) (value : Text.decimalValue figures.toList = width.1) (encoding : Option EncodingPart)
      (plain : family ≠ .text → encoding = none) (greater : TextPosition)
  | struct (name : String) (position : TextPosition) (free : ¬ IsBuiltInName name)

/-- The brackets that make a type an array. -/
inductive ArrayPart where
  | times (left : TextPosition) (figures : String) (place right : TextPosition)
  | toEnd (left plus right : TextPosition)

/-- A comma or a semicolon. -/
inductive SeparatorPart where
  | comma (position : TextPosition)
  | semicolon (position : TextPosition)

/-- A field, with the separator that may follow it. -/
structure FieldTree where
  name : String
  position : TextPosition
  colon : TextPosition
  type : TypePart
  array : Option ArrayPart
  separator : Option SeparatorPart

/-- A struct, which has no built-in name and whose fields have different names. -/
structure StructTree where
  keyword : TextPosition
  name : String
  position : TextPosition
  left : TextPosition
  fields : List FieldTree
  right : TextPosition
  free : ¬ IsBuiltInName name
  distinct : (fields.map (·.name)).Nodup

/-- A schema: one struct or more. -/
structure SchemaTree where
  structs : List StructTree
  nonempty : structs ≠ []

/-! ## Words -/

/-- The words of a part that may be missing. -/
def optional {α : Type} (words : α → List Token) : Option α → List Token
  | none => []
  | some a => words a

def EncodingPart.words (t : EncodingPart) : List Token := [⟨.mark ',', t.comma⟩, ⟨.name t.name, t.position⟩]

def TypePart.words : TypePart → List Token
  | numeric name position .. => [⟨.name name, position⟩]
  | sized family position less figures place _ _ encoding _ greater =>
    ⟨.name family.keyword, position⟩ :: ⟨.mark '<', less⟩ :: ⟨.figures figures, place⟩ ::
      (optional EncodingPart.words encoding ++ [⟨.mark '>', greater⟩])
  | struct name position _ => [⟨.name name, position⟩]

def ArrayPart.words : ArrayPart → List Token
  | times left figures place right => [⟨.mark '[', left⟩, ⟨.figures figures, place⟩, ⟨.mark ']', right⟩]
  | toEnd left plus right => [⟨.mark '[', left⟩, ⟨.mark '+', plus⟩, ⟨.mark ']', right⟩]

def SeparatorPart.words : SeparatorPart → List Token
  | comma position => [⟨.mark ',', position⟩]
  | semicolon position => [⟨.mark ';', position⟩]

def FieldTree.words (t : FieldTree) : List Token :=
  ⟨.name t.name, t.position⟩ :: ⟨.mark ':', t.colon⟩ ::
    (t.type.words ++ (optional ArrayPart.words t.array ++ optional SeparatorPart.words t.separator))

def StructTree.words (t : StructTree) : List Token :=
  ⟨.name "struct", t.keyword⟩ :: ⟨.name t.name, t.position⟩ :: ⟨.mark '\x7b', t.left⟩ ::
    (t.fields.flatMap FieldTree.words ++ [⟨.mark '\x7d', t.right⟩])

/-- The words that a schema is made up of. -/
def SchemaTree.words (t : SchemaTree) : List Token := t.structs.flatMap StructTree.words

/-! ## Declarations -/

/-- The encoding of text: UTF-8 if none is given. -/
def encodingOf : Option EncodingPart → Encoding
  | none => .utf8
  | some t => t.encoding

def TypePart.base : TypePart → BaseType String
  | numeric _ _ _ p _ _ => .primitive p
  | sized family _ _ _ _ width _ encoding _ _ => .primitive (Grammar.sized family width (encodingOf encoding))
  | struct name _ _ => .struct name

def TypePart.position : TypePart → TextPosition
  | numeric _ position .. | sized _ position .. | struct _ position _ => position

def arityOf : Option ArrayPart → Arity
  | none => .single
  | some (.times _ figures _ _) => .times (Text.decimalValue figures.toList)
  | some (.toEnd ..) => .toEnd

def bracketOf : Option ArrayPart → Option TextPosition
  | none => none
  | some (.times left ..) | some (.toEnd left ..) => some left

def FieldTree.declaration (t : FieldTree) : FieldDeclaration String :=
  ⟨t.name, t.position, ⟨t.type.base, arityOf t.array⟩, t.type.position, bracketOf t.array⟩

def StructTree.declaration (t : StructTree) : Declaration String :=
  ⟨t.name, t.position, t.fields.map FieldTree.declaration⟩

/-- What a schema declares. -/
def SchemaTree.declarations (t : SchemaTree) : List (Declaration String) := t.structs.map StructTree.declaration

/-! ## Numbers -/

/-- The figures in a type, if there are any, are such as `P` says. -/
def TypePart.Numbers (P : List Char → Prop) : TypePart → Prop
  | numeric _ _ n .. => P n.figures
  | sized _ _ _ figures .. => P figures.toList
  | struct .. => True

/-- The figures in brackets, if there are any, are such as `P` says. -/
def ArrayPart.Numbers (P : List Char → Prop) : ArrayPart → Prop
  | times _ figures .. => P figures.toList
  | toEnd .. => True

/-- The figures in a field are such as `P` says. -/
def FieldTree.Numbers (P : List Char → Prop) (t : FieldTree) : Prop :=
  t.type.Numbers P ∧ ∀ a ∈ t.array, a.Numbers P

/-- The figures in a schema are such as `P` says. -/
def SchemaTree.Numbers (P : List Char → Prop) (t : SchemaTree) : Prop :=
  ∀ s ∈ t.structs, ∀ f ∈ s.fields, f.Numbers P

theorem TypePart.numbers_true (t : TypePart) : t.Numbers fun _ => True := by
  cases t <;> exact trivial

omit [Codecs] in
theorem ArrayPart.numbers_true (t : ArrayPart) : t.Numbers fun _ => True := by
  cases t <;> exact trivial

theorem SchemaTree.numbers_true (t : SchemaTree) : t.Numbers fun _ => True :=
  fun _ _ f _ => ⟨f.type.numbers_true, fun a _ => a.numbers_true⟩

/-! ## Trees for the words of the grammar -/

open Grammar

variable {fits : List Char → Prop} {ws : List Token}

theorem encoded_iff {family : SizedFamily} {e : Encoding} : Encoded family ws e ↔
    ∃ t : Option EncodingPart, (family ≠ .text → t = none) ∧ optional EncodingPart.words t = ws ∧ encodingOf t = e := by
  constructor
  · intro h
    cases h with
    | default => exact ⟨none, fun _ => rfl, rfl, rfl⟩
    | @given x e p q hx => exact ⟨some ⟨p, x, q, e, hx⟩, fun hne => absurd rfl hne, rfl, rfl⟩
  · rintro ⟨t, hplain, rfl, rfl⟩
    cases t with
    | none => exact .default family
    | some t =>
      cases family with
      | text => exact .given t.comma t.position t.known
      | bytes => cases hplain (by decide)
      | padding => cases hplain (by decide)

theorem base_iff {b : BaseType String} {p : TextPosition} :
    Base fits ws b p ↔ ∃ t : TypePart, t.words = ws ∧ t.base = b ∧ t.position = p ∧ t.Numbers fits := by
  constructor
  · intro h
    cases h with
    | @sized family x n w e ws _ q r t hx hfits hn hws =>
      rw [ofName?_eq_some_iff] at hx
      obtain ⟨part, hplain, rfl, rfl⟩ := encoded_iff.1 hws
      subst hx
      exact ⟨.sized family p q n r w hn part hplain t, rfl, rfl, rfl, hfits⟩
    | @numeric x n k _ _ hn hfits hk =>
      rw [ofName?_eq_some_numeric] at hn
      exact ⟨.numeric x p n k hn (primitive?_eq_some_iff.1 hk), rfl, rfl, rfl, hfits⟩
    | @struct x _ hx => exact ⟨.struct x p (isBuiltIn_eq_false_iff.1 hx), rfl, rfl, rfl, trivial⟩
  · rintro ⟨t, rfl, rfl, rfl, hfits⟩
    cases t with
    | numeric name position n p spelled denotes =>
      have hname : SizedFamily.ofName? name = none := by
        rw [Option.eq_none_iff_forall_ne_some]
        rintro family hfamily
        rw [ofName?_eq_some_iff] at hfamily
        exact not_isNumeric_keyword family n (hfamily ▸ spelled)
      exact .numeric position hname (ofName?_eq_some_numeric.2 spelled) hfits (primitive?_eq_some_iff.2 denotes)
    | sized family position less figures place width value encoding plain greater =>
      exact .sized position less place greater (ofName?_eq_some_iff.2 rfl) hfits value
        (encoded_iff.2 ⟨encoding, plain, rfl, rfl⟩)
    | struct name position free => exact .struct position (isBuiltIn_eq_false_iff.2 free)

omit [Codecs] in
theorem repeated_iff {a : Arity} {bracket : Option TextPosition} : Repeated fits ws a bracket ↔
    ∃ t : Option ArrayPart, optional ArrayPart.words t = ws ∧ arityOf t = a ∧ bracketOf t = bracket ∧
      ∀ part ∈ t, part.Numbers fits := by
  constructor
  · intro h
    cases h with
    | single => exact ⟨none, rfl, rfl, rfl, fun _ h => by cases h⟩
    | times x p q r hx => exact ⟨some (.times p x q r), rfl, rfl, rfl, fun _ h => by cases h; exact hx⟩
    | toEnd p q r => exact ⟨some (.toEnd p q r), rfl, rfl, rfl, fun _ h => by cases h; trivial⟩
  · rintro ⟨t, rfl, rfl, rfl, hfits⟩
    rcases t with _ | ⟨p, x, q, r⟩ | ⟨p, q, r⟩
    · exact .single
    · exact .times x p q r (hfits _ rfl)
    · exact .toEnd p q r

omit [Codecs] in
theorem separator_iff : Separator ws ↔ ∃ t : Option SeparatorPart, optional SeparatorPart.words t = ws := by
  constructor
  · intro h
    cases h with
    | none => exact ⟨none, rfl⟩
    | comma p => exact ⟨some (.comma p), rfl⟩
    | semicolon p => exact ⟨some (.semicolon p), rfl⟩
  · rintro ⟨t, rfl⟩
    rcases t with _ | p | p
    · exact .none
    · exact .comma p
    · exact .semicolon p

theorem fields_iff {fs : List (FieldDeclaration String)} : Fields fits ws fs ↔
    ∃ ts : List FieldTree, ts.flatMap FieldTree.words = ws ∧ ts.map FieldTree.declaration = fs ∧
      ∀ t ∈ ts, t.Numbers fits := by
  constructor
  · intro h
    induction h with
    | nil => exact ⟨[], rfl, rfl, by simp⟩
    | @cons f fs ws sep vs hf hsep _ ih =>
      obtain ⟨ts, rfl, rfl, hts⟩ := ih
      obtain ⟨separator, rfl⟩ := separator_iff.1 hsep
      obtain ⟨p, q, hbase, hrepeated⟩ := hf
      obtain ⟨type, rfl, rfl, rfl, htype⟩ := base_iff.1 hbase
      obtain ⟨array, rfl, rfl, rfl, harray⟩ := repeated_iff.1 hrepeated
      exact ⟨⟨_, p, q, type, array, separator⟩ :: ts, by simp [FieldTree.words], rfl,
        List.forall_mem_cons.2 ⟨⟨htype, harray⟩, hts⟩⟩
  · rintro ⟨ts, rfl, rfl, hts⟩
    induction ts with
    | nil => exact .nil
    | cons t ts ih =>
      obtain ⟨ht, hts⟩ := List.forall_mem_cons.1 hts
      have hfield : Grammar.Field fits _ t.declaration :=
        .mk t.position t.colon (base_iff.2 ⟨t.type, rfl, rfl, rfl, ht.1⟩)
          (repeated_iff.2 ⟨t.array, rfl, rfl, rfl, ht.2⟩)
      have hone := Fields.cons hfield (separator_iff.2 ⟨t.separator, rfl⟩) (ih hts)
      simpa [FieldTree.words] using hone

theorem names_declarations (ts : List FieldTree) : (ts.map FieldTree.declaration).map (·.name) = ts.map (·.name) := by
  rw [List.map_map]
  rfl

theorem structs_iff {ds : List (Declaration String)} : Structs fits ws ds ↔
    ∃ ts : List StructTree, ts.flatMap StructTree.words = ws ∧ ts.map StructTree.declaration = ds ∧
      ∀ t ∈ ts, ∀ f ∈ t.fields, f.Numbers fits := by
  constructor
  · intro h
    induction h with
    | nil => exact ⟨[], rfl, rfl, by simp⟩
    | @cons d ds ws vs hd _ ih =>
      obtain ⟨ts, rfl, rfl, hts⟩ := ih
      obtain ⟨p, q, r, t, hx, hfields, hnodup⟩ := hd
      obtain ⟨fields, rfl, rfl, hfits⟩ := fields_iff.1 hfields
      rw [names_declarations] at hnodup
      exact ⟨⟨p, _, q, r, fields, t, isBuiltIn_eq_false_iff.1 hx, hnodup⟩ :: ts, rfl, rfl,
        List.forall_mem_cons.2 ⟨hfits, hts⟩⟩
  · rintro ⟨ts, rfl, rfl, hts⟩
    induction ts with
    | nil => exact .nil
    | cons t ts ih =>
      obtain ⟨ht, hts⟩ := List.forall_mem_cons.1 hts
      have hnodup := t.distinct
      rw [← names_declarations] at hnodup
      exact .cons (.mk t.keyword t.position t.left t.right (isBuiltIn_eq_false_iff.2 t.free)
        (fields_iff.2 ⟨t.fields, rfl, rfl, ht⟩) hnodup) (ih hts)

/-! ## No two trees have the same words -/

variable {rest rest' : List Token}

theorem EncodingPart.eq_of_words {t t' : EncodingPart} (hname : t.name = t'.name) (hcomma : t.comma = t'.comma)
    (hposition : t.position = t'.position) : t = t' := by
  obtain ⟨comma, name, position, encoding, known⟩ := t
  obtain ⟨comma', name', position', encoding', known'⟩ := t'
  dsimp only at hname hcomma hposition
  subst hname hcomma hposition
  -- an encoding goes by its name
  rw [known] at known'
  cases known'
  rfl

/-- The mark behind an encoding tells whether there is one. -/
theorem encoding_inj {t t' : Option EncodingPart} {p p' : TextPosition}
    (h : optional EncodingPart.words t ++ ⟨.mark '>', p⟩ :: rest =
      optional EncodingPart.words t' ++ ⟨.mark '>', p'⟩ :: rest') : t = t' ∧ p = p' ∧ rest = rest' := by
  cases t with
  | none =>
    cases t' with
    | none => simpa [optional] using h
    | some t' => simp [optional, EncodingPart.words] at h
  | some t =>
    cases t' with
    | none => simp [optional, EncodingPart.words] at h
    | some t' =>
      simp only [optional, EncodingPart.words, List.cons_append, List.nil_append, List.cons.injEq, Token.mk.injEq,
        Lexeme.name.injEq, true_and] at h
      obtain ⟨hcomma, ⟨hname, hposition⟩, hp, hrest⟩ := h
      exact ⟨congrArg some (EncodingPart.eq_of_words hname hcomma hposition), hp, hrest⟩

theorem TypePart.words_inj {t t' : TypePart} (h : t.words ++ rest = t'.words ++ rest') : t = t' ∧ rest = rest' := by
  -- the name comes first, and it can be that of one kind of type only
  cases t with
  | numeric name position n p spelled denotes =>
    cases t' with
    | numeric name' position' n' p' spelled' denotes' =>
      simp only [words, List.cons_append, List.nil_append, List.cons.injEq, Token.mk.injEq, Lexeme.name.injEq] at h
      obtain ⟨⟨rfl, rfl⟩, hrest⟩ := h
      obtain rfl := spelled.unique spelled'
      obtain rfl := denotes.unique denotes'
      exact ⟨rfl, hrest⟩
    | sized family' =>
      simp only [words, List.cons_append, List.cons.injEq, Token.mk.injEq, Lexeme.name.injEq] at h
      exact absurd (h.1.1 ▸ spelled) (not_isNumeric_keyword family' n)
    | struct name' position' free' =>
      simp only [words, List.cons_append, List.cons.injEq, Token.mk.injEq, Lexeme.name.injEq] at h
      exact absurd (.inr ⟨n, h.1.1 ▸ spelled⟩) free'
  | sized family position less figures place width value encoding plain greater =>
    cases t' with
    | numeric name' position' n' p' spelled' denotes' =>
      simp only [words, List.cons_append, List.cons.injEq, Token.mk.injEq, Lexeme.name.injEq] at h
      exact absurd (h.1.1 ▸ spelled') (not_isNumeric_keyword family n')
    | sized family' position' less' figures' place' width' value' encoding' plain' greater' =>
      simp only [words, List.cons_append, List.append_assoc, List.nil_append, List.cons.injEq, Token.mk.injEq,
        Lexeme.name.injEq, Lexeme.figures.injEq, true_and] at h
      obtain ⟨⟨hfamily, rfl⟩, rfl, ⟨rfl, rfl⟩, htail⟩ := h
      obtain rfl := SizedFamily.keyword_inj hfamily
      obtain rfl : width = width' := Subtype.ext (value.symm.trans value')
      obtain ⟨rfl, rfl, hrest⟩ := encoding_inj htail
      exact ⟨rfl, hrest⟩
    | struct name' position' free' =>
      simp only [words, List.cons_append, List.cons.injEq, Token.mk.injEq, Lexeme.name.injEq] at h
      exact absurd (.inl ⟨family, h.1.1.symm⟩) free'
  | struct name position free =>
    cases t' with
    | numeric name' position' n' p' spelled' denotes' =>
      simp only [words, List.cons_append, List.cons.injEq, Token.mk.injEq, Lexeme.name.injEq] at h
      exact absurd (.inr ⟨n', h.1.1 ▸ spelled'⟩) free
    | sized family' =>
      simp only [words, List.cons_append, List.cons.injEq, Token.mk.injEq, Lexeme.name.injEq] at h
      exact absurd (.inl ⟨family', h.1.1⟩) free
    | struct name' position' free' =>
      simp only [words, List.cons_append, List.nil_append, List.cons.injEq, Token.mk.injEq, Lexeme.name.injEq] at h
      obtain ⟨⟨rfl, rfl⟩, hrest⟩ := h
      exact ⟨rfl, hrest⟩

/-- What can stand after a field with its separator: the next field, or the brace after the last one. -/
inductive AfterField : List Token → Prop
  | field (x : String) (p : TextPosition) (ts : List Token) : AfterField (⟨.name x, p⟩ :: ts)
  | brace (p : TextPosition) (ts : List Token) : AfterField (⟨.mark '\x7d', p⟩ :: ts)

omit [Codecs] in
theorem separator_inj {t t' : Option SeparatorPart}
    (h : optional SeparatorPart.words t ++ rest = optional SeparatorPart.words t' ++ rest')
    (hrest : AfterField rest) (hrest' : AfterField rest') : t = t' ∧ rest = rest' := by
  rcases t with _ | p | p <;> rcases t' with _ | p' | p' <;> cases hrest <;> cases hrest' <;>
    simp_all [optional, SeparatorPart.words]

omit [Codecs] in
/-- After a separator, or without one, no bracket can stand. -/
theorem not_bracket_of_separator (t : Option SeparatorPart) (h : AfterField rest) (p : TextPosition) (us : List Token) :
    optional SeparatorPart.words t ++ rest ≠ ⟨.mark '[', p⟩ :: us := by
  rcases t with _ | p | p <;> cases h <;> simp [optional, SeparatorPart.words]

omit [Codecs] in
theorem array_inj {t t' : Option ArrayPart}
    (h : optional ArrayPart.words t ++ rest = optional ArrayPart.words t' ++ rest')
    (hrest : ∀ p us, rest ≠ ⟨.mark '[', p⟩ :: us) (hrest' : ∀ p us, rest' ≠ ⟨.mark '[', p⟩ :: us) :
    t = t' ∧ rest = rest' := by
  rcases t with _ | ⟨p, x, q, r⟩ | ⟨p, q, r⟩
  · rcases t' with _ | ⟨p', x', q', r'⟩ | ⟨p', q', r'⟩
    · exact ⟨rfl, h⟩
    · exact absurd h (hrest _ _)
    · exact absurd h (hrest _ _)
  · rcases t' with _ | ⟨p', x', q', r'⟩ | ⟨p', q', r'⟩
    · exact absurd h.symm (hrest' _ _)
    · simpa [optional, ArrayPart.words, and_assoc] using h
    · simp [optional, ArrayPart.words] at h
  · rcases t' with _ | ⟨p', x', q', r'⟩ | ⟨p', q', r'⟩
    · exact absurd h.symm (hrest' _ _)
    · simp [optional, ArrayPart.words] at h
    · simpa [optional, ArrayPart.words, and_assoc] using h

theorem FieldTree.words_inj {t t' : FieldTree} (h : t.words ++ rest = t'.words ++ rest') (hrest : AfterField rest)
    (hrest' : AfterField rest') : t = t' ∧ rest = rest' := by
  obtain ⟨name, position, colon, type, array, separator⟩ := t
  obtain ⟨name', position', colon', type', array', separator'⟩ := t'
  simp only [words, List.cons_append, List.append_assoc, List.cons.injEq, Token.mk.injEq, Lexeme.name.injEq,
    true_and] at h
  obtain ⟨⟨rfl, rfl⟩, rfl, htype⟩ := h
  obtain ⟨rfl, harray⟩ := TypePart.words_inj htype
  obtain ⟨rfl, hseparator⟩ := array_inj harray (not_bracket_of_separator separator hrest)
    (not_bracket_of_separator separator' hrest')
  obtain ⟨rfl, hrests⟩ := separator_inj hseparator hrest hrest'
  exact ⟨rfl, hrests⟩

theorem afterField_fields (ts : List FieldTree) (p : TextPosition) (us : List Token) :
    AfterField (ts.flatMap FieldTree.words ++ ⟨.mark '\x7d', p⟩ :: us) := by
  cases ts with
  | nil => exact .brace p us
  | cons t ts => exact .field _ _ _

/-- The brace after the fields of a struct tells where they end. -/
theorem fields_inj {ts ts' : List FieldTree} {p p' : TextPosition}
    (h : ts.flatMap FieldTree.words ++ ⟨.mark '\x7d', p⟩ :: rest =
      ts'.flatMap FieldTree.words ++ ⟨.mark '\x7d', p'⟩ :: rest') : ts = ts' ∧ p = p' ∧ rest = rest' := by
  induction ts generalizing ts' with
  | nil =>
    cases ts' with
    | nil => simpa using h
    | cons t' ts' => simp [FieldTree.words] at h
  | cons t ts ih =>
    cases ts' with
    | nil => simp [FieldTree.words] at h
    | cons t' ts' =>
      rw [List.flatMap_cons, List.flatMap_cons, List.append_assoc, List.append_assoc] at h
      obtain ⟨rfl, htail⟩ := FieldTree.words_inj h (afterField_fields ts p rest) (afterField_fields ts' p' rest')
      obtain ⟨rfl, hp, hrest⟩ := ih htail
      exact ⟨rfl, hp, hrest⟩

theorem StructTree.words_inj {t t' : StructTree} (h : t.words ++ rest = t'.words ++ rest') : t = t' ∧ rest = rest' := by
  obtain ⟨keyword, name, position, left, fields, right, free, distinct⟩ := t
  obtain ⟨keyword', name', position', left', fields', right', free', distinct'⟩ := t'
  simp only [words, List.cons_append, List.append_assoc, List.nil_append, List.cons.injEq, Token.mk.injEq,
    Lexeme.name.injEq, true_and] at h
  obtain ⟨rfl, ⟨rfl, rfl⟩, rfl, hfields⟩ := h
  obtain ⟨rfl, rfl, hrest⟩ := fields_inj hfields
  exact ⟨rfl, hrest⟩

theorem structs_inj {ts ts' : List StructTree} (h : ts.flatMap StructTree.words = ts'.flatMap StructTree.words) :
    ts = ts' := by
  induction ts generalizing ts' with
  | nil =>
    cases ts' with
    | nil => rfl
    | cons t' ts' => simp [StructTree.words] at h
  | cons t ts ih =>
    cases ts' with
    | nil => simp [StructTree.words] at h
    | cons t' ts' =>
      rw [List.flatMap_cons, List.flatMap_cons] at h
      obtain ⟨rfl, htail⟩ := StructTree.words_inj h
      rw [ih htail]

/-- The derivation of a schema is unique. -/
theorem SchemaTree.eq_of_words {t t' : SchemaTree} (h : t.words = t'.words) : t = t' := by
  obtain ⟨structs, nonempty⟩ := t
  obtain ⟨structs', nonempty'⟩ := t'
  obtain rfl : structs = structs' := structs_inj h
  rfl

/-! ## The parser and the trees -/

theorem structs_iff_tree {ds : List (Declaration String)} : ds ≠ [] ∧ Structs fits ws ds ↔
    ∃ t : SchemaTree, t.words = ws ∧ t.declarations = ds ∧ t.Numbers fits := by
  rw [structs_iff]
  constructor
  · rintro ⟨hne, ts, hwords, rfl, hfits⟩
    exact ⟨⟨ts, fun h => hne (by rw [h, List.map_nil])⟩, hwords, rfl, hfits⟩
  · rintro ⟨t, hwords, rfl, hfits⟩
    exact ⟨fun h => t.nonempty (List.map_eq_nil_iff.1 h), t.structs, hwords, rfl, hfits⟩

/-- Every declared field is that of a tree among the words, in which the numbers can be read. -/
theorem exists_fieldTree {words : TokenList} {ds : List (Declaration String)} (h : words.declarations = .ok ds)
    {d : Declaration String} (hd : d ∈ ds) {f : FieldDeclaration String} (hf : f ∈ d.fields) :
    ∃ t : FieldTree, t.declaration = f ∧ t.words ⊆ words.tokens ∧ t.Numbers Text.Readable := by
  obtain ⟨tree, hwords, rfl, hread⟩ := structs_iff_tree.1 (TokenList.declarations_eq_ok.1 h)
  obtain ⟨s, hs, rfl⟩ := List.mem_map.1 hd
  obtain ⟨t, ht, rfl⟩ := List.mem_map.1 hf
  refine ⟨t, rfl, fun w hw => ?_, hread s hs t ht⟩
  rw [← hwords]
  refine List.mem_flatMap.2 ⟨s, hs, ?_⟩
  have hfields : w ∈ s.fields.flatMap FieldTree.words := List.mem_flatMap.2 ⟨t, ht, hw⟩
  simp [StructTree.words, hfields]

/-- The parser accepts exactly the words of a tree, of which there is only one, if the numbers in it can be read, and
returns what the tree declares. All other words are refused, with a fault at one of them or at the end, unless the
parser comes to a number among them that is too long; and that is how it fails for a tree. -/
theorem parser_follows_grammar (words : TokenList) :
    (∀ ds, words.declarations = .ok ds ↔
      ∃ t : SchemaTree, t.words = words.tokens ∧ t.declarations = ds ∧ t.Numbers Text.Readable) ∧
    (∀ t t' : SchemaTree, t.words = words.tokens → t'.words = words.tokens → t = t') ∧
    ((∀ t : SchemaTree, t.words ≠ words.tokens) →
      (∃ e, words.declarations = .error (.error e) ∧ e.LiesIn words) ∨
        ∃ n, words.declarations = .error (.escaped (.unreadable n)) ∧ words.HasTooLong n) ∧
    ∀ t : SchemaTree, t.words = words.tokens → ¬ t.Numbers Text.Readable →
      ∃ n, words.declarations = .error (.escaped (.unreadable n)) ∧ words.HasTooLong n := by
  have hok : ∀ ds, words.declarations = .ok ds ↔
      ∃ t : SchemaTree, t.words = words.tokens ∧ t.declarations = ds ∧ t.Numbers Text.Readable := fun ds => by
    rw [TokenList.declarations_eq_ok, structs_iff_tree]
  have hunique : ∀ t t' : SchemaTree, t.words = words.tokens → t'.words = words.tokens → t = t' :=
    fun t t' h h' => SchemaTree.eq_of_words (h.trans h'.symm)
  refine ⟨hok, hunique, fun h => ?_, fun t ht hlong => ?_⟩
  · cases hd : words.declarations with
    | ok ds =>
      obtain ⟨t, ht, -⟩ := (hok ds).1 hd
      exact absurd ht (h t)
    | error e =>
      cases e with
      | error e => exact .inl ⟨e, rfl, TokenList.declarations_liesIn hd⟩
      | escaped x =>
        obtain ⟨n, rfl, hn⟩ := TokenList.declarations_eq_escaped hd
        exact .inr ⟨n, rfl, hn⟩
  · obtain ⟨hne, hstructs⟩ := structs_iff_tree.2 ⟨t, ht, rfl, t.numbers_true⟩
    rcases TokenList.declarations_yields hne hstructs with hd | ⟨-, n, hd⟩
    · obtain ⟨t', ht', -, hread⟩ := (hok _).1 hd
      exact absurd (hunique t' t ht' ht ▸ hread) hlong
    · obtain ⟨m, he, hm⟩ := TokenList.declarations_eq_escaped hd
      cases he
      exact ⟨n, hd, hm⟩

end Derivation

end BinRecord
