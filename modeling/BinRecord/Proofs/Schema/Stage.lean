/-
The forms of schema text, and the stages in which it is read word by word. The forms are those of the grammar without
the rules that ask for more than the word itself: the fields of a struct may share names, and any name may stand for an
encoding. At each stage some words may come next and others may not; whatever has been read can be completed to a
schema, and a schema is just what the stages let through.
-/
import BinRecord.Proofs.Schema.Keyword
import BinRecord.Schema.Token

namespace BinRecord

/-! ## Forms -/

namespace Form

/-- What may stand after the width of a type. -/
inductive Encoded : List Lexeme → Prop
  | default : Encoded []
  | given (x : String) : Encoded [.mark ',', .name x]

/-- A type that is no array: of a family with a width, numeric of a width that there is, or a struct's name. -/
inductive Base : List Lexeme → Prop
  | sized (family : SizedFamily) {n : String} {ws : List Lexeme} : 0 < Text.decimalValue n.toList → Encoded ws →
      Base (.name family.keyword :: .mark '<' :: .figures n :: (ws ++ [.mark '>']))
  | numeric {x : String} {n : NumericName} {k : Primitive} : IsNumeric x n → n.Denotes k → Base [.name x]
  | struct {x : String} : ¬ IsBuiltInName x → Base [.name x]

/-- What may stand after a type to make it an array. -/
inductive Repeated : List Lexeme → Prop
  | single : Repeated []
  | times (n : String) : Repeated [.mark '[', .figures n, .mark ']']
  | toEnd : Repeated [.mark '[', .mark '+', .mark ']']

/-- What may stand after a field. -/
inductive Separator : List Lexeme → Prop
  | none : Separator []
  | comma : Separator [.mark ',']
  | semicolon : Separator [.mark ';']

/-- The fields of a struct. -/
inductive Fields : List Lexeme → Prop
  | nil : Fields []
  | cons (x : String) {base brackets sep fields : List Lexeme} : Base base → Repeated brackets → Separator sep →
      Fields fields → Fields (.name x :: .mark ':' :: (base ++ (brackets ++ (sep ++ fields))))

/-- Structs one after the other. -/
inductive Structs : List Lexeme → Prop
  | nil : Structs []
  | cons {x : String} {fields structs : List Lexeme} : ¬ IsBuiltInName x → Fields fields → Structs structs →
      Structs (.name "struct" :: .name x :: .mark '\x7b' :: (fields ++ .mark '\x7d' :: structs))

/-- A schema: one struct or more. -/
def Sentence (ws : List Lexeme) : Prop := Structs ws ∧ ws ≠ []

/-- What may stand after the opening brace of a struct, up to the end. -/
def Body (ws : List Lexeme) : Prop :=
  ∃ fields structs, ws = fields ++ .mark '\x7d' :: structs ∧ Fields fields ∧ Structs structs

/-- What may stand after the type of a field, up to the end. -/
def Rest (ws : List Lexeme) : Prop := ∃ sep body, ws = sep ++ body ∧ Separator sep ∧ Body body

/-- What may stand after the type of a field that is no array yet, up to the end. -/
def Typed (ws : List Lexeme) : Prop := ∃ brackets rest, ws = brackets ++ rest ∧ Repeated brackets ∧ Rest rest

end Form

/-! ## Stages -/

/-- How far the words of a schema have been read, by what was read last. -/
inductive Stage where
  | start
  | closed
  | structWord
  | structName
  | body
  | fieldName
  | colon
  | keyword
  | less
  | width
  | comma
  | encoding
  | typed
  | bracket
  | length
  | array
  deriving DecidableEq

namespace Stage

/-- The stage after a type name; none if the name is that of a numeric type that there is not. -/
def named (x : String) : Option Stage :=
  match SizedFamily.ofName? x, NumericName.ofName? x with
  | some _, _ => some keyword
  | none, some n => (n.family.primitive? n.bits n.order).map fun _ => typed
  | none, none => some typed

/-- The stage after a word with which a field starts. -/
def atField : Lexeme → Option Stage
  | .name _ => some fieldName
  | _ => none

/-- The stage after one more word in the body of a struct, where a field may come. -/
def inBody (l : Lexeme) : Option Stage := if l = .mark '\x7d' then some closed else atField l

/-- The stage after one more word behind a field. -/
def afterField (l : Lexeme) : Option Stage := if l = .mark ',' ∨ l = .mark ';' then some body else inBody l

/-- The stage after the figures that say how long an array is. -/
def inBrackets : Lexeme → Option Stage
  | .figures _ => some length
  | _ => none

/-- The stage after the bracket that closes what stands behind a keyword. -/
def atClose (l : Lexeme) : Option Stage := if l = .mark '>' then some typed else none

/-- The stage after one more word; none if the word may not stand there. -/
def next : Stage → Lexeme → Option Stage
  | start, l | closed, l => if l = .name "struct" then some structWord else none
  | structWord, .name x => if isBuiltIn x then none else some structName
  | structName, l => if l = .mark '\x7b' then some body else none
  | body, l => inBody l
  | fieldName, l => if l = .mark ':' then some colon else none
  | colon, .name x => named x
  | keyword, l => if l = .mark '<' then some less else none
  | less, .figures n => if 0 < Text.decimalValue n.toList then some width else none
  | width, l => if l = .mark ',' then some comma else atClose l
  | comma, .name _ => some encoding
  | encoding, l => atClose l
  | typed, l => if l = .mark '[' then some bracket else afterField l
  | bracket, l => if l = .mark '+' then some length else inBrackets l
  | length, l => if l = .mark ']' then some array else none
  | array, l => afterField l
  | structWord, _ | colon, _ | less, _ | comma, _ => none

/-- The stage after some words. -/
def after (p : Stage) : List Lexeme → Option Stage
  | [] => some p
  | l :: ls => (p.next l).bind fun q => q.after ls

/-- The words that lead from a stage to the end of a schema. -/
inductive Completes : Stage → List Lexeme → Prop
  | closed : Completes closed []
  | step {p q : Stage} {l : Lexeme} {ws : List Lexeme} : p.next l = some q → Completes q ws → Completes p (l :: ws)

variable {p q : Stage} {l : Lexeme} {us ws : List Lexeme}

theorem after_append (p : Stage) (us ws : List Lexeme) : p.after (us ++ ws) = (p.after us).bind (·.after ws) := by
  induction us generalizing p with
  | nil => rfl
  | cons l us ih =>
    rw [List.cons_append, after, after]
    cases p.next l with
    | none => rfl
    | some q => exact ih q

theorem completes_cons_iff : p.Completes (l :: ws) ↔ ∃ q, p.next l = some q ∧ q.Completes ws := by
  constructor
  · intro h
    cases h with
    | step hnext hws => exact ⟨_, hnext, hws⟩
  · rintro ⟨q, hnext, hws⟩
    exact .step hnext hws

theorem completes_append_iff : p.Completes (us ++ ws) ↔ ∃ q, p.after us = some q ∧ q.Completes ws := by
  induction us generalizing p with
  | nil => simp [after]
  | cons l us ih =>
    rw [List.cons_append, completes_cons_iff, after]
    simp only [ih, Option.bind_eq_some_iff]
    constructor
    · rintro ⟨r, hr, q, hq, hws⟩
      exact ⟨q, ⟨r, hr, hq⟩, hws⟩
    · rintro ⟨q, ⟨r, hr, hq⟩, hws⟩
      exact ⟨r, hr, q, hq, hws⟩

theorem completes_nil_iff : p.Completes [] ↔ p = closed := by
  constructor
  · intro h
    cases h
    rfl
  · rintro rfl
    exact .closed

/-- The words that can stand from a stage on, said by forms. -/
def Awaits : Stage → List Lexeme → Prop
  | start => Form.Sentence
  | closed => Form.Structs
  | structWord => fun ws => ∃ x body, ws = .name x :: .mark '\x7b' :: body ∧ ¬ IsBuiltInName x ∧ Form.Body body
  | structName => fun ws => ∃ body, ws = .mark '\x7b' :: body ∧ Form.Body body
  | body => Form.Body
  | fieldName => fun ws => ∃ base rest, ws = .mark ':' :: (base ++ rest) ∧ Form.Base base ∧ Form.Typed rest
  | colon => fun ws => ∃ base rest, ws = base ++ rest ∧ Form.Base base ∧ Form.Typed rest
  | keyword => fun ws => ∃ n enc rest, ws = .mark '<' :: .figures n :: (enc ++ .mark '>' :: rest) ∧
      0 < Text.decimalValue n.toList ∧ Form.Encoded enc ∧ Form.Typed rest
  | less => fun ws => ∃ n enc rest, ws = .figures n :: (enc ++ .mark '>' :: rest) ∧
      0 < Text.decimalValue n.toList ∧ Form.Encoded enc ∧ Form.Typed rest
  | width => fun ws => ∃ enc rest, ws = enc ++ .mark '>' :: rest ∧ Form.Encoded enc ∧ Form.Typed rest
  | comma => fun ws => ∃ x rest, ws = .name x :: .mark '>' :: rest ∧ Form.Typed rest
  | encoding => fun ws => ∃ rest, ws = .mark '>' :: rest ∧ Form.Typed rest
  | typed => Form.Typed
  | bracket => fun ws => ∃ l rest, ws = l :: .mark ']' :: rest ∧ (l = .mark '+' ∨ ∃ n, l = .figures n) ∧ Form.Rest rest
  | length => fun ws => ∃ rest, ws = .mark ']' :: rest ∧ Form.Rest rest
  | array => Form.Rest

/-! ## The forms lead to the end -/

theorem named_keyword (family : SizedFamily) : named family.keyword = some keyword := by
  rw [named, ofName?_eq_some_iff.2 rfl]

theorem named_numeric {x : String} {n : NumericName} {k : Primitive} (hx : IsNumeric x n) (hn : n.Denotes k) :
    named x = some typed := by
  have hfamily : SizedFamily.ofName? x = none := by
    cases hf : SizedFamily.ofName? x with
    | none => rfl
    | some family => exact absurd (ofName?_eq_some_iff.1 hf ▸ hx) (not_isNumeric_keyword family n)
  rw [named, hfamily, ofName?_eq_some_numeric.2 hx]
  show (n.family.primitive? n.bits n.order).map _ = _
  rw [primitive?_eq_some_iff.2 hn]
  rfl

theorem named_struct {x : String} (hx : ¬ IsBuiltInName x) : named x = some typed := by
  have hfamily : SizedFamily.ofName? x = none := by
    cases hf : SizedFamily.ofName? x with
    | none => rfl
    | some family => exact absurd (.inl ⟨family, ofName?_eq_some_iff.1 hf⟩) hx
  have hnumeric : NumericName.ofName? x = none := by
    cases hn : NumericName.ofName? x with
    | none => rfl
    | some n => exact absurd (.inr ⟨n, ofName?_eq_some_numeric.1 hn⟩) hx
  rw [named, hfamily, hnumeric]

theorem completes_base {base rest : List Lexeme} (h : Form.Base base) (hrest : typed.Completes rest) :
    colon.Completes (base ++ rest) := by
  cases h with
  | @sized family n enc hn henc =>
    refine .step (named_keyword family) (.step rfl (.step (if_pos hn) ?_))
    cases henc with
    | default => exact .step rfl hrest
    | given x => exact .step rfl (.step rfl (.step rfl hrest))
  | numeric hx hn => exact .step (named_numeric hx hn) hrest
  | struct hx => exact .step (named_struct hx) hrest

/-- What may come next in a body may come next behind a field. -/
theorem next_array (h : body.next l = some q) : array.next l = some q := by
  have hsep : ¬ (l = .mark ',' ∨ l = .mark ';') := by
    rintro (rfl | rfl) <;> cases h
  exact (if_neg hsep).trans h

/-- What may come next behind a field may come next behind its type. -/
theorem next_typed (h : array.next l = some q) : typed.next l = some q := by
  have hbracket : l ≠ .mark '[' := by
    rintro rfl
    cases h
  exact (if_neg hbracket).trans h

theorem completes_separator {sep rest : List Lexeme} (h : Form.Separator sep) (hrest : body.Completes rest) :
    array.Completes (sep ++ rest) := by
  cases h with
  | none =>
    cases hrest with
    | step hnext hws => exact .step (next_array hnext) hws
  | comma => exact .step rfl hrest
  | semicolon => exact .step rfl hrest

theorem completes_repeated {brackets rest : List Lexeme} (h : Form.Repeated brackets) (hrest : array.Completes rest) :
    typed.Completes (brackets ++ rest) := by
  cases h with
  | single =>
    cases hrest with
    | step hnext hws => exact .step (next_typed hnext) hws
  | times n => exact .step rfl (.step rfl (.step rfl hrest))
  | toEnd => exact .step rfl (.step rfl (.step rfl hrest))

theorem completes_fields {fields rest : List Lexeme} (h : Form.Fields fields) (hrest : body.Completes rest) :
    body.Completes (fields ++ rest) := by
  induction h with
  | nil => exact hrest
  | cons x hbase hbrackets hsep _ ih =>
    simp only [List.cons_append, List.append_assoc]
    exact .step rfl (.step rfl (completes_base hbase (completes_repeated hbrackets (completes_separator hsep ih))))

theorem completes_structs (h : Form.Structs ws) : closed.Completes ws := by
  induction h with
  | nil => exact .closed
  | cons hx hfields _ ih =>
    have hname : structWord.next (.name _) = some structName := if_neg (by rwa [isBuiltIn_eq_true_iff])
    exact .step rfl (.step hname (.step rfl (completes_fields hfields (.step rfl ih))))

/-! ## And nothing else does -/

theorem base_of_named {x : String} (h : named x = some q) :
    (q = keyword ∧ ∃ family : SizedFamily, x = family.keyword) ∨ (q = typed ∧ Form.Base [.name x]) := by
  unfold named at h
  split at h
  · rename_i family hf
    cases h
    exact .inl ⟨rfl, family, ofName?_eq_some_iff.1 hf⟩
  · rename_i n hf hn
    obtain ⟨k, hk, rfl⟩ := Option.map_eq_some_iff.1 h
    exact .inr ⟨rfl, .numeric (ofName?_eq_some_numeric.1 hn) (primitive?_eq_some_iff.1 hk)⟩
  · rename_i hf hn
    cases h
    refine .inr ⟨rfl, .struct ?_⟩
    rw [← isBuiltIn_eq_false_iff, isBuiltIn, hf, hn]
    rfl

theorem body_of_inBody (hnext : inBody l = some q) (h : q.Awaits ws) : Form.Body (l :: ws) := by
  by_cases hl : l = .mark '\x7d'
  · subst hl
    cases hnext
    exact ⟨[], ws, rfl, .nil, h⟩
  · replace hnext := (if_neg hl).symm.trans hnext
    cases l with
    | name x =>
      cases hnext
      obtain ⟨base, rest, rfl, hbase, brackets, rest, rfl, hbrackets, sep, body, rfl, hsep, fields, structs, rfl,
        hfields, hstructs⟩ := h
      exact ⟨_, structs, by simp, .cons x hbase hbrackets hsep hfields, hstructs⟩
    | figures n => cases hnext
    | mark c => cases hnext

theorem rest_of_afterField (hnext : afterField l = some q) (h : q.Awaits ws) : Form.Rest (l :: ws) := by
  unfold afterField at hnext
  split at hnext
  · rename_i hsep
    cases hnext
    rcases hsep with rfl | rfl
    · exact ⟨[_], ws, rfl, .comma, h⟩
    · exact ⟨[_], ws, rfl, .semicolon, h⟩
  · exact ⟨[], _, rfl, .none, body_of_inBody hnext h⟩

theorem eq_of_ite {c : Prop} [Decidable c] (h : (if c then some p else none) = some q) : c ∧ p = q :=
  (Option.ite_none_right_eq_some.1 h).imp_right Option.some.inj

/-- A word that may come next, before words that are awaited then, makes up words that are awaited now. -/
theorem awaits_step (hnext : p.next l = some q) (h : q.Awaits ws) : p.Awaits (l :: ws) := by
  cases p with
  | start =>
    obtain ⟨rfl, rfl⟩ := eq_of_ite hnext
    obtain ⟨x, _, rfl, hx, fields, structs, rfl, hfields, hstructs⟩ := h
    exact ⟨.cons hx hfields hstructs, List.cons_ne_nil _ _⟩
  | closed =>
    obtain ⟨rfl, rfl⟩ := eq_of_ite hnext
    obtain ⟨x, _, rfl, hx, fields, structs, rfl, hfields, hstructs⟩ := h
    exact .cons hx hfields hstructs
  | structWord =>
    cases l with
    | name x =>
      obtain ⟨hx, hq⟩ := Option.ite_none_left_eq_some.1 hnext
      cases hq
      obtain ⟨body, rfl, hbody⟩ := h
      exact ⟨x, body, rfl, mt isBuiltIn_eq_true_iff.2 hx, hbody⟩
    | figures n => cases hnext
    | mark c => cases hnext
  | structName =>
    obtain ⟨rfl, rfl⟩ := eq_of_ite hnext
    exact ⟨ws, rfl, h⟩
  | body => exact body_of_inBody hnext h
  | fieldName =>
    obtain ⟨rfl, rfl⟩ := eq_of_ite hnext
    obtain ⟨base, rest, rfl, hbase, hrest⟩ := h
    exact ⟨base, rest, rfl, hbase, hrest⟩
  | colon =>
    cases l with
    | name x =>
      rcases base_of_named hnext with ⟨rfl, family, rfl⟩ | ⟨rfl, hbase⟩
      · obtain ⟨n, enc, rest, rfl, hn, henc, hrest⟩ := h
        exact ⟨_, rest, by simp, .sized family hn henc, hrest⟩
      · exact ⟨_, ws, rfl, hbase, h⟩
    | figures n => cases hnext
    | mark c => cases hnext
  | keyword =>
    obtain ⟨rfl, rfl⟩ := eq_of_ite hnext
    obtain ⟨n, enc, rest, rfl, hn, henc, hrest⟩ := h
    exact ⟨n, enc, rest, rfl, hn, henc, hrest⟩
  | less =>
    cases l with
    | name x => cases hnext
    | figures n =>
      obtain ⟨hn, rfl⟩ := eq_of_ite hnext
      obtain ⟨enc, rest, rfl, henc, hrest⟩ := h
      exact ⟨n, enc, rest, rfl, hn, henc, hrest⟩
    | mark c => cases hnext
  | width =>
    by_cases hl : l = .mark ','
    · subst hl
      cases hnext
      obtain ⟨x, rest, rfl, hrest⟩ := h
      exact ⟨_, rest, rfl, .given x, hrest⟩
    · obtain ⟨rfl, rfl⟩ := eq_of_ite ((if_neg hl).symm.trans hnext)
      exact ⟨[], ws, rfl, .default, h⟩
  | comma =>
    cases l with
    | name x =>
      cases hnext
      obtain ⟨rest, rfl, hrest⟩ := h
      exact ⟨x, rest, rfl, hrest⟩
    | figures n => cases hnext
    | mark c => cases hnext
  | encoding =>
    obtain ⟨rfl, rfl⟩ := eq_of_ite hnext
    exact ⟨ws, rfl, h⟩
  | typed =>
    by_cases hl : l = .mark '['
    · subst hl
      cases hnext
      obtain ⟨l, rest, rfl, rfl | ⟨n, rfl⟩, hrest⟩ := h
      · exact ⟨_, rest, rfl, .toEnd, hrest⟩
      · exact ⟨_, rest, rfl, .times n, hrest⟩
    · exact ⟨[], _, rfl, .single, rest_of_afterField ((if_neg hl).symm.trans hnext) h⟩
  | bracket =>
    by_cases hl : l = .mark '+'
    · subst hl
      cases hnext
      obtain ⟨rest, rfl, hrest⟩ := h
      exact ⟨_, rest, rfl, .inl rfl, hrest⟩
    · replace hnext := (if_neg hl).symm.trans hnext
      cases l with
      | name x => cases hnext
      | figures n =>
        cases hnext
        obtain ⟨rest, rfl, hrest⟩ := h
        exact ⟨_, rest, rfl, .inr ⟨n, rfl⟩, hrest⟩
      | mark c => cases hnext
  | length =>
    obtain ⟨rfl, rfl⟩ := eq_of_ite hnext
    exact ⟨ws, rfl, h⟩
  | array => exact rest_of_afterField hnext h

theorem awaits_of_completes (h : p.Completes ws) : p.Awaits ws := by
  induction h with
  | closed => exact .nil
  | step hnext _ ih => exact awaits_step hnext ih

/-- The schemas are the words that lead from the start to the end. -/
theorem sentence_iff : Form.Sentence ws ↔ start.Completes ws := by
  refine ⟨?_, awaits_of_completes⟩
  rintro ⟨h, hne⟩
  cases completes_structs h with
  | closed => exact absurd rfl hne
  | step hnext hws => exact .step hnext hws

/-- From every stage some words lead to the end. -/
theorem exists_completes (p : Stage) : ∃ ws, p.Completes ws := by
  have hbody : body.Completes [.mark '\x7d'] := .step rfl .closed
  have harray : array.Completes [.mark '\x7d'] := .step rfl .closed
  have htyped : typed.Completes [.mark '\x7d'] := .step rfl .closed
  have hlength : length.Completes [.mark ']', .mark '\x7d'] := .step rfl harray
  have hwidth : width.Completes [.mark '>', .mark '\x7d'] := .step rfl htyped
  have hencoding : encoding.Completes [.mark '>', .mark '\x7d'] := .step rfl htyped
  have hless : less.Completes [.figures "1", .mark '>', .mark '\x7d'] := .step (by decide +kernel) hwidth
  have hcolon : colon.Completes [.name "U8", .mark '\x7d'] := .step (by decide +kernel) htyped
  have hname : structName.Completes [.mark '\x7b', .mark '\x7d'] := .step rfl hbody
  have hword : structWord.Completes [.name "A", .mark '\x7b', .mark '\x7d'] := .step (by decide +kernel) hname
  cases p with
  | start => exact ⟨.name "struct" :: _, .step rfl hword⟩
  | closed => exact ⟨[], .closed⟩
  | structWord => exact ⟨_, hword⟩
  | structName => exact ⟨_, hname⟩
  | body => exact ⟨_, hbody⟩
  | fieldName => exact ⟨.mark ':' :: _, .step rfl hcolon⟩
  | colon => exact ⟨_, hcolon⟩
  | keyword => exact ⟨.mark '<' :: _, .step rfl hless⟩
  | less => exact ⟨_, hless⟩
  | width => exact ⟨_, hwidth⟩
  | comma => exact ⟨.name "A" :: _, .step rfl hencoding⟩
  | encoding => exact ⟨_, hencoding⟩
  | typed => exact ⟨_, htyped⟩
  | bracket => exact ⟨.mark '+' :: _, .step rfl hlength⟩
  | length => exact ⟨_, hlength⟩
  | array => exact ⟨_, harray⟩

/-! ## What has been read -/

theorem sentence_append_iff (h : start.after us = some q) : Form.Sentence (us ++ ws) ↔ q.Completes ws := by
  rw [sentence_iff, completes_append_iff, h]
  simp

/-- Words that have led to a stage can be completed to a schema. -/
theorem exists_sentence (h : start.after us = some q) : ∃ ws, Form.Sentence (us ++ ws) :=
  (exists_completes q).imp fun _ => (sentence_append_iff h).2

/-- No schema goes on with a word that may not come next. -/
theorem not_sentence_of_next (h : start.after us = some q) (hl : q.next l = none) (ws : List Lexeme) :
    ¬ Form.Sentence (us ++ l :: ws) := by
  rw [sentence_append_iff h, completes_cons_iff, hl]
  simp

/-- Words that have not led to the end of a struct are no schema. -/
theorem not_sentence_of_ne_closed (h : start.after us = some q) (hq : q ≠ closed) : ¬ Form.Sentence us := by
  rw [← List.append_nil us, sentence_append_iff h, completes_nil_iff]
  exact hq

end Stage

end BinRecord
