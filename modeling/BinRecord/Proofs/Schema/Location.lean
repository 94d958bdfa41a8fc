/-
Where the parser stops. It goes through the stages of reading a schema, and reads nothing behind the first word that
may not stand where it does: the words before such a word have led to a stage, and this word does not come next there.
So a fault lies at one of the words, or at the place where the text ends. Where the parser does not get that far, it has
come to a number among the words that is too long to be read.
-/
import BinRecord.Proofs.Schema.Grammar
import BinRecord.Proofs.Schema.Stage

namespace BinRecord

/-- Whether a fault is that of a word that may not stand where it does. -/
def SchemaFault.isUnexpected : SchemaFault → Bool
  | unexpectedToken .. | builtInName _ | notFigures .. => true
  | _ => false

theorem SchemaFault.isUnexpected_iff {x : SchemaFault} :
    x.isUnexpected = true ↔ x.kind = .unexpectedToken ∨ ∃ expected found, x = .notFigures expected found := by
  cases x <;> simp [isUnexpected, kind]

/-- A word of which the parser reads more figures than can be read: a number, or the name of a numeric type. -/
inductive TooLong : Lexeme → Nat → Prop
  | figures {x : String} : ¬ Text.Readable x.toList → TooLong (.figures x) x.toList.length
  | numeric {x : String} {n : NumericName} : IsNumeric x n → ¬ Text.Readable n.figures →
      TooLong (.name x) n.figures.length

/-- One of the words has so many figures that it cannot be read. -/
def TokenList.HasTooLong (words : TokenList) (n : Nat) : Prop := ∃ t ∈ words.tokens, TooLong t.lexeme n

/-- How the words of a text fail to be declarations: a word may not stand where it does, words are missing at the end,
a word says what there is not, a field has the name of one before it in its struct, or there are no words. -/
inductive SyntaxError [Codecs] (words : TokenList) : SchemaError → Prop
  | wrong {before after : List Token} {t : Token} {q : Stage} {x : SchemaFault} : words.tokens = before ++ t :: after →
      Stage.start.after (before.map (·.lexeme)) = some q → q.next t.lexeme = none → x.isUnexpected = true →
      SyntaxError words ⟨x, some t.position, none⟩
  | ended {q : Stage} (expected : Expectation) : Stage.start.after (words.tokens.map (·.lexeme)) = some q →
      q ≠ .closed → SyntaxError words ⟨.unexpectedEnd expected, some words.finish, none⟩
  | malformed {t : Token} {x : SchemaFault} : t ∈ words.tokens → x.kind = .malformedLiteral → x.isUnexpected = false →
      SyntaxError words ⟨x, some t.position, none⟩
  | repeated {before us ws after : List Token} {x : String} {fs : List (FieldDeclaration String)}
      {f g : FieldDeclaration String} (p q r : TextPosition) :
      words.tokens = before ++
        (⟨.name "struct", p⟩ :: ⟨.name x, q⟩ :: ⟨.mark '\x7b', r⟩ :: (us ++ (ws ++ after))) →
      Grammar.Fields Text.Readable us fs → Grammar.Field Text.Readable ws f → g ∈ fs → g.name = f.name →
      SyntaxError words ⟨.duplicateField f.name x g.position, some f.position, none⟩
  | empty : words.tokens = [] → SyntaxError words ⟨.emptySchema, some words.finish, none⟩

namespace Parse

variable {α β : Type} {words : TokenList} {ts : List Token} {p q : Stage} {next : Lexeme → Option Stage}

/-- The words before these have led to a stage. -/
def At (words : TokenList) (p : Stage) (ts : List Token) : Prop :=
  ∃ us, words.tokens = us ++ ts ∧ Stage.start.after (us.map (·.lexeme)) = some p

/-- The words before these have led to a stage that is not the last, and at which `next` says what the first of these
may be. -/
def Before (words : TokenList) (next : Lexeme → Option Stage) (ts : List Token) : Prop :=
  ∃ p, At words p ts ∧ p ≠ .closed ∧ ∀ t ∈ ts.head?, p.next t.lexeme = next t.lexeme

/-- Where a mark does not stand, what may come instead of it may come. -/
theorem Before.other {c : Char} {next' : Lexeme → Option Stage} (h : Before words next ts)
    (hnext : ∀ l, l ≠ .mark c → next l = next' l) (hc : atMark c ts = false) : Before words next' ts := by
  obtain ⟨p, hp, hopen, hp'⟩ := h
  refine ⟨p, hp, hopen, fun t ht => (hp' t ht).trans (hnext _ ?_)⟩
  obtain ⟨us, rfl⟩ := List.head?_eq_some_iff.1 ht
  simpa [atMark] using hc

theorem At.before (h : At words p ts) (hp : p ≠ .closed) : Before words p.next ts :=
  ⟨p, h, hp, fun _ _ => rfl⟩

theorem At.mem {t : Token} (h : At words p (t :: ts)) : t ∈ words.tokens := by
  obtain ⟨us, hus, -⟩ := h
  rw [hus]
  simp

theorem At.step {t : Token} (h : At words p (t :: ts)) (ht : p.next t.lexeme = some q) : At words q ts := by
  obtain ⟨us, hus, hp⟩ := h
  refine ⟨us ++ [t], by rw [hus, List.append_assoc, List.singleton_append], ?_⟩
  rw [List.map_append, Stage.after_append, hp]
  show (p.next t.lexeme).bind _ = _
  rw [ht]
  rfl

theorem Before.step {t : Token} (h : Before words next (t :: ts)) (ht : next t.lexeme = some q) : At words q ts := by
  obtain ⟨p, hp, -, hnext⟩ := h
  exact hp.step ((hnext t rfl).trans ht)

theorem Before.mem {t : Token} (h : Before words next (t :: ts)) : t ∈ words.tokens := by
  obtain ⟨p, hp, -⟩ := h
  exact hp.mem

theorem separator_before (h : Before words Stage.afterField ts) : Before words Stage.inBody (separator ts) := by
  unfold separator
  split
  · rename_i hm
    rw [Bool.or_eq_true, atMark_iff, atMark_iff] at hm
    rcases hm with ⟨r, us, rfl⟩ | ⟨r, us, rfl⟩
    · exact (h.step rfl).before (by decide)
    · exact (h.step rfl).before (by decide)
  · rename_i hm
    rw [Bool.or_eq_true, not_or, Bool.not_eq_true, Bool.not_eq_true] at hm
    have hcomma : Before words (fun l => if l = .mark ';' then some .body else Stage.inBody l) ts :=
      h.other (fun l hl => by simp only [Stage.afterField, hl, false_or]) hm.1
    exact hcomma.other (fun l hl => if_neg hl) hm.2

variable [Codecs]

/-- What a parser has come to: a fault in the words, a number that is too long, or something read and words left of
which `P` holds. -/
def Reads (words : TokenList) (P : List Token → Prop) : Except SchemaFailure (α × List Token) → Prop
  | .error (.error e) => SyntaxError words e
  | .error (.escaped x) => ∃ n, x = .unreadable n ∧ words.HasTooLong n
  | .ok (_, rest) => P rest

theorem Reads.bind {P Q : List Token → Prop} {x : Except SchemaFailure (α × List Token)}
    {f : α × List Token → Except SchemaFailure (β × List Token)} (hx : Reads words P x)
    (hf : ∀ a rest, x = .ok (a, rest) → P rest → Reads words Q (f (a, rest))) : Reads words Q (x >>= f) := by
  rcases x with (e | e) | r
  · exact hx
  · exact hx
  · exact hf r.1 r.2 rfl hx

theorem Before.wrong {t : Token} {x : SchemaFault} (h : Before words next (t :: ts)) (ht : next t.lexeme = none)
    (hx : x.isUnexpected = true) : SyntaxError words ⟨x, some t.position, none⟩ := by
  obtain ⟨p, ⟨us, hus, hp⟩, -, hnext⟩ := h
  exact .wrong hus hp ((hnext t rfl).trans ht) hx

/-! ## Words -/

theorem Before.unexpected (h : Before words next ts) (expected : Expectation)
    (hnone : ∀ t ∈ ts.head?, next t.lexeme = none) : SyntaxError words (unexpected words.finish expected ts) := by
  cases ts with
  | nil =>
    obtain ⟨p, ⟨us, hus, hp⟩, hopen, -⟩ := h
    rw [List.append_nil] at hus
    exact .ended expected (hus ▸ hp) hopen
  | cons t ts => exact h.wrong (hnone t rfl) rfl

theorem mark_reads {c : Char} (h : Before words next ts) (hc : next (.mark c) = some q)
    (hother : ∀ l, l ≠ .mark c → next l = none) : Reads words (At words q) (mark words.finish c ts) := by
  unfold mark
  split
  · rename_i d position rest
    split
    · rename_i hd
      exact h.step (by rw [hd]; exact hc)
    · rename_i hd
      refine h.unexpected _ fun t ht => hother _ ?_
      cases ht
      simpa using hd
  · rename_i hno
    refine h.unexpected _ fun t ht => hother _ fun hl => ?_
    obtain ⟨us, rfl⟩ := List.head?_eq_some_iff.1 ht
    obtain ⟨l, position⟩ := t
    exact hno c position us (by rw [← hl])

theorem name_reads {expected : Expectation} (h : Before words next ts) (hfigures : ∀ n, next (.figures n) = none)
    (hmark : ∀ c, next (.mark c) = none) : Reads words (fun _ => True) (name words.finish expected ts) := by
  unfold name
  split
  · trivial
  · rename_i hno
    refine h.unexpected _ fun t ht => ?_
    obtain ⟨us, rfl⟩ := List.head?_eq_some_iff.1 ht
    obtain ⟨l, position⟩ := t
    cases l with
    | name x => exact absurd rfl (hno x position us)
    | figures n => exact hfigures n
    | mark c => exact hmark c

theorem figures_reads {expected : Expectation} (h : Before words next ts) (hname : ∀ x, next (.name x) = none)
    (hmark : ∀ c, next (.mark c) = none) : Reads words (fun _ => True) (figures words.finish expected ts) := by
  unfold figures
  split
  · rename_i x position rest
    cases hx : (Text.readDecimal x.toList : Except SchemaFailure Nat) with
    | ok n => trivial
    | error e =>
      obtain ⟨hlong, rfl⟩ := Text.readDecimal_eq_error.1 hx
      exact ⟨_, rfl, _, h.mem, .figures hlong⟩
  · exact h.unexpected _ (by simp)
  · rename_i t us hno
    obtain ⟨l, position⟩ := t
    cases l with
    | name x => exact h.wrong (hname x) rfl
    | figures n => exact absurd rfl (hno n position)
    | mark c => exact h.wrong (hmark c) rfl

/-! ## Types and fields -/

theorem encoding_reads (family : SizedFamily) (keyword : String) (h : At words .width ts) :
    Reads words (Before words Stage.atClose) (encoding words.finish family keyword ts) := by
  unfold encoding
  split
  · rename_i hm
    obtain ⟨r, us, rfl⟩ := atMark_iff.1 hm
    have hcomma : At words .comma us := h.step rfl
    refine (name_reads (hcomma.before (by decide)) (fun _ => rfl) fun _ => rfl).bind ?_
    rintro ⟨x, s⟩ rest hx -
    obtain rfl := name_eq_ok.1 hx
    dsimp only
    split
    · split
      · exact (hcomma.step rfl).before (by decide)
      · exact .malformed hcomma.mem rfl rfl
      · exact .malformed hcomma.mem rfl rfl
    · exact .malformed hcomma.mem rfl rfl
  · rename_i hm
    exact (h.before (by decide)).other (fun l hl => if_neg hl) (by simpa using hm)

theorem sizedType_reads (family : SizedFamily) {keyword : String} {position : TextPosition}
    (hword : ⟨.name keyword, position⟩ ∈ words.tokens) (h : At words .keyword ts) :
    Reads words (At words .typed) (sizedType words.finish family keyword position ts) := by
  unfold sizedType
  refine (mark_reads (h.before (by decide)) rfl fun l hl => if_neg hl).bind fun _ ts₁ _ h₁ => ?_
  refine (figures_reads (h₁.before (by decide)) (fun _ => rfl) fun _ => rfl).bind fun n ts₂ hn _ => ?_
  obtain ⟨x, r, rfl, -, rfl⟩ := figures_eq_ok.1 hn
  dsimp only
  split
  · rename_i hpos
    have h₂ : At words .width ts₂ := h₁.step (if_pos hpos)
    refine (encoding_reads family keyword h₂).bind fun e ts₃ _ h₃ => ?_
    refine (mark_reads h₃ rfl fun l hl => if_neg hl).bind fun _ ts₄ _ h₄ => ?_
    cases family <;> exact h₄
  · exact .malformed hword rfl rfl

theorem baseType_reads (h : At words .colon ts) : Reads words (At words .typed) (baseType words.finish ts) := by
  unfold baseType
  refine (name_reads (h.before (by decide)) (fun _ => rfl) fun _ => rfl).bind ?_
  rintro ⟨x, r⟩ rest hx -
  obtain rfl := name_eq_ok.1 hx
  dsimp only
  split
  · rename_i family hf
    have hkeyword : At words .keyword rest := h.step (by simp [Stage.next, Stage.named, hf])
    exact (sizedType_reads family h.mem hkeyword).bind fun _ _ _ hlast => hlast
  · rename_i hf
    split
    · rename_i hn
      exact h.step (by simp [Stage.next, Stage.named, hf, hn])
    · rename_i n hn
      cases hbits : (Text.readDecimal n.figures : Except SchemaFailure Nat) with
      | error e =>
        obtain ⟨hlong, rfl⟩ := Text.readDecimal_eq_error.1 hbits
        exact ⟨_, rfl, _, h.mem, .numeric (ofName?_eq_some_numeric.1 hn) hlong⟩
      | ok bits =>
        obtain ⟨-, rfl⟩ := Text.readDecimal_eq_ok.1 hbits
        dsimp only [bind, Except.bind]
        split
        · rename_i k hk
          exact h.step (by simp [Stage.next, Stage.named, hf, hn, NumericName.bits, hk])
        · exact .malformed h.mem rfl rfl

theorem arity_reads (h : At words .typed ts) :
    Reads words (Before words Stage.afterField) (arity words.finish ts) := by
  unfold arity
  split
  · rename_i hm
    obtain ⟨r, us, rfl⟩ := atMark_iff.1 hm
    refine Reads.bind (P := At words .bracket) (by rw [mark_eq_ok.2 rfl]; exact h.step rfl) fun _ ts₁ _ h₁ => ?_
    dsimp only
    split
    · rename_i hplus
      obtain ⟨s, vs, rfl⟩ := atMark_iff.1 hplus
      have hlength : At words .length vs := h₁.step rfl
      exact (mark_reads (hlength.before (by decide)) rfl fun l hl => if_neg hl).bind fun _ _ _ hlast =>
        At.before (p := .array) hlast (by decide)
    · rename_i hplus
      have hopen : Before words Stage.inBrackets ts₁ :=
        (h₁.before (by decide)).other (fun l hl => if_neg hl) (by simpa using hplus)
      refine (figures_reads hopen (fun _ => rfl) fun _ => rfl).bind fun n ts₂ hn _ => ?_
      obtain ⟨x, s, rfl, -, rfl⟩ := figures_eq_ok.1 hn
      have hlength : At words .length ts₂ := h₁.step rfl
      exact (mark_reads (hlength.before (by decide)) rfl fun l hl => if_neg hl).bind fun _ _ _ hlast =>
        At.before (p := .array) hlast (by decide)
  · rename_i hm
    exact (h.before (by decide)).other (fun l hl => if_neg hl) (by simpa using hm)

theorem field_reads (h : Before words Stage.atField ts) :
    Reads words (Before words Stage.afterField) (field words.finish ts) := by
  unfold field
  refine (name_reads h (fun _ => rfl) fun _ => rfl).bind ?_
  rintro ⟨x, r⟩ ts₁ hx -
  obtain rfl := name_eq_ok.1 hx
  have h₁ : At words .fieldName ts₁ := h.step rfl
  refine (mark_reads (h₁.before (by decide)) rfl fun l hl => if_neg hl).bind fun _ ts₂ _ h₂ => ?_
  exact (baseType_reads h₂).bind fun _ ts₃ _ h₃ => (arity_reads h₃).bind fun _ _ _ hlast => hlast

/-- The words before these begin a struct with the given name and fields. -/
def Within (words : TokenList) (x : String) (fs : List (FieldDeclaration String)) (ts : List Token) : Prop :=
  ∃ before p q r us, words.tokens =
    before ++ (⟨.name "struct", p⟩ :: ⟨.name x, q⟩ :: ⟨.mark '\x7b', r⟩ :: (us ++ ts)) ∧
      Grammar.Fields Text.Readable us fs

theorem Within.step {x : String} {fs : List (FieldDeclaration String)} {f : FieldDeclaration String}
    {ws rest : List Token} (h : Within words x fs (ws ++ rest)) (hf : Grammar.Field Text.Readable ws f) :
    Within words x (fs ++ [f]) (separator rest) := by
  obtain ⟨before, p, q, r, us, hus, hfs⟩ := h
  obtain ⟨sep, hsep, hrest⟩ := separator_eq rest
  refine ⟨before, p, q, r, us ++ (ws ++ sep), ?_, hfs.concat hf hsep⟩
  rw [hus]
  conv_lhs => rw [hrest]
  simp

theorem fields_reads {struct : String} {done : List (FieldDeclaration String)} (h : Before words Stage.inBody ts)
    (hin : Within words struct done.reverse ts) :
    Reads words (fun rest => Before words Stage.inBody rest ∧ atMark '\x7d' rest = true)
      (fields words.finish struct done ts) := by
  fun_induction fields words.finish struct done ts with
  | case1 done ts hm => exact ⟨h, hm⟩
  | case2 done ts hm e he =>
    have hfield := field_reads (h.other (fun l hl => if_neg hl) (by simpa using hm))
    rw [he] at hfield
    cases e <;> exact hfield
  | case3 done ts hm f rest hf first hfirst =>
    obtain ⟨ws, hws, rfl⟩ := field_sound hf
    obtain ⟨before, p, q, r, us, hus, hfs⟩ := hin
    have hname : first.name = f.name := by simpa using List.find?_some hfirst
    exact .repeated p q r hus hfs hws (List.mem_reverse.2 (List.mem_of_find?_eq_some hfirst)) hname
  | case4 done ts hm f rest hf _ ih =>
    have hfield := field_reads (h.other (fun l hl => if_neg hl) (by simpa using hm))
    rw [hf] at hfield
    obtain ⟨ws, hws, rfl⟩ := field_sound hf
    exact ih (separator_before hfield) (List.reverse_cons ▸ hin.step hws)

/-! ## Structs -/

theorem struct_reads {t : Token} (h : At words p (t :: ts)) (hp : p = .start ∨ p = .closed) :
    Reads words (At words .closed) (struct words.finish (t :: ts)) := by
  unfold struct
  split
  · rename_i r us hts
    have h₀ : At words .structWord us := by
      rcases hp with rfl | rfl
      · exact (hts ▸ h).step rfl
      · exact (hts ▸ h).step rfl
    refine (name_reads (h₀.before (by decide)) (fun _ => rfl) fun _ => rfl).bind ?_
    rintro ⟨x, s⟩ ts₁ hx -
    obtain rfl := name_eq_ok.1 hx
    dsimp only
    split
    · rename_i hb
      exact (h₀.before (by decide)).wrong (if_pos hb) rfl
    · rename_i hb
      have h₁ : At words .structName ts₁ := h₀.step (if_neg hb)
      refine (mark_reads (h₁.before (by decide)) rfl fun l hl => if_neg hl).bind fun r' ts₂ hbrace h₂ => ?_
      obtain rfl := mark_eq_ok.1 hbrace
      have hin : Within words x [] ts₂ := by
        obtain ⟨before, hbefore, -⟩ := h
        exact ⟨before, r, s, r', [], by rw [hbefore, hts]; rfl, .nil⟩
      refine (fields_reads (h₂.before (by decide)) hin).bind fun fs ts₃ _ h₃ => ?_
      obtain ⟨u, vs, rfl⟩ := atMark_iff.1 h₃.2
      rw [mark_eq_ok.2 rfl]
      exact h₃.1.step rfl
  · rename_i hno
    obtain ⟨before, hbefore, hafter⟩ := h
    refine .wrong hbefore hafter ?_ rfl
    have hword : t.lexeme ≠ .name "struct" := fun hl => hno t.position ts (by rw [← hl])
    rcases hp with rfl | rfl
    · exact if_neg hword
    · exact if_neg hword

theorem structs_eq_error (α : Type) {done : List (Declaration String)} {e : SchemaFailure} (h : At words p ts)
    (hp : p = .start ∨ p = .closed) (he : structs words.finish done ts = .error e) :
    Reads words (fun _ => False) (.error e : Except SchemaFailure (α × List Token)) := by
  fun_induction structs words.finish done ts generalizing p with
  | case1 done => cases he
  | case2 done t ts e' he' =>
    have hstruct := struct_reads h hp
    rw [he'] at hstruct
    cases he
    cases e <;> exact hstruct
  | case3 done t ts d rest hd ih =>
    have hstruct := struct_reads h hp
    rw [hd] at hstruct
    exact ih hstruct (.inr rfl) he

end Parse

variable [Codecs] {words : TokenList}

/-- The parser fails in one of these ways. -/
theorem TokenList.declarations_eq_error {e : SchemaError} (h : words.declarations = .error (.error e)) :
    SyntaxError words e := by
  unfold TokenList.declarations at h
  split at h
  · rename_i hnone
    cases h
    obtain ⟨new, hnew, he⟩ := Parse.structs_sound hnone
    obtain rfl : [] = new := he
    generalize hts : words.tokens = ts at hnew
    cases hnew
    exact .empty hts
  · exact Parse.structs_eq_error Unit ⟨[], rfl, rfl⟩ (.inl rfl) h

/-- Otherwise it has come to a number that is too long. -/
theorem TokenList.declarations_eq_escaped {x : Escape} (h : words.declarations = .error (.escaped x)) :
    ∃ n, x = .unreadable n ∧ words.HasTooLong n := by
  unfold TokenList.declarations at h
  split at h
  · cases h
  · exact Parse.structs_eq_error Unit ⟨[], rfl, rfl⟩ (.inl rfl) h

/-- A fault at one of the words or at the end of the text. -/
def SchemaError.LiesIn (e : SchemaError) (words : TokenList) : Prop :=
  e.position = some words.finish ∨ ∃ t ∈ words.tokens, e.position = some t.position

theorem TokenList.declarations_liesIn {e : SchemaError} (h : words.declarations = .error (.error e)) :
    e.LiesIn words := by
  cases declarations_eq_error h with
  | wrong hts => exact .inr ⟨_, by rw [hts]; simp, rfl⟩
  | ended => exact .inl rfl
  | malformed ht => exact .inr ⟨_, ht, rfl⟩
  | @repeated before us ws after x fs f g p q r hts hfs hf =>
    obtain ⟨vs, rfl⟩ := Parse.field_head hf
    exact .inr ⟨⟨.name f.name, f.position⟩, by rw [hts]; simp, rfl⟩
  | empty => exact .inl rfl

end BinRecord
