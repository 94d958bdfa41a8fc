/-
The grammar of schema text, said of its words and without the parser: which runs of words are types,
fields, structs and schemas, and what they declare. The parser accepts exactly the runs in which every
number is short enough to be read, and returns what they declare; in the others it comes to such a
number.
-/
import BinRecord.Proofs.Traversal
import BinRecord.Schema.Declaration.Parser

namespace BinRecord

namespace Grammar

/-! ## Runs of words

The grammar goes for any figures or for some of them only: `fits` says which may stand in a number. -/

section Words

variable (fits : List Char → Prop)

/-- What may stand after a type to make it an array, and the place of the bracket. -/
inductive Repeated : List Token → Arity → Option TextPosition → Prop
  | single : Repeated [] .single none
  | times (x : String) (p q r : TextPosition) : fits x.toList →
      Repeated [⟨.mark '[', p⟩, ⟨.figures x, q⟩, ⟨.mark ']', r⟩] (.times (Text.decimalValue x.toList)) (some p)
  | toEnd (p q r : TextPosition) : Repeated [⟨.mark '[', p⟩, ⟨.mark '+', q⟩, ⟨.mark ']', r⟩] .toEnd (some p)

/-- What may stand after a field. -/
inductive Separator : List Token → Prop
  | none : Separator []
  | comma (p : TextPosition) : Separator [⟨.mark ',', p⟩]
  | semicolon (p : TextPosition) : Separator [⟨.mark ';', p⟩]

/-- The type of a family with a width; bytes and padding have no encoding. -/
def sized (family : SizedFamily) (w : Width) (e : Encoding) : Primitive :=
  match family with
  | .text => .text w e
  | .bytes => .bytes w
  | .padding => .padding w

variable [Codecs]

/-- What may stand after the width of a type: only text has an encoding, which is UTF-8 if none is given. -/
inductive Encoded : SizedFamily → List Token → Encoding → Prop
  | default (family : SizedFamily) : Encoded family [] .utf8
  | given {x : String} {e : Encoding} (p q : TextPosition) : Encoding.ofName x = .text e →
      Encoded .text [⟨.mark ',', p⟩, ⟨.name x, q⟩] e

/-- A type that is no array, and the place of its name. -/
inductive Base : List Token → BaseType String → TextPosition → Prop
  | sized {family : SizedFamily} {x n : String} {w : Width} {e : Encoding} {ws : List Token}
      (p q r t : TextPosition) : SizedFamily.ofName? x = some family → fits n.toList →
      Text.decimalValue n.toList = w.1 → Encoded family ws e →
      Base (⟨.name x, p⟩ :: ⟨.mark '<', q⟩ :: ⟨.figures n, r⟩ :: ws ++ [⟨.mark '>', t⟩])
        (.primitive (sized family w e)) p
  | numeric {x : String} {n : NumericName} {k : Primitive} (p : TextPosition) : SizedFamily.ofName? x = none →
      NumericName.ofName? x = some n → fits n.figures →
      n.family.primitive? (Text.decimalValue n.figures) n.order = some k → Base [⟨.name x, p⟩] (.primitive k) p
  | struct {x : String} (p : TextPosition) : isBuiltIn x = false → Base [⟨.name x, p⟩] (.struct x) p

/-- A field. -/
inductive Field : List Token → FieldDeclaration String → Prop
  | mk {x : String} {b : BaseType String} {a : Arity} {ws vs : List Token} {t : TextPosition}
      {bracket : Option TextPosition} (p q : TextPosition) : Base fits ws b t → Repeated fits vs a bracket →
      Field (⟨.name x, p⟩ :: ⟨.mark ':', q⟩ :: (ws ++ vs)) ⟨x, p, ⟨b, a⟩, t, bracket⟩

/-- The fields of a struct. -/
inductive Fields : List Token → List (FieldDeclaration String) → Prop
  | nil : Fields [] []
  | cons {f : FieldDeclaration String} {fs : List (FieldDeclaration String)} {ws sep vs : List Token} :
      Field fits ws f → Separator sep → Fields vs fs → Fields (ws ++ (sep ++ vs)) (f :: fs)

/-- A struct, which has no built-in name and whose fields have different names. -/
inductive Struct : List Token → Declaration String → Prop
  | mk {x : String} {fs : List (FieldDeclaration String)} {ws : List Token} (p q r t : TextPosition) :
      isBuiltIn x = false → Fields fits ws fs → (fs.map (·.name)).Nodup →
      Struct (⟨.name "struct", p⟩ :: ⟨.name x, q⟩ :: ⟨.mark '\x7b', r⟩ :: (ws ++ [⟨.mark '\x7d', t⟩]))
        ⟨x, q, fs⟩

/-- Structs one after the other. -/
inductive Structs : List Token → List (Declaration String) → Prop
  | nil : Structs [] []
  | cons {d : Declaration String} {ds : List (Declaration String)} {ws vs : List Token} :
      Struct fits ws d → Structs vs ds → Structs (ws ++ vs) (d :: ds)

end Words

end Grammar

/-! ## What a parser comes to -/

/-- A parser that meets only figures that fit yields `a`, or comes to a number that is too long if not all of them can
be read. -/
def Yields {α : Type} (fits : List Char → Prop) (x : Except SchemaFailure α) (a : α) : Prop :=
  x = .ok a ∨ (¬ ∀ cs, fits cs → Text.Readable cs) ∧ ∃ n, x = .error (.escaped (.unreadable n))

namespace Yields

variable {α β : Type} {fits : List Char → Prop} {x : Except SchemaFailure α} {a : α}

theorem ok (h : Yields Text.Readable x a) : x = .ok a := h.resolve_right fun h => h.1 fun _ => id

theorem bind {f : α → Except SchemaFailure β} {b : β} (hx : Yields fits x a) (hf : Yields fits (f a) b) :
    Yields fits (x >>= f) b := by
  rcases hx with rfl | ⟨hlong, n, rfl⟩
  · exact hf
  · exact .inr ⟨hlong, n, rfl⟩

theorem readDecimal {cs : List Char} (h : fits cs) : Yields fits (Text.readDecimal cs) (Text.decimalValue cs) := by
  by_cases hcs : Text.Readable cs
  · exact .inl (Text.readDecimal_eq_ok.2 ⟨hcs, rfl⟩)
  · exact .inr ⟨fun hall => hcs (hall cs h), _, Text.readDecimal_eq_error.2 ⟨hcs, rfl⟩⟩

end Yields

/-! ## Words -/

namespace Parse

variable {finish p : TextPosition} {ts rest : List Token}

theorem atMark_iff {c : Char} : atMark c ts = true ↔ ∃ p us, ts = ⟨.mark c, p⟩ :: us := by
  rcases ts with _ | ⟨⟨l, p⟩, us⟩
  · simp [atMark]
  · simp [atMark]

theorem mark_eq_ok {c : Char} : mark finish c ts = .ok (p, rest) ↔ ts = ⟨.mark c, p⟩ :: rest := by
  unfold mark
  constructor
  · intro h
    split at h
    · split at h
      · rename_i hd
        cases h
        rw [hd]
      · cases h
    · cases h
  · rintro rfl
    simp

theorem name_eq_ok {expected : Expectation} {x : String} :
    name finish expected ts = .ok ((x, p), rest) ↔ ts = ⟨.name x, p⟩ :: rest := by
  unfold name
  constructor
  · intro h
    split at h
    · cases h; rfl
    · cases h
  · rintro rfl; rfl

theorem figures_eq_ok {expected : Expectation} {n : Nat} : figures finish expected ts = .ok (n, rest) ↔
    ∃ x p, ts = ⟨.figures x, p⟩ :: rest ∧ Text.Readable x.toList ∧ n = Text.decimalValue x.toList := by
  unfold figures
  constructor
  · intro h
    split at h
    · obtain ⟨n, hn, h⟩ := except_bind_eq_ok.1 h
      cases h
      exact ⟨_, _, rfl, Text.readDecimal_eq_ok.1 hn⟩
    · cases h
    · cases h
  · rintro ⟨x, p, rfl, hx, rfl⟩
    exact except_bind_eq_ok.2 ⟨_, Text.readDecimal_eq_ok.2 ⟨hx, rfl⟩, rfl⟩

variable {fits : List Char → Prop}

theorem mark_yields (c : Char) : Yields fits (mark finish c (⟨.mark c, p⟩ :: rest)) (p, rest) :=
  .inl (mark_eq_ok.2 rfl)

theorem name_yields (expected : Expectation) (x : String) :
    Yields fits (name finish expected (⟨.name x, p⟩ :: rest)) ((x, p), rest) :=
  .inl (name_eq_ok.2 rfl)

theorem figures_yields (expected : Expectation) {x : String} (h : fits x.toList) :
    Yields fits (figures finish expected (⟨.figures x, p⟩ :: rest)) (Text.decimalValue x.toList, rest) :=
  (Yields.readDecimal h).bind (.inl rfl)

open Grammar

/-! ## Repetitions and separators -/

theorem arity_sound {a : Arity} {bracket : Option TextPosition} (h : arity finish ts = .ok ((a, bracket), rest)) :
    ∃ ws, Repeated Text.Readable ws a bracket ∧ ts = ws ++ rest := by
  unfold arity at h
  split at h
  · obtain ⟨⟨q, us⟩, hq, h₁⟩ := except_bind_eq_ok.1 h
    rw [mark_eq_ok] at hq
    subst hq
    dsimp only at h₁
    split at h₁
    · rename_i hplus
      obtain ⟨r, vs, rfl⟩ := atMark_iff.1 hplus
      obtain ⟨⟨t, us'⟩, ht, h₂⟩ := except_bind_eq_ok.1 h₁
      rw [List.drop_one, List.tail_cons, mark_eq_ok] at ht
      subst ht
      cases h₂
      exact ⟨_, .toEnd q r t, rfl⟩
    · obtain ⟨⟨n, vs⟩, hn, h₂⟩ := except_bind_eq_ok.1 h₁
      obtain ⟨⟨t, us'⟩, ht, h₃⟩ := except_bind_eq_ok.1 h₂
      obtain ⟨x, r, rfl, hx, rfl⟩ := figures_eq_ok.1 hn
      rw [mark_eq_ok] at ht
      cases h₃
      dsimp only at ht
      subst ht
      exact ⟨_, .times x q r t hx, rfl⟩
  · cases h
    exact ⟨[], .single, rfl⟩

theorem arity_yields {ws : List Token} {a : Arity} {bracket : Option TextPosition} (h : Repeated fits ws a bracket)
    (hrest : atMark '[' rest = false) : Yields fits (arity finish (ws ++ rest)) ((a, bracket), rest) := by
  unfold arity
  cases h with
  | single =>
    rw [List.nil_append, if_neg (by simp [hrest])]
    exact .inl rfl
  | times x q r t hx =>
    rw [List.cons_append, if_pos (atMark_iff.2 ⟨q, _, rfl⟩)]
    refine (mark_yields '[').bind ?_
    dsimp only
    rw [if_neg (by simp [atMark])]
    exact (figures_yields .length hx).bind ((mark_yields ']').bind (.inl rfl))
  | toEnd q r t =>
    rw [List.cons_append, if_pos (atMark_iff.2 ⟨q, _, rfl⟩)]
    refine (mark_yields '[').bind ?_
    dsimp only
    rw [List.cons_append, if_pos (atMark_iff.2 ⟨r, _, rfl⟩)]
    exact (mark_yields ']').bind (.inl rfl)

theorem separator_eq (ts : List Token) : ∃ sep, Separator sep ∧ ts = sep ++ separator ts := by
  unfold separator
  split
  · rename_i h
    rw [Bool.or_eq_true] at h
    rcases h with h | h
    · obtain ⟨p, us, rfl⟩ := atMark_iff.1 h
      exact ⟨_, .comma p, rfl⟩
    · obtain ⟨p, us, rfl⟩ := atMark_iff.1 h
      exact ⟨_, .semicolon p, rfl⟩
  · exact ⟨[], .none, rfl⟩

variable [Codecs]

/-! ## Types -/

theorem encoding_sound {family : SizedFamily} {keyword : String} {e : Encoding}
    (h : encoding finish family keyword ts = .ok (e, rest)) : ∃ ws, Encoded family ws e ∧ ts = ws ++ rest := by
  unfold encoding at h
  split at h
  · rename_i hm
    obtain ⟨q, us, rfl⟩ := atMark_iff.1 hm
    obtain ⟨⟨⟨x, r⟩, us'⟩, hn, h₁⟩ := except_bind_eq_ok.1 h
    rw [List.drop_one, List.tail_cons, name_eq_ok] at hn
    subst hn
    dsimp only at h₁
    split at h₁
    · rename_i hf
      split at h₁
      · rename_i hx
        cases h₁
        subst hf
        exact ⟨_, .given q r hx, rfl⟩
      · cases h₁
      · cases h₁
    · cases h₁
  · cases h
    exact ⟨[], .default family, rfl⟩

theorem encoding_yields {family : SizedFamily} (keyword : String) {ws : List Token} {e : Encoding}
    (h : Encoded family ws e) (hrest : atMark ',' rest = false) :
    Yields fits (encoding finish family keyword (ws ++ rest)) (e, rest) := by
  unfold encoding
  cases h with
  | default =>
    rw [List.nil_append, if_neg (by simp [hrest])]
    exact .inl rfl
  | @given x _ q r hx =>
    rw [List.cons_append, if_pos (atMark_iff.2 ⟨q, _, rfl⟩)]
    refine (name_yields .encodingName x).bind ?_
    dsimp only
    rw [if_pos rfl, hx]
    exact .inl rfl

theorem sizedType_sound {family : SizedFamily} {keyword : String} {k : Primitive}
    (h : sizedType finish family keyword p ts = .ok (k, rest)) :
    ∃ q n r w e ws t, ts = ⟨.mark '<', q⟩ :: ⟨.figures n, r⟩ :: (ws ++ ⟨.mark '>', t⟩ :: rest) ∧
      Text.Readable n.toList ∧ Text.decimalValue n.toList = w.1 ∧ Encoded family ws e ∧ k = sized family w e := by
  unfold sizedType at h
  obtain ⟨⟨q, us⟩, hq, h₁⟩ := except_bind_eq_ok.1 h
  obtain ⟨⟨n, vs⟩, hn, h₂⟩ := except_bind_eq_ok.1 h₁
  obtain ⟨x, r, hx, hread, rfl⟩ := figures_eq_ok.1 hn
  dsimp only at hx h₂
  split at h₂
  · rename_i hpos
    obtain ⟨⟨e, us'⟩, he, h₃⟩ := except_bind_eq_ok.1 h₂
    obtain ⟨⟨t, vs'⟩, ht, h₄⟩ := except_bind_eq_ok.1 h₃
    obtain ⟨ws, hws, hvs⟩ := encoding_sound he
    rw [mark_eq_ok] at hq ht
    dsimp only at ht h₄
    have hk : k = sized family ⟨_, hpos⟩ e ∧ vs' = rest := by
      cases family <;> cases h₄ <;> exact ⟨rfl, rfl⟩
    obtain ⟨rfl, rfl⟩ := hk
    exact ⟨q, x, r, ⟨_, hpos⟩, e, ws, t, by rw [hq, hx, hvs, ht], hread, rfl, hws, rfl⟩
  · cases h₂

theorem sizedType_yields {family : SizedFamily} (keyword : String) {q r t : TextPosition} {n : String} {w : Width}
    {e : Encoding} {ws : List Token} (hn : fits n.toList) (hw : Text.decimalValue n.toList = w.1)
    (hws : Encoded family ws e) : Yields fits (sizedType finish family keyword p
      (⟨.mark '<', q⟩ :: ⟨.figures n, r⟩ :: (ws ++ ⟨.mark '>', t⟩ :: rest))) (sized family w e, rest) := by
  unfold sizedType
  refine (mark_yields '<').bind ((figures_yields .width hn).bind ?_)
  dsimp only
  rw [dif_pos (by rw [hw]; exact w.2)]
  refine (encoding_yields keyword hws rfl).bind ((mark_yields '>').bind ?_)
  have he : (⟨Text.decimalValue n.toList, by rw [hw]; exact w.2⟩ : Width) = w := Subtype.ext hw
  cases family <;> simp only [sized, he] <;> exact .inl rfl

theorem baseType_sound {b : BaseType String} (h : baseType finish ts = .ok ((b, p), rest)) :
    ∃ ws, Base Text.Readable ws b p ∧ ts = ws ++ rest := by
  unfold baseType at h
  obtain ⟨⟨⟨x, q⟩, us⟩, hx, h₁⟩ := except_bind_eq_ok.1 h
  rw [name_eq_ok] at hx
  subst hx
  dsimp only at h₁
  split at h₁
  · rename_i family hf
    obtain ⟨⟨k, vs⟩, hk, h₂⟩ := except_bind_eq_ok.1 h₁
    cases h₂
    obtain ⟨r, n, r', w, e, ws, t, rfl, hn, hw, hws, rfl⟩ := sizedType_sound hk
    exact ⟨_, .sized p r r' t hf hn hw hws, by simp⟩
  · rename_i hs
    split at h₁
    · rename_i hn
      cases h₁
      exact ⟨_, .struct p (by simp [isBuiltIn, hs, hn]), rfl⟩
    · rename_i n hn
      obtain ⟨bits, hbits, h₂⟩ := except_bind_eq_ok.1 h₁
      obtain ⟨hread, rfl⟩ := Text.readDecimal_eq_ok.1 hbits
      split at h₂
      · rename_i k hk
        cases h₂
        exact ⟨_, .numeric p hs hn hread hk, rfl⟩
      · cases h₂

theorem baseType_yields {ws : List Token} {b : BaseType String} (h : Base fits ws b p) :
    Yields fits (baseType finish (ws ++ rest)) ((b, p), rest) := by
  unfold baseType
  cases h with
  | @sized family x n w e ws _ q r t hf hn hw hws =>
    refine (name_yields .fieldType x).bind ?_
    dsimp only
    rw [hf]
    simp only [List.append_eq, List.cons_append, List.append_assoc, List.nil_append]
    exact (sizedType_yields x hn hw hws).bind (.inl rfl)
  | @numeric x n k _ hs hx hn hk =>
    refine (name_yields .fieldType x).bind ?_
    dsimp only
    rw [hs, hx]
    refine (Yields.readDecimal hn).bind ?_
    rw [hk]
    exact .inl rfl
  | @struct x _ hx =>
    simp only [isBuiltIn, Bool.or_eq_false_iff, Option.isSome_eq_false_iff, Option.isNone_iff_eq_none] at hx
    refine (name_yields .fieldType x).bind ?_
    dsimp only
    rw [hx.1, hx.2]
    exact .inl rfl

/-! ## Fields -/

theorem field_sound {f : FieldDeclaration String} (h : field finish ts = .ok (f, rest)) :
    ∃ ws, Grammar.Field Text.Readable ws f ∧ ts = ws ++ rest := by
  unfold field at h
  obtain ⟨⟨⟨x, p⟩, us₁⟩, hx, h₁⟩ := except_bind_eq_ok.1 h
  obtain ⟨⟨q, us₂⟩, hq, h₂⟩ := except_bind_eq_ok.1 h₁
  obtain ⟨⟨⟨b, t⟩, us₃⟩, hb, h₃⟩ := except_bind_eq_ok.1 h₂
  obtain ⟨⟨⟨a, bracket⟩, us₄⟩, ha, h₄⟩ := except_bind_eq_ok.1 h₃
  rw [name_eq_ok] at hx
  rw [mark_eq_ok] at hq
  obtain ⟨ws, hws, hus₂⟩ := baseType_sound hb
  obtain ⟨vs, hvs, hus₃⟩ := arity_sound ha
  cases h₄
  exact ⟨_, .mk p q hws hvs, by rw [hx, hq, hus₂, hus₃]; simp⟩

theorem field_yields {ws : List Token} {f : FieldDeclaration String} (h : Grammar.Field fits ws f)
    (hrest : atMark '[' rest = false) : Yields fits (field finish (ws ++ rest)) (f, rest) := by
  obtain ⟨p, q, hws, hvs⟩ := h
  refine (name_yields .fieldName _).bind ((mark_yields ':').bind ?_)
  rw [List.append_eq, List.append_assoc]
  exact (baseType_yields hws).bind ((arity_yields hvs hrest).bind (.inl rfl))

theorem field_head {ws : List Token} {f : FieldDeclaration String} (h : Grammar.Field fits ws f) :
    ∃ us, ws = ⟨.name f.name, f.position⟩ :: us := by
  cases h with
  | mk p q => exact ⟨_, rfl⟩

/-- After a field no bracket can stand but its own. -/
theorem not_bracket {ws : List Token} {fs : List (FieldDeclaration String)} (h : Fields fits ws fs)
    (hrest : atMark '\x7d' rest = true) {sep : List Token} (hsep : Separator sep) :
    atMark '[' (sep ++ (ws ++ rest)) = false := by
  obtain ⟨p, us, rfl⟩ := atMark_iff.1 hrest
  cases hsep with
  | none =>
    cases h with
    | nil => rfl
    | cons hf =>
      obtain ⟨us', rfl⟩ := field_head hf
      rfl
  | comma => rfl
  | semicolon => rfl

/-- A separator is passed, and nothing else. -/
theorem separator_append {sep ws : List Token} {fs : List (FieldDeclaration String)} (hsep : Separator sep)
    (h : Fields fits ws fs) (hrest : atMark '\x7d' rest = true) : separator (sep ++ (ws ++ rest)) = ws ++ rest := by
  obtain ⟨p, us, rfl⟩ := atMark_iff.1 hrest
  cases hsep with
  | none =>
    cases h with
    | nil => rfl
    | cons hf =>
      obtain ⟨us', rfl⟩ := field_head hf
      rfl
  | comma => rfl
  | semicolon => rfl

theorem fields_sound {struct : String} {done fs : List (FieldDeclaration String)}
    (h : fields finish struct done ts = .ok (fs, rest)) : ∃ ws new, Fields Text.Readable ws new ∧ ts = ws ++ rest ∧
      fs = done.reverse ++ new ∧ (new.map (·.name)).Nodup ∧ ∀ f ∈ new, ∀ g ∈ done, g.name ≠ f.name := by
  fun_induction fields finish struct done ts with
  | case1 done ts hm =>
    cases h
    exact ⟨[], [], .nil, rfl, by simp, by simp, by simp⟩
  | case2 => cases h
  | case3 => cases h
  | case4 done ts hm f us hf hnew ih =>
    obtain ⟨ws, new, hws, hus, rfl, hnodup, hdone⟩ := ih h
    obtain ⟨vs, hvs, rfl⟩ := field_sound hf
    obtain ⟨sep, hsep, hus'⟩ := separator_eq us
    rw [List.find?_eq_none] at hnew
    simp only [List.mem_cons, forall_eq_or_imp] at hdone
    refine ⟨_, f :: new, .cons hvs hsep hws, by rw [hus', hus]; simp, by simp, ?_, ?_⟩
    · rw [List.map_cons, List.nodup_cons]
      refine ⟨fun hmem => ?_, hnodup⟩
      obtain ⟨g, hg, he⟩ := List.mem_map.1 hmem
      exact (hdone g hg).1 he.symm
    · intro g hg g' hg'
      rcases List.mem_cons.1 hg with rfl | hg
      · simpa using hnew g' hg'
      · exact (hdone g hg).2 g' hg'

theorem fields_step {struct : String} (h : ¬ atMark '\x7d' ts = true) (done : List (FieldDeclaration String)) :
    fields finish struct done ts = (field finish ts >>= fun r =>
      (done.find? (·.name = r.1.name)).elim (fields finish struct (r.1 :: done) (separator r.2)) fun first =>
        .error (.error ⟨.duplicateField r.1.name struct first.position, some r.1.position, none⟩)) := by
  rw [fields, if_neg h]
  split
  · rename_i he
    rw [he]
    rfl
  · rename_i f rest he
    rw [he]
    show _ = Option.elim (done.find? (·.name = f.name)) _ _
    cases done.find? (·.name = f.name) <;> rfl

/-- Fields are read up to the closing brace; their names differ from each other and from those before. -/
theorem fields_yields {struct : String} {ws : List Token} {done new : List (FieldDeclaration String)}
    (hrest : atMark '\x7d' rest = true) (hws : Fields fits ws new) (hnodup : (new.map (·.name)).Nodup)
    (hdone : ∀ f ∈ new, ∀ g ∈ done, g.name ≠ f.name) :
    Yields fits (fields finish struct done (ws ++ rest)) (done.reverse ++ new, rest) := by
  induction hws generalizing done with
  | nil =>
    unfold fields
    rw [List.nil_append, if_pos hrest, List.append_nil]
    exact .inl rfl
  | @cons f new vs sep ws hf hsep hws ih =>
    rw [List.map_cons, List.nodup_cons] at hnodup
    have hnot : ¬ atMark '\x7d' (vs ++ (sep ++ ws) ++ rest) = true := by
      obtain ⟨us, rfl⟩ := field_head hf
      simp [atMark]
    have hone : Yields fits (field finish (vs ++ (sep ++ ws) ++ rest)) (f, sep ++ (ws ++ rest)) := by
      have hfield : Yields fits (field finish (vs ++ (sep ++ (ws ++ rest)))) (f, sep ++ (ws ++ rest)) :=
        field_yields hf (not_bracket hws hrest hsep)
      simpa using hfield
    have hfind : done.find? (·.name = f.name) = none := by
      rw [List.find?_eq_none]
      intro g hg
      simpa using hdone f (List.mem_cons_self ..) g hg
    have hgo : Yields fits (fields finish struct (f :: done) (ws ++ rest)) ((f :: done).reverse ++ new, rest) :=
        ih hnodup.2 fun g hg g' hg' => by
      rcases List.mem_cons.1 hg' with rfl | hg'
      · exact fun e => hnodup.1 (e ▸ List.mem_map_of_mem (f := (·.name)) hg)
      · exact hdone g (List.mem_cons_of_mem _ hg) g' hg'
    rw [List.reverse_cons, List.append_assoc] at hgo
    rw [fields_step hnot]
    refine hone.bind ?_
    dsimp only
    rw [hfind, separator_append hsep hws hrest]
    exact hgo

/-! ## Structs -/

theorem struct_sound {d : Declaration String} (h : struct finish ts = .ok (d, rest)) :
    ∃ ws, Grammar.Struct Text.Readable ws d ∧ ts = ws ++ rest := by
  unfold struct at h
  split at h
  · rename_i p us
    obtain ⟨⟨⟨x, q⟩, us₁⟩, hx, h₁⟩ := except_bind_eq_ok.1 h
    dsimp only at h₁
    split at h₁
    · cases h₁
    · rename_i hb
      obtain ⟨⟨r, us₂⟩, hr, h₂⟩ := except_bind_eq_ok.1 h₁
      obtain ⟨⟨fs, us₃⟩, hfs, h₃⟩ := except_bind_eq_ok.1 h₂
      obtain ⟨⟨t, us₄⟩, ht, h₄⟩ := except_bind_eq_ok.1 h₃
      rw [name_eq_ok] at hx
      rw [mark_eq_ok] at hr ht
      obtain ⟨ws, new, hws, hus, hnew, hnodup, -⟩ := fields_sound hfs
      rw [List.reverse_nil, List.nil_append] at hnew
      dsimp only at ht hus
      cases h₄
      subst hnew
      exact ⟨_, .mk p q r t (by simpa using hb) hws hnodup, by rw [hx, hr, hus, ht]; simp⟩
  · cases h

theorem struct_yields {ws : List Token} {d : Declaration String} (h : Grammar.Struct fits ws d) :
    Yields fits (struct finish (ws ++ rest)) (d, rest) := by
  obtain ⟨p, q, r, t, hb, hws, hnodup⟩ := h
  unfold struct
  refine (name_yields .structName _).bind ?_
  dsimp only
  rw [if_neg (by simp [hb])]
  simp only [List.append_eq, List.cons_append, List.append_assoc, List.nil_append]
  refine (mark_yields '\x7b').bind ?_
  refine (fields_yields (atMark_iff.2 ⟨t, _, rfl⟩) hws hnodup (by simp)).bind ?_
  exact (mark_yields '\x7d').bind (.inl rfl)

theorem struct_ne_nil {ws : List Token} {d : Declaration String} (h : Grammar.Struct fits ws d) : ws ≠ [] := by
  cases h; exact List.cons_ne_nil _ _

theorem structs_sound {done ds : List (Declaration String)} (h : structs finish done ts = .ok ds) :
    ∃ new, Structs Text.Readable ts new ∧ ds = done.reverse ++ new := by
  fun_induction structs finish done ts with
  | case1 done =>
    cases h
    exact ⟨[], .nil, by simp⟩
  | case2 => cases h
  | case3 done t ts d us hd ih =>
    obtain ⟨new, hnew, rfl⟩ := ih h
    obtain ⟨ws, hws, he⟩ := struct_sound hd
    rw [he]
    exact ⟨d :: new, .cons hws hnew, by simp⟩

theorem structs_cons (done : List (Declaration String)) (t : Token) (ts : List Token) :
    structs finish done (t :: ts) =
      (struct finish (t :: ts) >>= fun r => structs finish (r.1 :: done) r.2) := by
  rw [structs]
  split
  · rename_i he
    rw [he]
    rfl
  · rename_i he
    rw [he]
    rfl

theorem structs_yields {done new : List (Declaration String)} (h : Structs fits ts new) :
    Yields fits (structs finish done ts) (done.reverse ++ new) := by
  induction h generalizing done with
  | nil =>
    unfold structs
    rw [List.append_nil]
    exact .inl rfl
  | @cons d new ws vs hd hvs ih =>
    have hone : Yields fits (struct finish (ws ++ vs)) (d, vs) := struct_yields hd
    have hgo : Yields fits (structs finish (d :: done) vs) (done.reverse ++ d :: new) := by
      have hrest := @ih (d :: done)
      simpa using hrest
    obtain ⟨t, us, he⟩ := List.exists_cons_of_ne_nil (List.append_ne_nil_of_left_ne_nil (struct_ne_nil hd) vs)
    rw [he] at hone ⊢
    rw [structs_cons]
    exact hone.bind hgo

end Parse

/-! ## What is declared -/

namespace Grammar

variable {ts : List Token}

/-- The words of a field stand among others where the field says. -/
structure Places (ts : List Token) (f : FieldDeclaration String) : Prop where
  name : ⟨.name f.name, f.position⟩ ∈ ts
  type : ∀ n, f.type.base = .struct n → ⟨.name n, f.typePosition⟩ ∈ ts
  bracket : f.type.arity ≠ .single → ∃ b, f.bracket = some b ∧ ⟨.mark '[', b⟩ ∈ ts

theorem Places.mono {us : List Token} {f : FieldDeclaration String} (h : Places ts f) (hus : ts ⊆ us) :
    Places us f :=
  ⟨hus h.name, fun n hn => hus (h.type n hn), fun hne => (h.bracket hne).imp fun _ hb => ⟨hb.1, hus hb.2⟩⟩

variable [Codecs] {fits : List Char → Prop}

theorem Fields.concat {us ws sep : List Token} {fs : List (FieldDeclaration String)} {f : FieldDeclaration String}
    (h : Fields fits us fs) (hf : Field fits ws f) (hsep : Separator sep) :
    Fields fits (us ++ (ws ++ sep)) (fs ++ [f]) := by
  induction h with
  | nil =>
    have hone := Fields.cons hf hsep .nil
    rwa [List.append_nil] at hone
  | cons hg hsep' _ ih =>
    rw [List.append_assoc, List.append_assoc]
    exact .cons hg hsep' ih

theorem Field.places {f : FieldDeclaration String} (h : Field fits ts f) : Places ts f := by
  cases h with
  | mk p q hbase hbrackets =>
    refine ⟨by simp, fun n hn => ?_, fun hne => ?_⟩
    · cases hbase with
      | sized => cases hn
      | numeric => cases hn
      | struct =>
        cases hn
        simp
    · cases hbrackets with
      | single => exact absurd rfl hne
      | times => exact ⟨_, rfl, by simp⟩
      | toEnd => exact ⟨_, rfl, by simp⟩

theorem Fields.places {fs : List (FieldDeclaration String)} (h : Fields fits ts fs) : ∀ f ∈ fs, Places ts f := by
  induction h with
  | nil => simp
  | cons hf _ _ ih =>
    refine List.forall_mem_cons.2 ⟨hf.places.mono (by simp), fun g hg => (ih g hg).mono ?_⟩
    intro t ht
    simp [ht]

/-- What is declared stands among the words where the declarations say, and no struct has a built-in name. -/
theorem Structs.places {ds : List (Declaration String)} (h : Structs fits ts ds) : ∀ d ∈ ds,
    ⟨.name d.name, d.position⟩ ∈ ts ∧ isBuiltIn d.name = false ∧ ∀ f ∈ d.fields, Places ts f := by
  induction h with
  | nil => simp
  | cons hd _ ih =>
    refine List.forall_mem_cons.2 ⟨?_, fun e he => ?_⟩
    · cases hd with
      | mk p q r t hb hfields =>
        refine ⟨by simp, hb, fun f hf => (hfields.places f hf).mono ?_⟩
        intro t ht
        simp [ht]
    · obtain ⟨hname, hb, hfields⟩ := ih e he
      exact ⟨by simp [hname], hb, fun f hf => (hfields f hf).mono (List.subset_append_right ..)⟩

theorem Structs.nodup {ds : List (Declaration String)} (h : Structs fits ts ds) :
    ∀ d ∈ ds, (d.fields.map (·.name)).Nodup := by
  induction h with
  | nil => intro d hd; cases hd
  | cons hd _ ih =>
    refine List.forall_mem_cons.2 ⟨?_, ih⟩
    cases hd with
    | mk _ _ _ _ _ _ hnodup => exact hnodup

end Grammar

/-- The parser accepts exactly the words that make up one struct or more with numbers that can be read, and returns
what they declare. -/
theorem TokenList.declarations_eq_ok [Codecs] {words : TokenList} {ds : List (Declaration String)} :
    words.declarations = .ok ds ↔ ds ≠ [] ∧ Grammar.Structs Text.Readable words.tokens ds := by
  have h : Parse.structs words.finish [] words.tokens = .ok ds ↔ Grammar.Structs Text.Readable words.tokens ds := by
    constructor
    · intro h
      obtain ⟨new, hnew, rfl⟩ := Parse.structs_sound h
      exact hnew
    · exact fun h => (Parse.structs_yields h).ok
  rw [← h]
  unfold TokenList.declarations
  constructor
  · intro hd
    split at hd
    · cases hd
    · rename_i hne
      exact ⟨fun e => hne (e ▸ hd), hd⟩
  · rintro ⟨hne, hd⟩
    split
    · rename_i he
      rw [hd] at he
      cases he
      exact absurd rfl hne
    · exact hd

/-- Words that make up one struct or more are accepted, or the parser comes to a number that is too long. -/
theorem TokenList.declarations_yields [Codecs] {fits : List Char → Prop} {words : TokenList}
    {ds : List (Declaration String)} (hne : ds ≠ []) (h : Grammar.Structs fits words.tokens ds) :
    Yields fits words.declarations ds := by
  have hstructs : Yields fits (Parse.structs words.finish [] words.tokens) ds := Parse.structs_yields h
  unfold TokenList.declarations
  split
  · rename_i he
    rw [he] at hstructs
    rcases hstructs with hd | ⟨-, n, hd⟩
    · cases hd
      exact absurd rfl hne
    · cases hd
  · exact hstructs

end BinRecord
