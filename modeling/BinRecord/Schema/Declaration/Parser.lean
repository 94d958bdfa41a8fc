/-
The parser of struct declarations. A declaration is `struct` and a name, then fields in braces; a
field is a name, a colon and a type; a comma or semicolon may follow it. Built-in type names cannot
name structs, and the fields of a struct have different names. Every parser takes the place where
the text ends and the words that are left, and returns what it read with the words after it. Figures
are read where a width or a length is wanted.
-/
import BinRecord.Schema.Declaration

namespace BinRecord

namespace Parse

/-! ## Words -/

/-- The error of meeting some word, or the end, where something else is called for. -/
def unexpected (finish : TextPosition) (expected : Expectation) : List Token → SchemaError
  | [] => ⟨.unexpectedEnd expected, some finish, none⟩
  | t :: _ => ⟨.unexpectedToken expected t.lexeme.text, some t.position, none⟩

/-- Whether the next word is a given mark. -/
def atMark (c : Char) : List Token → Bool
  | [] => false
  | t :: _ => t.lexeme = .mark c

/-- Reads a given mark and gives its place. -/
def mark (finish : TextPosition) (c : Char) (ts : List Token) :
    Except SchemaFailure (TextPosition × List Token) :=
  match ts with
  | ⟨.mark d, position⟩ :: rest =>
    if d = c then .ok (position, rest) else .error (.error (unexpected finish (.mark c) ts))
  | _ => .error (.error (unexpected finish (.mark c) ts))

/-- Reads a name and gives its place. -/
def name (finish : TextPosition) (expected : Expectation) (ts : List Token) :
    Except SchemaFailure ((String × TextPosition) × List Token) :=
  match ts with
  | ⟨.name text, position⟩ :: rest => .ok ((text, position), rest)
  | _ => .error (.error (unexpected finish expected ts))

/-- Reads a number in figures. -/
def figures (finish : TextPosition) (expected : Expectation) (ts : List Token) :
    Except SchemaFailure (Nat × List Token) :=
  match ts with
  | ⟨.figures text, _⟩ :: rest => do
    let n ← Text.readDecimal text.toList
    .ok (n, rest)
  | [] => .error (.error (unexpected finish expected ts))
  | t :: _ => .error (.error ⟨.notFigures expected t.lexeme.text, some t.position, none⟩)

/-- Passes a comma or semicolon if there is one. -/
def separator (ts : List Token) : List Token :=
  if atMark ',' ts || atMark ';' ts then ts.drop 1 else ts

/-- Reads the brackets that may make a type an array. -/
def arity (finish : TextPosition) (ts : List Token) :
    Except SchemaFailure ((Arity × Option TextPosition) × List Token) :=
  if atMark '[' ts then do
    let (bracket, ts) ← mark finish '[' ts
    if atMark '+' ts then
      let (_, ts) ← mark finish ']' (ts.drop 1)
      .ok ((.toEnd, some bracket), ts)
    else
      let (n, ts) ← figures finish .length ts
      let (_, ts) ← mark finish ']' ts
      .ok ((.times n, some bracket), ts)
  else .ok ((.single, none), ts)

/-! ## What is left after words is shorter -/

theorem separator_le (ts : List Token) : (separator ts).length ≤ ts.length := by
  unfold separator
  split
  · simp
  · exact Nat.le_refl _

theorem mark_lt {finish : TextPosition} {c : Char} {ts rest : List Token} {p : TextPosition}
    (h : mark finish c ts = .ok (p, rest)) : rest.length < ts.length := by
  unfold mark at h
  split at h
  · split at h
    · cases h; simp
    · cases h
  · cases h

theorem name_lt {finish : TextPosition} {expected : Expectation} {ts rest : List Token}
    {r : String × TextPosition} (h : name finish expected ts = .ok (r, rest)) :
    rest.length < ts.length := by
  unfold name at h
  split at h
  · cases h; simp
  · cases h

theorem figures_lt {finish : TextPosition} {expected : Expectation} {ts rest : List Token}
    {n : Nat} (h : figures finish expected ts = .ok (n, rest)) : rest.length < ts.length := by
  unfold figures at h
  split at h
  · obtain ⟨_, -, h⟩ := except_bind_eq_ok.1 h
    cases h; simp
  · cases h
  · cases h

theorem rest_eq {α : Type} {a b : α} {ts rest : List Token}
    (h : (.ok (a, ts) : Except SchemaFailure (α × List Token)) = .ok (b, rest)) : ts = rest := by
  cases h; rfl

theorem arity_le {finish : TextPosition} {ts rest : List Token}
    {r : Arity × Option TextPosition} (h : arity finish ts = .ok (r, rest)) :
    rest.length ≤ ts.length := by
  unfold arity at h
  split at h
  · obtain ⟨⟨b, t₁⟩, h₁, h⟩ := except_bind_eq_ok.1 h
    have l₁ := mark_lt h₁
    dsimp only at h
    split at h
    · obtain ⟨⟨_, t₂⟩, h₂, h⟩ := except_bind_eq_ok.1 h
      have l₂ := mark_lt h₂
      simp only [List.length_drop] at l₂
      have := rest_eq h
      subst this
      dsimp only at *
      omega
    · obtain ⟨⟨n, t₂⟩, h₂, h⟩ := except_bind_eq_ok.1 h
      obtain ⟨⟨_, t₃⟩, h₃, h⟩ := except_bind_eq_ok.1 h
      have l₂ := figures_lt h₂
      have l₃ := mark_lt h₃
      have := rest_eq h
      subst this
      dsimp only at *
      omega
  · cases h; exact Nat.le_refl _

/-! ## Types and fields -/

variable [Codecs]

/-- Reads the encoding that may stand after the width of a type whose keyword has been read. -/
def encoding (finish : TextPosition) (family : SizedFamily) (keyword : String) (ts : List Token) :
    Except SchemaFailure (Encoding × List Token) :=
  if atMark ',' ts then do
    let ((text, position), ts) ← name finish .encodingName (ts.drop 1)
    if family = .text then
      match Encoding.ofName text with
      | .text encoding => .ok (encoding, ts)
      | .transformation => .error (.error ⟨.notTextEncoding text, some position, none⟩)
      | .unknown => .error (.error ⟨.unknownEncoding text, some position, none⟩)
    else .error (.error ⟨.needlessEncoding keyword, some position, none⟩)
  else .ok (.utf8, ts)

/-- Reads the width, and for text the encoding, of a type whose keyword has been read. -/
def sizedType (finish : TextPosition) (family : SizedFamily) (keyword : String)
    (position : TextPosition) (ts : List Token) : Except SchemaFailure (Primitive × List Token) := do
  let (_, ts) ← mark finish '<' ts
  let (n, ts) ← figures finish .width ts
  if h : 0 < n then
    let (encoding, ts) ← encoding finish family keyword ts
    let (_, ts) ← mark finish '>' ts
    match family with
    | .text => .ok (.text ⟨n, h⟩ encoding, ts)
    | .bytes => .ok (.bytes ⟨n, h⟩, ts)
    | .padding => .ok (.padding ⟨n, h⟩, ts)
  else .error (.error ⟨.zeroWidth keyword, some position, none⟩)

/-- Reads a type that is no array, and gives its place. -/
def baseType (finish : TextPosition) (ts : List Token) :
    Except SchemaFailure ((BaseType String × TextPosition) × List Token) := do
  let ((text, position), ts) ← name finish .fieldType ts
  match SizedFamily.ofName? text with
  | some family =>
    let (p, ts) ← sizedType finish family text position ts
    .ok ((.primitive p, position), ts)
  | none =>
    match NumericName.ofName? text with
    | none => .ok ((.struct text, position), ts)
    | some n =>
      let bits ← Text.readDecimal n.figures
      match n.family.primitive? bits n.order with
      | some p => .ok ((.primitive p, position), ts)
      | none => .error (.error ⟨.unknownWidth text n.family, some position, none⟩)

/-- Reads a field. -/
def field (finish : TextPosition) (ts : List Token) :
    Except SchemaFailure (FieldDeclaration String × List Token) := do
  let ((name, position), ts) ← name finish .fieldName ts
  let (_, ts) ← mark finish ':' ts
  let ((base, typePosition), ts) ← baseType finish ts
  let ((arity, bracket), ts) ← arity finish ts
  .ok (⟨name, position, ⟨base, arity⟩, typePosition, bracket⟩, ts)

theorem encoding_le {finish : TextPosition} {family : SizedFamily} {keyword : String}
    {ts rest : List Token} {e : Encoding} (h : encoding finish family keyword ts = .ok (e, rest)) :
    rest.length ≤ ts.length := by
  unfold encoding at h
  split at h
  · obtain ⟨⟨⟨text, position⟩, ts'⟩, hn, h⟩ := except_bind_eq_ok.1 h
    have hlt := name_lt hn
    simp only [List.length_drop] at hlt
    dsimp only at h
    split at h
    · split at h
      · have := rest_eq h
        subst this
        dsimp only at *
        omega
      · cases h
      · cases h
    · cases h
  · cases h; exact Nat.le_refl _

theorem sizedType_le {finish : TextPosition} {family : SizedFamily} {keyword : String}
    {position : TextPosition} {ts rest : List Token} {p : Primitive}
    (h : sizedType finish family keyword position ts = .ok (p, rest)) :
    rest.length ≤ ts.length := by
  unfold sizedType at h
  obtain ⟨⟨_, t₁⟩, h₁, h⟩ := except_bind_eq_ok.1 h
  obtain ⟨⟨n, t₂⟩, h₂, h⟩ := except_bind_eq_ok.1 h
  have l₁ := mark_lt h₁
  have l₂ := figures_lt h₂
  dsimp only at h
  split at h
  · obtain ⟨⟨_, t₃⟩, h₃, h⟩ := except_bind_eq_ok.1 h
    obtain ⟨⟨_, t₄⟩, h₄, h⟩ := except_bind_eq_ok.1 h
    have l₃ := encoding_le h₃
    have l₄ := mark_lt h₄
    have : t₄ = rest := by cases family <;> exact rest_eq h
    subst this
    dsimp only at *
    omega
  · cases h

theorem baseType_le {finish : TextPosition} {ts rest : List Token}
    {r : BaseType String × TextPosition} (h : baseType finish ts = .ok (r, rest)) :
    rest.length ≤ ts.length := by
  unfold baseType at h
  obtain ⟨⟨⟨text, position⟩, t₁⟩, h₁, h⟩ := except_bind_eq_ok.1 h
  have l₁ := name_lt h₁
  dsimp only at h
  split at h
  · obtain ⟨⟨p, t₂⟩, h₂, h⟩ := except_bind_eq_ok.1 h
    have l₂ := sizedType_le h₂
    have := rest_eq h
    subst this
    dsimp only at *
    omega
  · split at h
    · have := rest_eq h
      subst this
      dsimp only at *
      omega
    · obtain ⟨_, -, h⟩ := except_bind_eq_ok.1 h
      split at h
      · have := rest_eq h
        subst this
        dsimp only at *
        omega
      · cases h

theorem field_lt {finish : TextPosition} {ts rest : List Token} {f : FieldDeclaration String}
    (h : field finish ts = .ok (f, rest)) : rest.length < ts.length := by
  unfold field at h
  obtain ⟨⟨⟨_, _⟩, t₁⟩, h₁, h⟩ := except_bind_eq_ok.1 h
  obtain ⟨⟨_, t₂⟩, h₂, h⟩ := except_bind_eq_ok.1 h
  obtain ⟨⟨⟨_, _⟩, t₃⟩, h₃, h⟩ := except_bind_eq_ok.1 h
  obtain ⟨⟨⟨_, _⟩, t₄⟩, h₄, h⟩ := except_bind_eq_ok.1 h
  have l₁ := name_lt h₁
  have l₂ := mark_lt h₂
  have l₃ := baseType_le h₃
  have l₄ := arity_le h₄
  have := rest_eq h
  subst this
  dsimp only at *
  omega

/-! ## Structs -/

/-- Reads fields up to the closing brace of the struct; `done` holds those before, the latest
first. -/
def fields (finish : TextPosition) (struct : String) (done : List (FieldDeclaration String))
    (ts : List Token) : Except SchemaFailure (List (FieldDeclaration String) × List Token) :=
  if atMark '\x7d' ts then .ok (done.reverse, ts)
  else
    match _h : field finish ts with
    | .error e => .error e
    | .ok (f, rest) =>
      match done.find? (·.name = f.name) with
      | some first =>
        .error (.error ⟨.duplicateField f.name struct first.position, some f.position, none⟩)
      | none => fields finish struct (f :: done) (separator rest)
termination_by ts.length
decreasing_by exact Nat.lt_of_le_of_lt (separator_le rest) (field_lt _h)

theorem fields_le {finish : TextPosition} {struct : String} {done fs : List (FieldDeclaration String)}
    {ts rest : List Token} (h : fields finish struct done ts = .ok (fs, rest)) :
    rest.length ≤ ts.length := by
  fun_induction fields finish struct done ts with
  | case1 => cases h; exact Nat.le_refl _
  | case2 => cases h
  | case3 => cases h
  | case4 done ts hm f rest' hf hnew ih =>
    have := field_lt hf
    have := separator_le rest'
    have := ih h
    omega

/-- Reads a struct. -/
def struct (finish : TextPosition) (ts : List Token) :
    Except SchemaFailure (Declaration String × List Token) :=
  match ts with
  | ⟨.name "struct", _⟩ :: ts => do
    let ((name, position), ts) ← name finish .structName ts
    if isBuiltIn name then .error (.error ⟨.builtInName name, some position, none⟩)
    else do
      let (_, ts) ← mark finish '\x7b' ts
      let (fs, ts) ← fields finish name [] ts
      let (_, ts) ← mark finish '\x7d' ts
      .ok (⟨name, position, fs⟩, ts)
  | _ => .error (.error (unexpected finish .structKeyword ts))

theorem struct_lt {finish : TextPosition} {ts rest : List Token} {d : Declaration String}
    (h : struct finish ts = .ok (d, rest)) : rest.length < ts.length := by
  unfold struct at h
  split at h
  · obtain ⟨⟨⟨_, _⟩, t₁⟩, h₁, h⟩ := except_bind_eq_ok.1 h
    have l₁ := name_lt h₁
    dsimp only at h
    split at h
    · cases h
    · obtain ⟨⟨_, t₂⟩, h₂, h⟩ := except_bind_eq_ok.1 h
      obtain ⟨⟨fs, t₃⟩, h₃, h⟩ := except_bind_eq_ok.1 h
      obtain ⟨⟨_, t₄⟩, h₄, h⟩ := except_bind_eq_ok.1 h
      have l₂ := mark_lt h₂
      have l₃ := fields_le h₃
      have l₄ := mark_lt h₄
      have := rest_eq h
      subst this
      dsimp only at *
      simp only [List.length_cons]
      omega
  · cases h

/-- Reads structs up to the end; `done` holds those before, the latest first. -/
def structs (finish : TextPosition) (done : List (Declaration String)) (ts : List Token) :
    Except SchemaFailure (List (Declaration String)) :=
  match ts with
  | [] => .ok done.reverse
  | t :: ts =>
    match _h : struct finish (t :: ts) with
    | .error e => .error e
    | .ok (d, rest) => structs finish (d :: done) rest
termination_by ts.length
decreasing_by exact struct_lt _h

end Parse

/-- The declarations that the words of a schema text make up; there is at least one. -/
def TokenList.declarations [Codecs] (words : TokenList) :
    Except SchemaFailure (List (Declaration String)) :=
  match Parse.structs words.finish [] words.tokens with
  | .ok [] => .error (.error ⟨.emptySchema, some words.finish, none⟩)
  | result => result

end BinRecord
