/-
The names of the built-in types, said letter by letter and without reading them: which names are numeric and
what they say, which widths there are, and which names no struct can have. Reading a name finds just this.
-/
import BinRecord.Proofs.Traversal
import BinRecord.Schema.Declaration

namespace BinRecord

/-! ## Spellings -/

/-- The letter of a family. -/
def NumericFamily.letter : NumericFamily → Char
  | unsigned => 'U'
  | signed => 'I'
  | float => 'F'

/-- How a byte order may stand at the end of a name. -/
inductive OrderEnding : List Char → ByteOrder → Prop
  | none : OrderEnding [] .big
  | big : OrderEnding ['B', 'E'] .big
  | little : OrderEnding ['L', 'E'] .little

/-- How a numeric name is made up: the letter of a family, figures, of which the first may be zeros, and perhaps
a byte order. -/
inductive NumericSpelling : List Char → NumericName → Prop
  | mk (family : NumericFamily) {figures ending : List Char} {order : ByteOrder} : figures ≠ [] →
      (∀ c ∈ figures, c.isDigit = true) → OrderEnding ending order →
      NumericSpelling (family.letter :: (figures ++ ending)) ⟨family, figures, order⟩

/-- What a name says as that of a numeric type, by itself or as an older name of another. -/
def IsNumeric (name : String) (n : NumericName) : Prop :=
  NumericSpelling name.toList n ∨ ∃ newer, (name, newer) ∈ typeAliases ∧ NumericSpelling newer.toList n

/-- The width in bits that the name of a numeric type says. -/
def NumericName.bits (n : NumericName) : Nat := Text.decimalValue n.figures

/-- The numeric types that there are, each with its width in bits. -/
inductive NumericName.Denotes (n : NumericName) : Primitive → Prop
  | unsigned (w : IntegerWidth) : n.family = .unsigned → n.bits = 8 * w.bytes → Denotes n (.unsigned w n.order)
  | signed (w : IntegerWidth) : n.family = .signed → n.bits = 8 * w.bytes → Denotes n (.signed w n.order)
  | float (f : FloatFormat) : n.family = .float → n.bits = 8 * f.width → Denotes n (.float f n.order)

/-- The keyword of a family of types with a width. -/
def SizedFamily.keyword : SizedFamily → String
  | text => "NSTR"
  | bytes => "BYTES"
  | padding => "PAD"

/-- Whether a name is that of a built-in type, also of one with a width that there is not. -/
def IsBuiltInName (name : String) : Prop := (∃ family : SizedFamily, name = family.keyword) ∨ ∃ n, IsNumeric name n

/-! ## Reading a name -/

theorem ofName?_eq_some_iff {name : String} {family : SizedFamily} :
    SizedFamily.ofName? name = some family ↔ name = family.keyword := by
  unfold SizedFamily.ofName?
  constructor
  · intro h
    split at h
    · rename_i he; cases h; exact he
    split at h
    · rename_i he; cases h; exact he
    split at h
    · rename_i he; cases h; exact he
    · cases h
  · rintro rfl
    cases family <;> decide +kernel

theorem ofLetter?_eq_some_iff {c : Char} {family : NumericFamily} :
    NumericFamily.ofLetter? c = some family ↔ c = family.letter := by
  unfold NumericFamily.ofLetter?
  constructor
  · intro h
    split at h
    · rename_i he; cases h; exact he
    split at h
    · rename_i he; cases h; exact he
    split at h
    · rename_i he; cases h; exact he
    · cases h
  · rintro rfl
    cases family <;> rfl

theorem orderOfEnding?_eq_some_iff {cs : List Char} {order : ByteOrder} :
    orderOfEnding? cs = some order ↔ OrderEnding cs order := by
  unfold orderOfEnding?
  constructor
  · intro h
    split at h
    · rename_i he; cases h; rw [he]; exact .little
    split at h
    · rename_i he
      cases h
      rcases he with rfl | rfl
      · exact .none
      · exact .big
    · cases h
  · intro h
    cases h <;> rfl

/-- Figures are read up to what stands at the end of a name. -/
theorem OrderEnding.stops {cs : List Char} {order : ByteOrder} (h : OrderEnding cs order) (figures : List Char)
    (hf : ∀ c ∈ figures, c.isDigit = true) :
    (figures ++ cs).takeWhile Char.isDigit = figures ∧ (figures ++ cs).dropWhile Char.isDigit = cs := by
  rw [List.takeWhile_append_of_pos hf, List.dropWhile_append_of_pos hf]
  cases h <;> simp

theorem ofChars?_eq_some_iff {cs : List Char} {n : NumericName} :
    NumericName.ofChars? cs = some n ↔ NumericSpelling cs n := by
  constructor
  · intro h
    unfold NumericName.ofChars? at h
    split at h
    · cases h
    · rename_i c cs
      dsimp only at h
      split at h
      · rename_i family order hfamily horder
        split at h
        · cases h
        · rename_i hne
          cases h
          rw [ofLetter?_eq_some_iff] at hfamily
          rw [orderOfEnding?_eq_some_iff] at horder
          have hdigits : ∀ d ∈ cs.takeWhile Char.isDigit, d.isDigit = true :=
            List.all_eq_true.1 List.all_takeWhile
          have hspelled := NumericSpelling.mk family (fun he => hne (by simp [he])) hdigits horder
          rwa [List.takeWhile_append_dropWhile, ← hfamily] at hspelled
      · cases h
  · rintro ⟨family, hne, hdigits, hending⟩
    rename_i figures ending order
    obtain ⟨htake, hdrop⟩ := hending.stops figures hdigits
    have hempty : figures.isEmpty = false := by simpa using hne
    simp only [NumericName.ofChars?, htake, hdrop, ofLetter?_eq_some_iff.2 rfl, orderOfEnding?_eq_some_iff.2 hending,
      hempty, Bool.false_eq_true, if_false]

/-- Reading a name finds what it says as that of a numeric type. -/
theorem ofName?_eq_some_numeric {name : String} {n : NumericName} :
    NumericName.ofName? name = some n ↔ IsNumeric name n := by
  unfold NumericName.ofName? IsNumeric
  simp only [← ofChars?_eq_some_iff]
  -- older names are told apart from each other, and from names that say something by themselves
  have hkeys : (typeAliases.map (·.1)).Nodup := by decide +kernel
  have holder : ∀ e ∈ typeAliases, NumericName.ofChars? e.1.toList = none := by decide +kernel
  cases hl : typeAliases.lookup name with
  | none =>
    rw [Option.getD_none]
    refine ⟨.inl, fun h => h.resolve_right ?_⟩
    rintro ⟨newer, hmem, -⟩
    rw [List.lookup_eq_none_iff] at hl
    simpa using hl _ hmem
  | some newer =>
    rw [Option.getD_some]
    have hmem : (name, newer) ∈ typeAliases := by
      obtain ⟨before, after, he, -⟩ := List.lookup_eq_some_iff.1 hl
      rw [he]
      simp
    constructor
    · exact fun h => .inr ⟨newer, hmem, h⟩
    · rintro (h | ⟨other, hother, h⟩)
      · rw [holder _ hmem] at h
        cases h
      · have := List.inj_on_of_nodup_map hkeys hmem hother rfl
        cases this
        exact h

theorem eq_of_integerBits {bits : Nat} {w : IntegerWidth} (h : IntegerWidth.ofBits? bits = some w) :
    bits = 8 * w.bytes := by
  unfold IntegerWidth.ofBits? at h
  split_ifs at h <;> cases h <;> assumption

theorem eq_of_floatBits {bits : Nat} {f : FloatFormat} (h : FloatFormat.ofBits? bits = some f) :
    bits = 8 * f.width := by
  unfold FloatFormat.ofBits? at h
  split_ifs at h <;> cases h <;> assumption

theorem ofBits?_bytes (w : IntegerWidth) : IntegerWidth.ofBits? (8 * w.bytes) = some w := by cases w <;> rfl

theorem ofBits?_width (f : FloatFormat) : FloatFormat.ofBits? (8 * f.width) = some f := by cases f <;> rfl

theorem primitive?_eq_some_iff {n : NumericName} {p : Primitive} :
    n.family.primitive? n.bits n.order = some p ↔ n.Denotes p := by
  constructor
  · intro h
    cases hf : n.family with
    | unsigned =>
      rw [hf] at h
      obtain ⟨w, hw, rfl⟩ := Option.map_eq_some_iff.1 h
      exact .unsigned w hf (eq_of_integerBits hw)
    | signed =>
      rw [hf] at h
      obtain ⟨w, hw, rfl⟩ := Option.map_eq_some_iff.1 h
      exact .signed w hf (eq_of_integerBits hw)
    | float =>
      rw [hf] at h
      obtain ⟨f, hw, rfl⟩ := Option.map_eq_some_iff.1 h
      exact .float f hf (eq_of_floatBits hw)
  · intro h
    cases h with
    | unsigned w hf hw =>
      rw [hf, hw, NumericFamily.primitive?, ofBits?_bytes]
      rfl
    | signed w hf hw =>
      rw [hf, hw, NumericFamily.primitive?, ofBits?_bytes]
      rfl
    | float f hf hw =>
      rw [hf, hw, NumericFamily.primitive?, ofBits?_width]
      rfl

theorem isBuiltIn_eq_true_iff {name : String} : isBuiltIn name = true ↔ IsBuiltInName name := by
  simp only [isBuiltIn, IsBuiltInName, Bool.or_eq_true, Option.isSome_iff_exists, ofName?_eq_some_iff,
    ofName?_eq_some_numeric]

theorem isBuiltIn_eq_false_iff {name : String} : isBuiltIn name = false ↔ ¬ IsBuiltInName name := by
  rw [← isBuiltIn_eq_true_iff, Bool.not_eq_true]

/-! ## A name says one thing -/

theorem IsNumeric.unique {name : String} {n n' : NumericName} (h : IsNumeric name n) (h' : IsNumeric name n') :
    n = n' := by
  rw [← ofName?_eq_some_numeric] at h h'
  exact Option.some.inj (h.symm.trans h')

theorem NumericName.Denotes.unique {n : NumericName} {p p' : Primitive} (h : n.Denotes p) (h' : n.Denotes p') :
    p = p' := by
  rw [← primitive?_eq_some_iff] at h h'
  exact Option.some.inj (h.symm.trans h')

theorem SizedFamily.keyword_inj {family family' : SizedFamily} (h : family.keyword = family'.keyword) :
    family = family' :=
  Option.some.inj ((ofName?_eq_some_iff.2 rfl).symm.trans (ofName?_eq_some_iff.2 h))

/-- No keyword of a type with a width is a numeric name. -/
theorem not_isNumeric_keyword (family : SizedFamily) (n : NumericName) : ¬ IsNumeric family.keyword n := by
  have hnone : NumericName.ofName? family.keyword = none := by cases family <;> decide +kernel
  rw [← ofName?_eq_some_numeric, hnone]
  exact nofun

end BinRecord
