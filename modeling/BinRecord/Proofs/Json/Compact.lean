/-
JSON text without the blanks outside its strings. Strings and numbers come through as they are, so it is the layout
alone that goes.
-/
import BinRecord.Proofs.Json.Unambiguous

namespace BinRecord

namespace Json

/-- Where in JSON text a character stands: outside the strings, in one, or behind a backslash in one. -/
inductive Place where
  | outside
  | inside
  | escaped

/-- The text from some place on without the blanks outside its strings. -/
def compact : Place → List Char → List Char
  | _, [] => []
  | .outside, c :: cs =>
    if isBlank c then compact .outside cs else c :: compact (if c = '"' then .inside else .outside) cs
  | .inside, c :: cs => c :: compact (if c = '"' then .outside else if c = '\\' then .escaped else .inside) cs
  | .escaped, c :: cs => c :: compact .inside cs

/-- Whatever comes behind it, `w` without blanks is `w'`; it does not end in a string. -/
def Compacts (w w' : List Char) : Prop := ∀ r, compact .outside (w ++ r) = w' ++ compact .outside r

variable {v v' w w' : List Char}

theorem Compacts.append (hw : Compacts w w') (hv : Compacts v v') : Compacts (w ++ v) (w' ++ v') := by
  intro r
  rw [List.append_assoc, hw, hv, List.append_assoc]

theorem Compacts.cons {c : Char} (hblank : isBlank c = false) (hquote : c ≠ '"') (hw : Compacts w w') :
    Compacts (c :: w) (c :: w') := by
  intro r
  simp only [List.cons_append, compact, hblank, hquote, Bool.false_eq_true, if_false]
  rw [hw]

theorem compacts_nil : Compacts [] [] := fun _ => rfl

theorem blanks_nil : Blanks [] := by simp [Blanks]

theorem Blanks.compacts (h : Blanks w) : Compacts w [] := by
  intro r
  induction w with
  | nil => rfl
  | cons c w ih =>
    obtain ⟨hc, hw⟩ := List.forall_mem_cons.1 h
    simp only [List.cons_append, compact, hc, if_true]
    exact ih hw

/-! ## Numbers and strings -/

theorem IsNumber.compacts (h : IsNumber w) : Compacts w w := by
  have hparts := h.parts
  clear h
  induction w with
  | nil => exact compacts_nil
  | cons c w ih =>
    obtain ⟨hc, hw⟩ := List.forall_mem_cons.1 hparts
    refine .cons ?_ ?_ (ih hw)
    · rw [Bool.eq_false_iff]
      intro hblank
      simp only [isBlank, Bool.or_eq_true, decide_eq_true_eq] at hblank
      rcases hblank with ((rfl | rfl) | rfl) | rfl <;> cases hc
    · rintro rfl
      cases hc

theorem hexValue?_plain {c : Char} {n : Nat} (h : hexValue? c = some n) : c ≠ '"' ∧ c ≠ '\\' := by
  constructor <;> rintro rfl <;> cases h

/-- In a string, a character that is neither quote nor backslash comes through. -/
theorem compact_plain {c : Char} (h : c ≠ '"' ∧ c ≠ '\\') (r : List Char) :
    compact .inside (c :: r) = c :: compact .inside r := by
  simp only [compact, h, if_false]

theorem compact_unit {x y z t : Char} {n : Nat} (h : unit? x y z t = some n) (r : List Char) :
    compact .inside ('\\' :: 'u' :: x :: y :: z :: t :: r) = '\\' :: 'u' :: x :: y :: z :: t :: compact .inside r := by
  simp only [unit?, Option.bind_eq_bind, Option.bind_eq_some_iff] at h
  obtain ⟨_, hx, _, hy, _, hz, _, ht, -⟩ := h
  calc compact .inside ('\\' :: 'u' :: x :: y :: z :: t :: r)
      = '\\' :: 'u' :: compact .inside (x :: y :: z :: t :: r) := rfl
    _ = _ := by
      rw [compact_plain (hexValue?_plain hx), compact_plain (hexValue?_plain hy), compact_plain (hexValue?_plain hz),
        compact_plain (hexValue?_plain ht)]

theorem Piece.compact {p : List Char} {c : Char} (h : Piece p c) (r : List Char) :
    Json.compact .inside (p ++ r) = p ++ Json.compact .inside r := by
  cases h with
  | plain _ hquote hback => exact compact_plain ⟨hquote, hback⟩ r
  | short => rfl
  | unit hu => exact compact_unit hu r
  | pair hhigh _ hlow =>
    simp only [List.cons_append, List.nil_append]
    rw [compact_unit hhigh, compact_unit hlow]

theorem Inside.compact {cs : List Char} (h : Inside w cs) (r : List Char) :
    Json.compact .inside (w ++ '"' :: r) = w ++ '"' :: Json.compact .outside r := by
  induction h with
  | nil => rfl
  | cons hp _ ih => rw [List.append_assoc, hp.compact, ih, List.append_assoc]

theorem IsString.compacts {s : String} (h : IsString w s) : Compacts w w := by
  obtain ⟨hin⟩ := h
  intro r
  simp only [List.cons_append, List.append_assoc, List.nil_append]
  exact congrArg ('"' :: ·) (hin.compact r)

end Json

end BinRecord
