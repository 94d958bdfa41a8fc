/-
Cutting a text at the characters that separate its parts.
-/
namespace BinRecord.Text

/-- The parts of a text between the characters that satisfy `p`; there is always one more than
there are such characters. -/
def split (p : Char → Bool) (cs : List Char) : List (List Char) :=
  cs.foldr
    (fun c parts =>
      if p c then [] :: parts
      else
        match parts with
        | [] => [[c]]
        | part :: parts => (c :: part) :: parts)
    [[]]

theorem split_ne_nil (p : Char → Bool) (cs : List Char) : split p cs ≠ [] := by
  cases cs with
  | nil => simp [split]
  | cons c cs =>
    simp only [split, List.foldr_cons]
    split
    · simp
    · split <;> simp

/-- The parts of a text that are not empty. -/
def words (p : Char → Bool) (cs : List Char) : List (List Char) :=
  (split p cs).filter (!·.isEmpty)

example : split (· = ',') ['a', ',', ',', 'b'] = [['a'], [], ['b']] := by decide

example : words (· = ',') ['a', ',', ',', 'b'] = [['a'], ['b']] := by decide

end BinRecord.Text
