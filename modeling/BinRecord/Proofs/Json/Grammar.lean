/-
The grammar of JSON text, said of its characters and without a reader: which runs of characters are blanks, strings,
numbers and values, and what data they stand for.
-/
import Mathlib.Tactic

namespace BinRecord

namespace Json

/-- What JSON text stands for. A number is its literal, an object keeps its members in order. -/
inductive Datum where
  | null
  | bool (b : Bool)
  | number (literal : List Char)
  | text (s : String)
  | array (items : List Datum)
  | object (members : List (String × Datum))

/-! ## Characters -/

/-- Whether the character may stand between words. -/
def isBlank (c : Char) : Bool := c = ' ' || c = '\t' || c = '\n' || c = '\r'

/-- Blanks and nothing else. -/
def Blanks (w : List Char) : Prop := ∀ c ∈ w, isBlank c = true

/-- Digits and nothing else. -/
def Digits (w : List Char) : Prop := ∀ c ∈ w, c.isDigit = true

/-! ## Strings -/

/-- The letters that may stand behind a backslash, and the characters that they stand for. -/
def shortEscapes : List (Char × Char) :=
  [('"', '"'), ('\\', '\\'), ('/', '/'), ('b', '\x08'), ('f', '\x0c'), ('n', '\n'), ('r', '\r'), ('t', '\t')]

/-- What a hexadecimal digit of either case stands for. -/
def hexValue? (c : Char) : Option Nat :=
  if c.isDigit then some (c.toNat - '0'.toNat)
  else if 'a' ≤ c ∧ c ≤ 'f' then some (c.toNat - 'a'.toNat + 10)
  else if 'A' ≤ c ∧ c ≤ 'F' then some (c.toNat - 'A'.toNat + 10)
  else none

/-- The unit of sixteen bits that four digits stand for. -/
def unit? (a b c d : Char) : Option Nat := do
  let a ← hexValue? a
  let b ← hexValue? b
  let c ← hexValue? c
  let d ← hexValue? d
  some (((a * 16 + b) * 16 + c) * 16 + d)

/-- What may stand in a string for a character: itself, unless it is a quote, a backslash or a control character; a
short escape; its unit; or the two units of a surrogate pair. -/
inductive Piece : List Char → Char → Prop
  | plain {c : Char} : 0x20 ≤ c.toNat → c ≠ '"' → c ≠ '\\' → Piece [c] c
  | short {l c : Char} : shortEscapes.lookup l = some c → Piece ['\\', l] c
  | unit {x y z t c : Char} : unit? x y z t = some c.toNat → Piece ['\\', 'u', x, y, z, t] c
  | pair {x y z t x' y' z' t' c : Char} {high low : Nat} : unit? x y z t = some (0xd800 + high) → high < 0x400 →
      unit? x' y' z' t' = some (0xdc00 + low) → low < 0x400 → c.toNat = 0x10000 + high * 0x400 + low →
      Piece ['\\', 'u', x, y, z, t, '\\', 'u', x', y', z', t'] c

/-- What stands between the quotes of a string. -/
inductive Inside : List Char → List Char → Prop
  | nil : Inside [] []
  | cons {p w cs : List Char} {c : Char} : Piece p c → Inside w cs → Inside (p ++ w) (c :: cs)

/-- A string. -/
inductive IsString : List Char → String → Prop
  | mk {w : List Char} {s : String} : Inside w s.toList → IsString ('"' :: (w ++ ['"'])) s

/-! ## Numbers -/

/-- The digits of a whole number, which do not start with a zero unless they are one zero. -/
inductive IsWhole : List Char → Prop
  | zero : IsWhole ['0']
  | positive {d : Char} {ds : List Char} : d.isDigit = true → d ≠ '0' → Digits ds → IsWhole (d :: ds)

/-- The minus sign that may stand before a number. -/
inductive IsMinus : List Char → Prop
  | none : IsMinus []
  | minus : IsMinus ['-']

/-- The fraction that a number may have. -/
inductive IsFraction : List Char → Prop
  | none : IsFraction []
  | digits {ds : List Char} : Digits ds → ds ≠ [] → IsFraction ('.' :: ds)

/-- The exponent that a number may have. -/
inductive IsExponent : List Char → Prop
  | none : IsExponent []
  | unsigned {e : Char} {ds : List Char} : e = 'e' ∨ e = 'E' → Digits ds → ds ≠ [] → IsExponent (e :: ds)
  | signed {e sign : Char} {ds : List Char} : e = 'e' ∨ e = 'E' → sign = '+' ∨ sign = '-' → Digits ds → ds ≠ [] →
      IsExponent (e :: sign :: ds)

/-- A number. -/
inductive IsNumber : List Char → Prop
  | mk {minus whole fraction exponent : List Char} : IsMinus minus → IsWhole whole → IsFraction fraction →
      IsExponent exponent → IsNumber (minus ++ (whole ++ (fraction ++ exponent)))

/-! ## Values -/

/-- One thing or more with commas between them. -/
inductive Separated {α : Type} (P : List Char → α → Prop) : List Char → List α → Prop
  | one {w : List Char} {a : α} : P w a → Separated P w [a]
  | cons {w v : List Char} {a : α} {as : List α} : P w a → Separated P v as → Separated P (w ++ ',' :: v) (a :: as)

/-- Between brackets there are blanks, or things with commas between them. -/
inductive Bracketed {α : Type} (opening closing : Char) (P : List Char → α → Prop) : List Char → List α → Prop
  | blanks {w : List Char} : Blanks w → Bracketed opening closing P (opening :: (w ++ [closing])) []
  | things {w : List Char} {as : List α} : Separated P w as →
      Bracketed opening closing P (opening :: (w ++ [closing])) as

mutual

/-- A value. -/
inductive IsValue : List Char → Datum → Prop
  | null : IsValue ['n', 'u', 'l', 'l'] .null
  | isTrue : IsValue ['t', 'r', 'u', 'e'] (.bool true)
  | isFalse : IsValue ['f', 'a', 'l', 's', 'e'] (.bool false)
  | number {w : List Char} : IsNumber w → IsValue w (.number w)
  | text {w : List Char} {s : String} : IsString w s → IsValue w (.text s)
  | array {w : List Char} {js : List Datum} : Bracketed '[' ']' IsElement w js → IsValue w (.array js)
  | object {w : List Char} {ms : List (String × Datum)} : Bracketed '{' '}' IsMember w ms → IsValue w (.object ms)

/-- A value with blanks around it. -/
inductive IsElement : List Char → Datum → Prop
  | mk {a w b : List Char} {j : Datum} : Blanks a → IsValue w j → Blanks b → IsElement (a ++ (w ++ b)) j

/-- A key and its value. -/
inductive IsMember : List Char → String × Datum → Prop
  | mk {a k b w : List Char} {s : String} {j : Datum} : Blanks a → IsString k s → Blanks b → IsElement w j →
      IsMember (a ++ (k ++ (b ++ ':' :: w))) (s, j)

end

/-- A JSON text: a value with blanks around it. -/
def IsText (text : List Char) (j : Datum) : Prop := IsElement text j

end Json

end BinRecord
