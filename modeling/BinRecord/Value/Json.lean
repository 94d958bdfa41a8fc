/-
JSON text of values. Strings escape the quote, the backslash and the control characters, and nothing
else; bytes become hexadecimal text; numbers that are not finite become words in quotes. Without an
indentation there is no blank outside strings; with one, every entry and item has its own line.
-/
import BinRecord.Float.Shortest
import BinRecord.Text.Integer
import BinRecord.Text.Quoted
import BinRecord.Value.Basic

namespace BinRecord

namespace Json

/-! ## Strings -/

/-- A character inside a JSON string. -/
def escapeChar (c : Char) : List Char :=
  if c = '"' || c = '\\' then ['\\', c]
  else if c = '\n' then ['\\', 'n']
  else if c = '\r' then ['\\', 'r']
  else if c = '\t' then ['\\', 't']
  else if c = '\x08' then ['\\', 'b']
  else if c = '\x0c' then ['\\', 'f']
  else if c.toNat < 0x20 then '\\' :: 'u' :: Text.hexDigits 4 c.toNat
  else [c]

/-- The inside of a JSON string. -/
def escape (cs : List Char) : List Char := cs.flatMap escapeChar

/-- A JSON string. -/
def string (s : String) : List Char := '"' :: escape s.toList ++ ['"']

/-! ## Layout -/

/-- What stands before an entry at some depth, or before the closing bracket of that depth: nothing,
or a new line with `step` spaces for each level. -/
def lineBreak (indent : Option Nat) (depth : Nat) : List Char :=
  match indent with
  | none => []
  | some step => '\n' :: List.replicate (step * depth) ' '

/-- What stands between a key and its value. -/
def colon (indent : Option Nat) : List Char :=
  match indent with
  | none => [':']
  | some _ => [':', ' ']

end Json

namespace Value

open Json

mutual

/-- The JSON text of a value at some depth. -/
def write (indent : Option Nat) (depth : Nat) : Value → List Char
  | .int n => Text.decimal n
  | .float format x => x.format format
  | .text s => string s
  | .bytes bs => '"' :: Bytes.toHex bs ++ ['"']
  | .struct [] => ['{', '}']
  | .struct (e :: es) =>
    '{' :: lineBreak indent (depth + 1) ++ writeEntries indent (depth + 1) (e :: es) ++
      lineBreak indent depth ++ ['}']
  | .array [] => ['[', ']']
  | .array (v :: vs) =>
    '[' :: lineBreak indent (depth + 1) ++ writeItems indent (depth + 1) (v :: vs) ++
      lineBreak indent depth ++ [']']

/-- The entries of a struct, with what separates them. -/
def writeEntries (indent : Option Nat) (depth : Nat) : List (String × Value) → List Char
  | [] => []
  | (key, v) :: [] => string key ++ colon indent ++ write indent depth v
  | (key, v) :: e :: es =>
    string key ++ colon indent ++ write indent depth v ++ ',' :: lineBreak indent depth ++
      writeEntries indent depth (e :: es)

/-- The items of an array, with what separates them. -/
def writeItems (indent : Option Nat) (depth : Nat) : List Value → List Char
  | [] => []
  | v :: [] => write indent depth v
  | v :: w :: vs =>
    write indent depth v ++ ',' :: lineBreak indent depth ++ writeItems indent depth (w :: vs)

end

mutual

/-- Whether every integer in a value has few enough digits to be written. -/
def isWritable : Value → Bool
  | .int n => Text.isWritable n
  | .struct entries => entriesWritable entries
  | .array items => itemsWritable items
  | .float .. | .text _ | .bytes _ => true

/-- Whether the values of all entries can be written. -/
def entriesWritable : List (String × Value) → Bool
  | [] => true
  | (_, v) :: entries => isWritable v && entriesWritable entries

/-- Whether all items can be written. -/
def itemsWritable : List Value → Bool
  | [] => true
  | v :: items => isWritable v && itemsWritable items

end

/-- The JSON text of a value. A negative indentation is none at all, but still breaks lines. An
integer with too many digits is not written, and nothing that holds it. -/
def toJson (v : Value) (indent : Option Int) : Except Escape String :=
  if v.isWritable then .ok (String.ofList (v.write (indent.map Int.toNat) 0))
  else .error .unwritable

end Value

end BinRecord
