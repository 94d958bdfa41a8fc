/-
Quoted text: how a message shows a name or a run of bytes that it cannot show bare. The quotes are
single unless the text holds a single quote and no double one. The backslash, the quote itself and
three layout characters have short escapes; what is not printable is written by its number.
-/
import BinRecord.Bytes
import BinRecord.Text.Printable

namespace BinRecord.Text

/-- The lower-case hexadecimal digits of `n`, at least `width` of them. -/
def hexDigits (width n : Nat) : List Char :=
  let ds := Nat.toDigits 16 n
  List.replicate (width - ds.length) '0' ++ ds

/-- The quote that surrounds a text: a double one where that saves an escape. -/
def quoteMark (cs : List Char) : Char :=
  if cs.contains '\'' && !cs.contains '"' then '"' else '\''

/-- The escapes shared by quoted text and quoted bytes. -/
def shortEscape? (quote c : Char) : Option (List Char) :=
  if c = quote || c = '\\' then some ['\\', c]
  else if c = '\n' then some ['\\', 'n']
  else if c = '\r' then some ['\\', 'r']
  else if c = '\t' then some ['\\', 't']
  else none

/-- A character inside quotes. -/
def escapeChar (quote c : Char) : List Char :=
  match shortEscape? quote c with
  | some cs => cs
  | none =>
    if isPrintable c then [c]
    else if c.toNat < 0x100 then '\\' :: 'x' :: hexDigits 2 c.toNat
    else if c.toNat < 0x10000 then '\\' :: 'u' :: hexDigits 4 c.toNat
    else '\\' :: 'U' :: hexDigits 8 c.toNat

/-- A text in quotes, on characters. -/
def quoteChars (cs : List Char) : List Char :=
  let quote := quoteMark cs
  quote :: cs.flatMap (escapeChar quote) ++ [quote]

/-- A text in quotes. -/
def quote (s : String) : String := String.ofList (quoteChars s.toList)

/-- A byte inside quotes: printable ASCII stands for itself. -/
def escapeByte (quote : Char) (b : UInt8) : List Char :=
  let c := Char.ofNat b.toNat
  match shortEscape? quote c with
  | some cs => cs
  | none => if 0x20 ≤ b && b < 0x7f then [c] else '\\' :: 'x' :: Bytes.hexOfByte b

/-- Bytes in quotes, marked by a `b` in front. -/
def quoteBytes (bs : Bytes) : String :=
  let quote := quoteMark (bs.map fun b => Char.ofNat b.toNat)
  String.ofList ('b' :: quote :: bs.flatMap (escapeByte quote) ++ [quote])

example : quoteChars ['a', '\n'] = ['\'', 'a', '\\', 'n', '\''] := by decide +kernel

example : quoteChars ['\''] = ['"', '\'', '"'] := by decide +kernel

end BinRecord.Text
