/-
An excerpt of schema text with carets under one token. A long line is clipped on each side of the
token, and two dots mark each clipped end. Positions that lie outside the text are shown too: their
line is taken to be empty, and cuts that are negative count from the end of the line.
-/
import BinRecord.Position
import BinRecord.Text.Split

namespace BinRecord

namespace Snippet

/-- How many characters are kept on each side of the token. -/
def margin : Int := 32

/-- The lines of a text: what stands between its newlines. -/
def lines (text : List Char) : List (List Char) := Text.split (· = '\n') text

/-- The line with the given number, counted from one; empty when there is none. -/
def lineAt (text : List Char) (number : Int) : List Char :=
  if 0 < number then ((lines text)[(number - 1).toNat]?).getD [] else []

/-- The part of a line between two cuts; a negative cut counts from its end. -/
def cut (line : List Char) (start stop : Int) : List Char :=
  let place (i : Int) : Nat := (if i < 0 then i + line.length else i).toNat
  (line.take (place stop)).drop (place start)

/-- `n` copies of a character, none when `n` is not positive. -/
def run (c : Char) (n : Int) : List Char := List.replicate n.toNat c

/-- The two output lines of an excerpt, each without its newline. -/
def rows (text : List Char) (p : TextPosition) : List Char × List Char :=
  let line := lineAt text p.line
  let start := p.column - 1
  let stop := start + max p.length 1
  let shownFrom := max start margin - margin
  let shownTo := min (stop + margin) line.length
  let left := if shownFrom = 0 then "    ".toList else " .. ".toList
  let right := if line.length ≤ shownTo then [] else " ..".toList
  (run ' ' 4 ++ left ++ cut line shownFrom shownTo ++ right,
    run ' ' 4 ++ run ' ' (left.length + start - shownFrom) ++ run '^' (stop - start))

/-- The excerpt of `text` around a position. -/
def render (text : String) (p : TextPosition) : String :=
  let (shown, marks) := rows text.toList p
  String.ofList (shown ++ '\n' :: marks ++ ['\n'])

end Snippet

end BinRecord
