/-
Where a fault lies: a stretch of a line of schema text, or a byte of record data.
-/
namespace BinRecord

/-- A stretch of schema text. Lines and columns count from one, `offset` counts characters from the
start of the text. The scanner makes only positions inside its text; others can be shown too. -/
structure TextPosition where
  line : Int
  column : Int
  offset : Int := 0
  length : Int := 1
  deriving DecidableEq, Repr, Inhabited

/-- How a message names a place in text. -/
def TextPosition.describe (p : TextPosition) : String := s!"line {p.line}, column {p.column}"

/-- A place in schema text or in record data. -/
inductive Position where
  | text (place : TextPosition)
  | byte (offset : Int)
  deriving DecidableEq, Repr, Inhabited

/-- How a message names a place. -/
def Position.describe : Position → String
  | .text place => place.describe
  | .byte offset => s!"byte offset {offset}"

end BinRecord
