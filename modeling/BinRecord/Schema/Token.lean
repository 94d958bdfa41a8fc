/-
The words of schema text. Blanks and comments separate words and are dropped; a comment runs from
its hash to the end of the line. Each word is as long as it can be.
-/
import BinRecord.Position
import BinRecord.Schema.Error

namespace BinRecord

/-- A word of schema text: a name, a number in figures, or a punctuation mark. -/
inductive Lexeme where
  | name (text : String)
  | figures (text : String)
  | mark (c : Char)
  deriving DecidableEq, Repr

/-- The characters of a word. -/
def Lexeme.text : Lexeme → String
  | name text => text
  | figures text => text
  | mark c => String.singleton c

/-- A word and where it stands. -/
structure Token where
  lexeme : Lexeme
  position : TextPosition
  deriving DecidableEq, Repr

/-- The words of a text in order, and the place where the text ends. -/
structure TokenList where
  tokens : List Token
  finish : TextPosition
  deriving DecidableEq, Repr

namespace Token

/-! ## Characters -/

/-- Whether a character separates words. -/
def isSpace (c : Char) : Bool := c = ' ' || c = '\t' || c = '\r' || c = '\n'

/-- Whether a name can start with the character. -/
def isNameStart (c : Char) : Bool := c.isAlpha || c = '_'

/-- Whether a name can go on with the character. -/
def isNamePart (c : Char) : Bool := c.isAlphanum || c = '_' || c = '-'

/-- Whether the character is a punctuation mark. -/
def isMark (c : Char) : Bool := "\x7b\x7d:[]<>,;+".toList.contains c

/-! ## Places -/

/-- Where a scan stands: line and column from one, characters passed from zero. -/
structure Place where
  line : Nat := 1
  column : Nat := 1
  offset : Nat := 0
  deriving DecidableEq, Repr

/-- The place after one character. -/
def Place.next (p : Place) (c : Char) : Place :=
  if c = '\n' then ⟨p.line + 1, 1, p.offset + 1⟩ else ⟨p.line, p.column + 1, p.offset + 1⟩

/-- The place after some characters. -/
def Place.after (p : Place) (cs : List Char) : Place := cs.foldl Place.next p

/-- The position of `length` characters from a place on. -/
def Place.position (p : Place) (length : Nat) : TextPosition :=
  ⟨p.line, p.column, p.offset, length⟩

/-! ## Scanning -/

/-- The characters at the head of a text that belong together, what word they are if they are one,
and what follows them. -/
structure Piece where
  lexeme : Option Lexeme
  taken : List Char
  rest : List Char

/-- The piece of the characters that satisfy `p`, after a first one. -/
def Piece.run (lexeme : List Char → Option Lexeme) (p : Char → Bool) (c : Char)
    (cs : List Char) : Piece :=
  let taken := c :: cs.takeWhile p
  ⟨lexeme taken, taken, cs.dropWhile p⟩

/-- The piece at the head of a text that starts with `c`; none if no piece starts with it. -/
def piece? (c : Char) (cs : List Char) : Option Piece :=
  if isSpace c then some (.run (fun _ => none) isSpace c cs)
  else if c = '#' then some (.run (fun _ => none) (· ≠ '\n') c cs)
  else if isNameStart c then some (.run (some <| .name <| String.ofList ·) isNamePart c cs)
  else if c.isDigit then some (.run (some <| .figures <| String.ofList ·) Char.isDigit c cs)
  else if isMark c then some ⟨some (.mark c), [c], cs⟩
  else none

theorem piece?_rest_le {c : Char} {cs : List Char} {piece : Piece} (h : piece? c cs = some piece) :
    piece.rest.length ≤ cs.length := by
  unfold piece? at h
  split at h
  · cases h; exact (List.dropWhile_sublist _).length_le
  split at h
  · cases h; exact (List.dropWhile_sublist _).length_le
  split at h
  · cases h; exact (List.dropWhile_sublist _).length_le
  split at h
  · cases h; exact (List.dropWhile_sublist _).length_le
  split at h
  · cases h; exact Nat.le_refl _
  · cases h

/-- Scans what is left of a text; `done` holds the words before it, the latest first. -/
def scanFrom (place : Place) (done : List Token) : List Char → Except SchemaError TokenList
  | [] => .ok ⟨done.reverse, place.position 1⟩
  | c :: cs =>
    match _h : piece? c cs with
    | none => .error ⟨.unknownToken c, some (place.position 1), none⟩
    | some piece =>
      let word := piece.lexeme.map fun l => (⟨l, place.position piece.taken.length⟩ : Token)
      scanFrom (place.after piece.taken) (word.toList ++ done) piece.rest
termination_by cs => cs.length
decreasing_by exact Nat.lt_succ_of_le (piece?_rest_le _h)

/-- The words of a text. -/
def scan (text : String) : Except SchemaError TokenList := scanFrom {} [] text.toList

end Token

end BinRecord
