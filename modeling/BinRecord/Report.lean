/-
Reports for people: the lines that tell of an error, with an excerpt of the schema text where the
error lies in it, and a table of the reasons for which layouts did not recognize a header. A console
shows no control characters and fills tabs up to every eighth column.
-/
import BinRecord.Record.Basic
import BinRecord.Snippet
import BinRecord.Source.Error
import BinRecord.Text.Blank
import BinRecord.Text.Columns

namespace BinRecord

/-- A report: lines, and after them a table if it has rows. -/
structure Report where
  lines : List String := []
  table : List LayoutMismatch := []
  deriving DecidableEq, Repr

namespace Report

/-! ## Console lines -/

/-- Whether a console drops the character: bell, backspace, and the moves to another line that are
no newline. -/
def isDropped (c : Char) : Bool := [7, 8, 11, 12, 13].contains c.toNat

/-- How many columns lie between tab stops. -/
def tabWidth : Nat := 8

/-- A line with its tabs filled: what stands before a tab is followed by spaces up to the next stop.
-/
def fillTabs (line : List Char) : List Char :=
  let parts := Text.split (· = '\t') line
  let fill (part : List Char) : List Char :=
    part ++ List.replicate (tabWidth - Text.columns part % tabWidth) ' '
  parts.dropLast.flatMap fill ++ parts.getLastD []

/-- A text without the spaces at its end. -/
def trimEnd (cs : List Char) : List Char := (cs.reverse.dropWhile (· = ' ')).reverse

/-- The lines that a console shows for a text. -/
def consoleLines (text : String) : List String :=
  let shown := text.toList.filter (!isDropped ·)
  (Snippet.lines shown).map fun l => String.ofList (trimEnd (fillTabs l))

/-- The last line of a text as it is, without the spaces at its end. -/
def lastLine (text : String) : String :=
  String.ofList (trimEnd ((Snippet.lines text.toList).getLastD []))

/-- The report of a text. -/
def ofText (text : String) : Report := ⟨consoleLines text, []⟩

/-! ## Errors -/

/-- The lines of an error: a headline, the reason, an excerpt if there is one, and the causes. -/
def errorLines (headline : String) (d : Diagnostic) (excerpt : Option String) : List String :=
  let place := match d.position with
    | none => ""
    | some p => s!" (at {p.describe})"
  let shown := match excerpt with
    | none => []
    | some text => "" :: (consoleLines text).dropLast
  consoleLines headline ++ consoleLines s!"reason: {d.message}{place}" ++ shown ++
    d.causes.flatMap fun cause => consoleLines s!"caused by: {cause}"

/-- The report of an error of the library. The excerpt shows the text of a schema that a record
named. -/
def ofRecordError : RecordError → Report
  | .schema e =>
    let excerpt := match e.schemaText, e.position with
      | some text, some p => some (Snippet.render text p)
      | _, _ => none
    ⟨errorLines "error: failed to parse the schema" e.diagnostic excerpt, []⟩
  | .header e => ⟨errorLines "error" e.diagnostic none, e.fault.mismatches⟩
  | .decode e => ⟨errorLines "error" e.diagnostic none, []⟩

/-- The report of an error of a source. -/
def ofSourceError (e : SourceError) : Report := ⟨errorLines "error" e.diagnostic none, []⟩

/-! ## Tables -/

/-- The title of the table of reasons. -/
def tableTitle : String := "Reason Matrix (Header Layout Mismatch Explanations)"

/-- The rows of a table of reasons, in two columns; the first holds the headings. -/
def tableRows (table : List LayoutMismatch) : List (String × String) :=
  ("Layout", "Reason") :: table.map fun m => (m.layout, m.fault.text)

/-- A text as it is shown in a cell. -/
def cell (text : String) : List Char := text.toList.filter (!isDropped ·)

/-- Whether a character stands between words. -/
def isGap (c : Char) : Bool := Text.isBlank c || (0x1c ≤ c.toNat && c.toNat ≤ 0x1f)

/-- The words of the table, one space between them; none if it has no reasons. -/
def tableText? (r : Report) : Option String :=
  if r.table.isEmpty then none
  else
    let cells := tableTitle :: (tableRows r.table).flatMap fun row => [row.1, row.2]
    let shown := cells.flatMap fun text => Text.words isGap (cell text)
    some (" ".intercalate (shown.map String.ofList))

/-- The lines of the table: its title, and its rows with both columns aligned. -/
def tableLines (r : Report) : List String :=
  if r.table.isEmpty then []
  else
    let rows := (tableRows r.table).map fun row => (cell row.1, cell row.2)
    let width := (rows.map fun row => Text.columns row.1).foldl max 0
    tableTitle :: rows.map fun row =>
      String.ofList (row.1 ++ List.replicate (width + 2 - Text.columns row.1) ' ' ++ row.2)

/-- All lines of a report. -/
def allLines (r : Report) : List String := r.lines ++ r.tableLines

end Report

end BinRecord
