/-
Running a command on files that can be looked up. A run ends with an exit code, and with what goes
to the output, to the report for people, and to a file. Only a run that succeeds writes anything
but the report.
-/
import BinRecord.Command.Invocation
import BinRecord.Record.Reader
import BinRecord.Report
import BinRecord.Schema.Outline
import BinRecord.Source.Basic

namespace BinRecord

/-- How a run ends. -/
structure Outcome where
  exitCode : Nat
  output : String := ""
  report : Report := {}
  written : Option (String × String) := none
  deriving DecidableEq, Repr

/-- Why a command fails after its files were found. -/
inductive CommandError where
  | source (e : SourceError)
  | read (e : ReadFailure)
  deriving DecidableEq, Repr

namespace Outcome

/-- The version of the program. -/
def version : String := "0.1.0"

/-- The end of a run that cannot start. -/
def refused (text : String) : Outcome := { exitCode := 2, report := .ofText text }

/-- The end of a run that fails. -/
def failed : CommandError → Outcome
  | .source e => { exitCode := 1, report := .ofSourceError e }
  | .read (.error e) => { exitCode := 1, report := .ofRecordError e }
  | .read (.escaped x) => { exitCode := 1, report := .ofText x.message }

/-- The end of a run whose arguments are refused. Of a long message the last line is reported. -/
def ofRefusal : Refusal → Outcome
  | .help program => { exitCode := 0, output := s!"usage: {program} [-h] ...\n" }
  | .usage program message =>
    { exitCode := 2, report := ⟨[Report.lastLine s!"{program}: error: {message}"], []⟩ }

end Outcome

namespace Invocation

/-! ## Files -/

/-- A text with every kind of line end written as a newline. -/
def unifyLines : List Char → List Char
  | [] => []
  | '\r' :: '\n' :: cs => '\n' :: unifyLines cs
  | c :: cs => (if c = '\r' then '\n' else c) :: unifyLines cs

/-- A file that is named; an empty name names none. -/
def named? (path : Option String) : Option String := path.filter (!·.isEmpty)

/-- The schema text in a file. -/
def schemaTextAt (look : Lookup) (path : String) : Except SourceError String :=
  match look path with
  | .error fault => .error ⟨path, .path fault⟩
  | .ok .directory => .error ⟨path, .path .isDirectory⟩
  | .ok (.file content) =>
    match Text.Utf8.decode content with
    | .error m => .error ⟨path, .notText m⟩
    | .ok cs => .ok (String.ofList (unifyLines cs))

/-- The schema text that the settings name, if they name any. -/
def givenSchema (look : Lookup) (s : Settings) : Except SourceError (Option String) :=
  match named? s.schemaFile with
  | none => .ok none
  | some path => (schemaTextAt look path).map some

/-- The paths that a command looks up. -/
def paths (i : Invocation) : List String := i.settings.path :: (named? i.settings.schemaFile).toList

/-! ## Commands -/

/-- How a command reads records. -/
def optionsFor (c : CommandName) (s : Settings) (schemaText : Option String) : ReaderOptions :=
  { readBody := c = .dump
    ignoreDataSize := s.ignoreSize
    schemaText
    root := s.root.value?
    maxBytes := s.maxBytes.value?.map Int.ofNat }

/-- The index of the record that a command reads. The number of bytes to look at is needed first. -/
def indexOf (s : Settings) : Except Escape Nat :=
  match s.maxBytes, s.record with
  | .empty, _ => .error (.emptyValue "unsupported operand type(s) for +: 'int' and 'list'")
  | _, .empty => .error (.emptyValue "'<' not supported between instances of 'list' and 'int'")
  | _, record => .ok (record.value?.getD 0)

variable [Codecs]

/-- The record that a command reads. The name of the root is needed once its schema is found. -/
def recordFor (s : Settings) (reader : Reader) (index : Nat) : Except ReadFailure Record :=
  if s.root = .empty then do
    let offset ← reader.options.offsetOf reader.visible index
    let (header, _) ← reader.options.headerAt reader.visible offset
    let _ ← reader.options.schemaTextOf header offset
    .error (.escaped (.emptyValue "unhashable type: 'list'"))
  else (reader.read index).1

/-- The text that a command puts out for a value. -/
def valueText (v : Value) (pretty : Bool) : Except Escape String :=
  (v.toJson (if pretty then some 2 else none)).map (· ++ "\n")

/-- Writes the value of a record, and also to a file if one is named. -/
def dumped (s : Settings) (r : Record) : Except Escape Outcome := do
  let value := r.value.getD (.struct [])
  let output ← valueText value s.pretty
  match named? s.jsonOut with
  | none => .ok { exitCode := 0, output }
  | some path =>
    let content ← valueText value true
    let report := .ofText s!"Wrote JSON → {path}"
    .ok { exitCode := 0, output, report, written := some (path, content) }

/-- Writes the schema of a record, as text or as a tree. -/
def schemaShown (s : Settings) (r : Record) : Outcome :=
  let text :=
    if s.tree then String.join (r.schema.outline.lines.map (· ++ "\n")) else r.schema.text
  { exitCode := 0, output := text }

/-- Runs a command on the content of a file. -/
def performOn (c : CommandName) (s : Settings) (schemaText : Option String) (data : Bytes) :
    Except ReadFailure Outcome := do
  let index ← (indexOf s).mapError .escaped
  let reader : Reader := { data, options := optionsFor c s schemaText }
  match c with
  | .header =>
    let h ← reader.readHeader index
    .ok { exitCode := 0, output := h.toJson ++ "\n" }
  | .dump =>
    let r ← recordFor s reader index
    (dumped s r).mapError .escaped
  | _ =>
    let r ← recordFor s reader index
    .ok (schemaShown s r)

/-- Runs a command on a file that exists. -/
def perform (look : Lookup) (c : CommandName) (s : Settings) : Except CommandError Outcome := do
  let schemaText ← (givenSchema look s).mapError .source
  let data ← (Source.contentAt look s.path).mapError .source
  (performOn c s schemaText data).mapError .read

/-- Whether a path leads anywhere. -/
def leadsSomewhere (look : Lookup) (path : String) : Bool :=
  match look path with
  | .ok _ => true
  | .error _ => false

/-- Whether a path names something that is not among the files. -/
def isRemote (path : String) : Bool :=
  let rec hasMark : List Char → Bool
    | [] => false
    | c :: cs => "://".toList.isPrefixOf (c :: cs) || hasMark cs
  hasMark path.toList

/-- Runs a command. -/
def run (look : Lookup) (i : Invocation) : Outcome :=
  let s := i.settings
  if i.command = .version then
    { exitCode := 0, output := s!"{program} version {Outcome.version}\n" }
  else if isRemote s.path then
    .refused s!"Unsupported source: {s.path} (only local files are read)"
  else if !leadsSomewhere look s.path then .refused s!"File not found: {s.path}"
  else
    match (named? s.schemaFile).filter (!leadsSomewhere look ·) with
    | some path => .refused s!"Schema file not found: {path}"
    | none =>
      match perform look i.command s with
      | .ok outcome => outcome
      | .error e => .failed e

/-- Runs the program with some arguments, which are read under some rules. -/
def runArguments (rules : OptionRules) (look : Lookup) (arguments : List String) : Outcome :=
  match ofArguments rules arguments with
  | .error refusal => .ofRefusal refusal
  | .ok invocation => invocation.run look

end Invocation

end BinRecord
