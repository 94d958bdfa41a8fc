/-
The commands of the program and what their arguments ask for.
-/
import BinRecord.Command.Options
import BinRecord.Text.Integer

namespace BinRecord

/-- A command of the program. -/
inductive CommandName where
  | dump
  | header
  | schema
  | version
  deriving DecidableEq, Repr

/-- A setting that an option gives a value: it may not be given, or be given without the value. -/
inductive Setting (α : Type) where
  | unset
  | given (a : α)
  | empty
  deriving DecidableEq, Repr

/-- What is given with an option, if its value was not dropped. -/
def Setting.ofValue {α : Type} : Option α → Setting α
  | none => empty
  | some a => given a

/-- The value of a setting, if it has one. -/
def Setting.value? {α : Type} : Setting α → Option α
  | given a => some a
  | unset | empty => none

/-- What the arguments of a command ask for. A file whose name is dropped counts as none. -/
structure Settings where
  path : String := ""
  record : Setting Nat := .given 0
  debug : Bool := false
  schemaFile : Option String := none
  root : Setting String := .unset
  maxBytes : Setting Nat := .unset
  ignoreSize : Bool := false
  pretty : Bool := false
  jsonOut : Option String := none
  tree : Bool := false
  deriving DecidableEq, Repr

/-- A command with its settings. -/
structure Invocation where
  command : CommandName
  settings : Settings
  deriving DecidableEq, Repr

/-- Why no command is run: help is asked for, or the arguments are wrong. `program` tells which part
of the program says so. -/
inductive Refusal where
  | help (program : String)
  | usage (program message : String)
  deriving DecidableEq, Repr

namespace CommandName

/-- The commands in the order in which they are listed. -/
def all : List CommandName := [dump, header, schema, version]

/-- The name of a command. -/
def name : CommandName → String
  | dump => "dump"
  | header => "header"
  | schema => "schema"
  | version => "version"

/-- The command with a given name. -/
def ofName? (s : String) : Option CommandName := all.find? (·.name = s)

end CommandName

namespace Invocation

/-! ## Options -/

/-- Reads a record index or a byte count, if there is one. -/
def readCount : Option String → Except String (Setting Nat)
  | none => .ok .empty
  | some text =>
    match Text.readInteger text with
    | none => .error s!"invalid number: {Text.quote text}"
    | some (.negSucc n) => .error s!"must not be negative: {Int.negSucc n}"
    | some (.ofNat n) => .ok (.given n)

/-- The option that asks for help. -/
def helpOption {σ : Type} : CommandOption σ := ⟨["-h", "--help"], .help⟩

/-- The option that names a record. -/
def recordOption : CommandOption Settings :=
  ⟨["-r", "--record"], .value fun text s =>
    (readCount text).map fun n => { s with record := n }⟩

/-- The option that asks for more messages. -/
def debugOption : CommandOption Settings :=
  ⟨["--debug"], .switch fun s => { s with debug := true }⟩

/-- The option that names a file with the schema. -/
def schemaOption : CommandOption Settings :=
  ⟨["--schema"], .value fun text s => .ok { s with schemaFile := text }⟩

/-- The option that names the root struct. -/
def rootOption : CommandOption Settings :=
  ⟨["--root"], .value fun text s => .ok { s with root := .ofValue text }⟩

/-- The option that limits how much of the file is looked at. -/
def bytesOption : CommandOption Settings :=
  ⟨["-b", "--bytes"],
    .value fun text s => (readCount text).map fun n => { s with maxBytes := n }⟩

/-- The options of a command, in order. -/
def optionsOf : CommandName → List (CommandOption Settings)
  | .dump =>
    [helpOption, recordOption, debugOption, schemaOption, rootOption,
      ⟨["--ignore-size"], .switch fun s => { s with ignoreSize := true }⟩,
      ⟨["--pretty"], .switch fun s => { s with pretty := true }⟩,
      ⟨["--json-out"], .value fun text s => .ok { s with jsonOut := text }⟩]
  | .header => [helpOption, recordOption, debugOption, bytesOption]
  | .schema =>
    [helpOption, recordOption, debugOption, schemaOption, rootOption, bytesOption,
      ⟨["-t", "--tree"], .switch fun s => { s with tree := true }⟩]
  | .version => [helpOption]

/-! ## Arguments -/

/-- The name of the program in its messages. -/
def program : String := "rrr"

/-- The name of a command in its messages. -/
def programOf (c : CommandName) : String := s!"{program} {c.name}"

/-- Why some part of the program stops. -/
def refusal (program : String) : OptionStop → Refusal
  | .help => .help program
  | .fault message => .usage program message

/-- Reads the arguments of a command. Gives the settings and the arguments that nothing wants. -/
def readSettings (rules : OptionRules) (c : CommandName) (arguments : List String) :
    Except Refusal (Settings × List String) :=
  let wanted : OperandCount := if c = .version then .none else .one
  match CommandOption.read rules (optionsOf c) wanted {} arguments with
  | .error stop => .error (refusal (programOf c) stop)
  | .ok result =>
    match wanted, result.operands with
    | .one, [] =>
      .error (.usage (programOf c) "the following arguments are required: path")
    | _, operands => .ok ({ result.settings with path := operands.headD "" }, result.left)

/-- The refusal of a word that is no command. -/
def unknownCommand (word : String) : Refusal :=
  let choices := ", ".intercalate (CommandName.all.map fun c => Text.quote c.name)
  .usage program
    s!"argument <command>: invalid choice: {Text.quote word} (choose from {choices})"

/-- The refusal of arguments that nothing wants. -/
def unwanted (left : List String) : Refusal :=
  .usage program ("unrecognized arguments: " ++ " ".intercalate left)

/-- Reads the arguments of the program under some rules. -/
def ofArguments (rules : OptionRules) (arguments : List String) : Except Refusal Invocation := do
  match CommandOption.read rules [helpOption] .rest () arguments with
  | .error stop => .error (refusal program stop)
  | .ok ⟨_, [], []⟩ => .error (.help program)
  | .ok ⟨_, [], left⟩ => .error (unwanted left)
  | .ok ⟨_, word :: arguments, left⟩ =>
    match CommandName.ofName? word with
    | none => .error (unknownCommand word)
    | some c =>
      let (settings, further) ← readSettings rules c arguments
      match left ++ further with
      | [] => .ok ⟨c, settings⟩
      | left => .error (unwanted left)

end Invocation

end BinRecord
