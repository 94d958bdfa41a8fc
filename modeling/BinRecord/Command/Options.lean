/-
Reading the arguments of a command: options by their names, and operands. An option may be written
by any beginning of a long name that no other shares, and its value may follow in the same argument,
after an equals sign or right after a short name. What follows the short name of an option without a
value is a run of further short names. After two dashes that stand alone every argument is an
operand. On two points the rules have changed with time (`OptionRules`), and arguments are read under
the ones or the others.
-/
import BinRecord.Text.DecimalDigit
import BinRecord.Text.Quoted

namespace BinRecord

/-- Why reading stops: help is asked for, or the arguments are wrong. -/
inductive OptionStop where
  | help
  | fault (message : String)
  deriving DecidableEq, Repr

/-- What is read differently under different rules: whether a value of two dashes that is attached to
its option is dropped, so that the option has none; and whether a run of short names ends at a name
that is not known, which is then left over, and may not go on with an equals sign or a dash. -/
structure OptionRules where
  dropsDashes : Bool
  stopsRuns : Bool
  deriving DecidableEq, Repr

/-- The rules as they were. -/
def OptionRules.earlier : OptionRules := ⟨true, false⟩

/-- The rules as they are now. -/
def OptionRules.later : OptionRules := ⟨false, true⟩

/-- What follows the name of an option in its argument, and whether an equals sign stands before it. -/
structure Attached where
  byEquals : Bool
  text : List Char
  deriving DecidableEq, Repr

/-- How much is attached: one for that there is something, and one for each character. -/
def Attached.extent : Option Attached → Nat
  | none => 0
  | some a => a.text.length + 1

namespace OptionRules

/-- Whether what is attached to a short name cannot be a run of further ones. -/
def stopsAt (rules : OptionRules) (a : Attached) : Bool :=
  rules.stopsRuns && (a.byEquals || a.text.head? = some '-')

/-- What is attached to a short name that stands in a run before `cs`. -/
def attachedTo (rules : OptionRules) (cs : List Char) : Option Attached :=
  match cs with
  | [] => none
  | '=' :: value => some (if rules.stopsRuns then ⟨true, value⟩ else ⟨false, cs⟩)
  | _ => some ⟨false, cs⟩

theorem extent_attachedTo_le (rules : OptionRules) (cs : List Char) :
    Attached.extent (rules.attachedTo cs) ≤ cs.length + 1 := by
  unfold attachedTo
  split
  · exact Nat.zero_le _
  · split <;> simp [Attached.extent]
  · exact Nat.le_refl _

end OptionRules

/-- What an option does to the settings `σ` of a command: ask for help, switch something, or take a
value, which can be refused. There is no value where the one that was attached is dropped; the option
counts as given all the same. -/
inductive OptionAction (σ : Type) where
  | help
  | switch (set : σ → σ)
  | value (set : Option String → σ → Except String σ)

/-- Whether a value belongs to an option. -/
def OptionAction.takesValue {σ : Type} : OptionAction σ → Bool
  | .value _ => true
  | .help | .switch _ => false

/-- An option of a command, by its names. -/
structure CommandOption (σ : Type) where
  names : List String
  action : OptionAction σ

/-- Which operands a command wants: none, one, or one with all arguments after it. -/
inductive OperandCount where
  | none
  | one
  | rest
  deriving DecidableEq, Repr

/-- The arguments of a command as read. `left` holds those that nothing wants. -/
structure ReadArguments (σ : Type) where
  settings : σ
  operands : List String
  left : List String

namespace CommandOption

variable {σ : Type}

/-- How a message names an option. -/
def title (o : CommandOption σ) : String := "/".intercalate o.names

/-! ## What an argument is -/

/-- What an argument is. An option may be unknown, and may have something attached. -/
inductive Argument (σ : Type) where
  | operand
  | dashes
  | option (found : Option (CommandOption σ)) (name : String) (attached : Option Attached)

/-- The names of all options, in order. -/
def namesOf (options : List (CommandOption σ)) : List (String × CommandOption σ) :=
  options.flatMap fun o => o.names.map (·, o)

/-- A text up to its first equals sign, and what follows that. -/
def cutAtEquals (cs : List Char) : String × Option Attached :=
  let name := String.ofList (cs.takeWhile (· ≠ '='))
  match cs.dropWhile (· ≠ '=') with
  | [] => (name, none)
  | _ :: value => (name, some ⟨true, value⟩)

/-- Whether a text looks like a negative number, which makes it an operand. -/
def looksNegative (cs : List Char) : Bool :=
  let isDigit (c : Char) : Bool := (Text.digitValue? c).isSome
  let cs := match cs.reverse with
    | '\n' :: rest => rest.reverse
    | _ => cs
  match cs with
  | '-' :: rest =>
    match rest.dropWhile isDigit with
    | [] => !rest.isEmpty
    | '.' :: fraction => !fraction.isEmpty && fraction.all isDigit
    | _ => false
  | _ => false

/-- What an argument that starts with a dash could mean as a beginning of a name. -/
def candidates (options : List (CommandOption σ)) (text : String) :
    List (CommandOption σ × String × Option Attached) :=
  let names := namesOf options
  match text.toList with
  | '-' :: '-' :: _ =>
    let (start, value) := cutAtEquals text.toList
    (names.filter fun n => n.1.startsWith start).map fun n => (n.2, n.1, value)
  | cs =>
    let short := String.ofList (cs.take 2)
    names.filterMap fun n =>
      if n.1 = short then some (n.2, n.1, some ⟨false, cs.drop 2⟩)
      else if n.1.startsWith text then some (n.2, n.1, none)
      else none

/-- What an argument that is not two dashes is; an error if it could be several options. -/
def classify (options : List (CommandOption σ)) (text : String) : Except OptionStop (Argument σ) :=
  let cs := text.toList
  if cs.head? ≠ some '-' then .ok .operand
  else
    match (namesOf options).lookup text with
    | some o => .ok (.option (some o) text none)
    | none =>
      if cs.length = 1 then .ok .operand
      else
        let (start, value) := cutAtEquals cs
        match value, (namesOf options).lookup start with
        | some v, some o => .ok (.option (some o) start (some v))
        | _, _ =>
          match candidates options text with
          | [(o, name, attached)] => .ok (.option (some o) name attached)
          | [] =>
            if looksNegative cs || cs.contains ' ' then .ok .operand
            else .ok (.option none text none)
          | several =>
            let matched := ", ".intercalate (several.map (·.2.1))
            .error (.fault s!"ambiguous option: {text} could match {matched}")

/-- What each argument is. After two dashes all are operands. -/
def classifyAll (options : List (CommandOption σ)) :
    List String → Except OptionStop (List (String × Argument σ))
  | [] => .ok []
  | text :: texts =>
    if text = "--" then .ok ((text, .dashes) :: texts.map (·, .operand))
    else do
      let kind ← classify options text
      let kinds ← classifyAll options texts
      .ok ((text, kind) :: kinds)

/-! ## Settings -/

/-- The error of an option. -/
def fault {α : Type} (o : CommandOption σ) (message : String) : Except OptionStop α :=
  .error (.fault s!"argument {o.title}: {message}")

/-- An option that takes a value, what it does with the value, and the value if the argument holds
it too. -/
structure Valued (σ : Type) where
  option : CommandOption σ
  set : Option String → σ → Except String σ
  value : Option String

/-- What an argument asks for: settings switched, help, and a value set. `left` is what nothing wants
of it. -/
structure Request (σ : Type) where
  settings : σ
  help : Bool := false
  valued : Option (Valued σ) := none
  left : Option String := none

namespace Request

/-- Notes what an option without a value does. -/
def note (r : Request σ) : OptionAction σ → Request σ
  | .help => { r with help := true }
  | .switch set => { r with settings := set r.settings }
  | .value _ => r

/-- The settings of a request; help comes before them. -/
def finish (r : Request σ) : Except OptionStop σ :=
  if r.help then .error .help else .ok r.settings

/-- The settings of a request after a value is set. -/
def give (rules : OptionRules) (r : Request σ) (v : Valued σ) (value : String) :
    Except OptionStop σ := do
  let settings ← r.finish
  match v.set (if rules.dropsDashes ∧ value = "--" then none else some value) settings with
  | .ok settings => .ok settings
  | .error message => v.option.fault message

end Request

/-- The error of an option without a value that has something attached. -/
def needless {α : Type} (o : CommandOption σ) (attached : List Char) : Except OptionStop α :=
  o.fault s!"ignored explicit argument {Text.quote (String.ofList attached)}"

/-- Reads what an option and what is attached to its name ask for, after what has been asked for so
far. What is attached to a short name that takes no value starts with another short name. -/
def requestAfter (rules : OptionRules) (options : List (CommandOption σ)) (r : Request σ)
    (o : CommandOption σ) (attached : Option Attached) : Except OptionStop (Request σ) :=
  match o.action, attached with
  | .value set, attached =>
    .ok { r with valued := some ⟨o, set, attached.map fun a => String.ofList a.text⟩ }
  | action, none => .ok (r.note action)
  | _, some ⟨_, []⟩ => o.needless []
  | action, some ⟨byEquals, c :: cs⟩ =>
    if rules.stopsAt ⟨byEquals, c :: cs⟩ then o.needless (c :: cs)
    else
      match (namesOf options).lookup (String.ofList ['-', c]) with
      | some next => requestAfter rules options (r.note action) next (rules.attachedTo cs)
      | none =>
        if rules.stopsRuns then
          .ok { r.note action with left := some (String.ofList ('-' :: c :: cs)) }
        else o.needless (c :: cs)
termination_by Attached.extent attached
decreasing_by exact Nat.lt_succ_of_le (rules.extent_attachedTo_le cs)

/-- Reads what an option and what is attached to it ask for. -/
def request (rules : OptionRules) (options : List (CommandOption σ)) (o : CommandOption σ)
    (name : String) (attached : Option Attached) (settings : σ) : Except OptionStop (Request σ) :=
  match attached.filter fun _ => name.startsWith "--" && !o.action.takesValue with
  | some a => o.needless a.text
  | none => requestAfter rules options { settings } o attached

/-- Passes two dashes. -/
def passDashes : List (String × Argument σ) → List (String × Argument σ)
  | (_, .dashes) :: rest => rest
  | rest => rest

theorem length_passDashes_le (args : List (String × Argument σ)) :
    (passDashes args).length ≤ args.length := by
  unfold passDashes
  split <;> simp

/-- Reads arguments whose kinds are known. `wanted` tells which operands are still to come, and
`left` holds the arguments that nothing wants, the latest first. -/
def readAll (rules : OptionRules) (options : List (CommandOption σ)) (wanted : OperandCount)
    (operands left : List String) (settings : σ) : List (String × Argument σ) → Except OptionStop (ReadArguments σ)
  | [] => .ok ⟨settings, operands, left.reverse⟩
  | (text, .operand) :: rest =>
    match wanted with
    | .one => readAll rules options .none [text] left settings (passDashes rest)
    | .rest => .ok ⟨settings, text :: rest.map (·.1), left.reverse⟩
    | .none => readAll rules options .none operands (text :: left) settings rest
  | [(text, .dashes)] => .ok ⟨settings, operands, (text :: left).reverse⟩
  | (text, .dashes) :: (operand, kind) :: rest =>
    match wanted with
    | .one => readAll rules options .none [operand] left settings rest
    | .rest => .ok ⟨settings, text :: operand :: rest.map (·.1), left.reverse⟩
    | .none => readAll rules options .none operands (text :: left) settings ((operand, kind) :: rest)
  | (text, .option none _ _) :: rest =>
    readAll rules options wanted operands (text :: left) settings rest
  | (_, .option (some o) name attached) :: rest => do
    let r ← request rules options o name attached settings
    match r.valued with
    | none => do
      let settings ← r.finish
      readAll rules options wanted operands (r.left.toList ++ left) settings rest
    | some v =>
      match v.value, rest with
      | some value, rest => do
        let settings ← r.give rules v value
        readAll rules options wanted operands left settings rest
      | none, (value, .operand) :: rest => do
        let settings ← r.give rules v value
        readAll rules options wanted operands left settings rest
      | none, _ => v.option.fault "expected one argument"
termination_by args => args.length
decreasing_by
  all_goals have := length_passDashes_le rest
  all_goals simp only [List.length_cons]
  all_goals omega

/-- Reads, under some rules, the arguments of a command that has some options and wants some operands. -/
def read (rules : OptionRules) (options : List (CommandOption σ)) (wanted : OperandCount)
    (settings : σ) (arguments : List String) : Except OptionStop (ReadArguments σ) := do
  let kinds ← classifyAll options arguments
  readAll rules options wanted [] [] settings kinds

end CommandOption

end BinRecord
