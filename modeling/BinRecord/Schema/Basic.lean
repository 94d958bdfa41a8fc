/-
Compiled schemas. The structs stand in a table in the order of their declarations, and fields refer
to structs by their place in it. Every struct carries its width, and none if it is unbounded.
-/
import BinRecord.Position
import BinRecord.Schema.Primitive
import BinRecord.Schema.References

namespace BinRecord

/-- A field of a compiled struct. -/
structure Field where
  name : String
  type : FieldType Nat
  position : TextPosition
  deriving DecidableEq, Repr

/-- A compiled struct. -/
structure Struct where
  name : String
  fields : List Field
  width : Option Nat
  position : TextPosition
  deriving DecidableEq, Repr

/-- The struct at a place outside the table. -/
def Struct.missing : Struct := ⟨"", [], some 0, ⟨1, 1, 0, 1⟩⟩

/-- A compiled schema: the table of structs and the place of the one that describes a payload. -/
structure Schema where
  structs : List Struct
  root : Nat
  deriving DecidableEq, Repr

namespace Schema

/-- The struct at a place of the table. -/
def struct (s : Schema) (i : Nat) : Struct := (s.structs[i]?).getD .missing

/-- The struct that describes a payload. -/
def rootStruct (s : Schema) : Struct := s.struct s.root

/-- The width of a type that is no array; none if it is unbounded. -/
def baseWidth (s : Schema) : BaseType Nat → Option Nat
  | .primitive p => some p.width
  | .struct i => (s.struct i).width

/-- The width of a field; none if it is unbounded. -/
def widthOf (s : Schema) (t : FieldType Nat) : Option Nat := t.arity.width (s.baseWidth t.base)

/-- The references from a struct to others. -/
def references (s : Schema) (i : Nat) : List (Reference Unit) :=
  (s.struct i).fields.filterMap fun f =>
    match f.type.base with
    | .primitive _ => none
    | .struct j => some ⟨j, ()⟩

/-- The places of the table in an order in which each struct comes after those it refers to. A
compiled schema has one. -/
def order (s : Schema) : List Nat :=
  match References.order s.structs.length s.references with
  | .ok order => order
  | .error _ => []

/-- A table of something known of every struct, found from the structs it refers to. -/
def tabulate {α : Type} (s : Schema) (step : (Nat → Option α) → Struct → α) : List (Nat × α) :=
  References.table (fun entries i => step entries (s.struct i)) s.order

/-! ## Text -/

/-- How a type that is no array is spelled. -/
def baseText (s : Schema) : BaseType Nat → String
  | .primitive p => p.keyword
  | .struct i => (s.struct i).name

/-- How the type of a field is spelled. -/
def typeText (s : Schema) (t : FieldType Nat) : String := s.baseText t.base ++ t.arity.suffix

/-- The declaration of a struct, a line for each field. -/
def structText (s : Schema) (d : Struct) : String :=
  let field (f : Field) : String := s!"    {f.name}: {s.typeText f.type}"
  "\n".intercalate ([s!"struct {d.name} \x7b"] ++ d.fields.map field ++ ["\x7d"])

/-- The text of a schema, which compiles to the same table again. -/
def text (s : Schema) : String :=
  "\n\n".intercalate (s.structs.map s.structText) ++ "\n"

end Schema

end BinRecord
