/-
The shape of a payload: a schema with the references between structs followed, so that the shape of
a struct holds the shapes of its fields. It says all that reading a payload needs, and nothing of
the order in which structs were declared.
-/
import BinRecord.Schema.Basic

namespace BinRecord

/-- The shape of what stands at one place of a payload. A struct knows its width, and none if it is
unbounded. -/
inductive Shape where
  | primitive (p : Primitive)
  | struct (width : Option Nat) (fields : List (String × Arity × Shape))
  deriving Inhabited, Repr

namespace Shape

/-- The width of a shape; none if it is unbounded. -/
def width : Shape → Option Nat
  | primitive p => some p.width
  | struct w _ => w

/-- The width of a piece of padding; none for every other shape. -/
def paddingUnit? : Shape → Option Nat
  | primitive (.padding w) => some w
  | _ => none

end Shape

namespace Schema

/-- The shape of a struct, from those of the structs it refers to. -/
def shapeOf (shapes : Nat → Option Shape) (d : Struct) : Shape :=
  .struct d.width <| d.fields.map fun f =>
    let base := match f.type.base with
      | .primitive p => .primitive p
      | .struct j => (shapes j).getD (.struct (some 0) [])
    (f.name, f.type.arity, base)

/-- The shape of a payload. -/
def shape (s : Schema) : Shape :=
  ((s.tabulate shapeOf).lookup s.root).getD (.struct (some 0) [])

end Schema

end BinRecord
