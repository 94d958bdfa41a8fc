/-
The outline of a schema: a tree with the root struct at the top, a node for each field, and below
the field of a struct, or of an array of structs, the fields of that struct.
-/
import BinRecord.Schema.Basic

namespace BinRecord

/-- A tree of labels. -/
inductive Outline where
  | node (label : String) (children : List Outline)
  deriving Inhabited, Repr

namespace Outline

/-! ## Lines -/

/-- The lines of the nodes below a node; `lead` stands in front of each. -/
def childLines (lead : String) : List Outline → List String
  | [] => []
  | [node label children] =>
    (lead ++ "└── " ++ label) :: childLines (lead ++ "    ") children
  | node label children :: o :: os =>
    (lead ++ "├── " ++ label) :: childLines (lead ++ "│   ") children ++ childLines lead (o :: os)

/-- The lines that show a tree. -/
def lines : Outline → List String
  | node label children => label :: childLines "" children

mutual

/-- The number of nodes of a tree. -/
def size : Outline → Nat
  | node _ children => 1 + sizes children

/-- The number of nodes of some trees. -/
def sizes : List Outline → Nat
  | [] => 0
  | o :: os => size o + sizes os

end

end Outline

namespace Schema

/-- The nodes below a struct. -/
def outlineBelow (s : Schema) (below : Nat → Option (List Outline)) (d : Struct) : List Outline :=
  d.fields.map fun f =>
    let label := s!"{f.name}: {s.typeText f.type}"
    match f.type.base with
    | .primitive _ => .node label []
    | .struct j => .node label ((below j).getD [])

/-- The tree of the root struct. -/
def outline (s : Schema) : Outline :=
  .node s.rootStruct.name (((s.tabulate s.outlineBelow).lookup s.root).getD [])

/-- The number of nodes that a struct takes in a tree, itself included. -/
def fieldCountOf (counts : Nat → Option Nat) (d : Struct) : Nat :=
  let lines (f : Field) : Nat :=
    match f.type.base with
    | .primitive _ => 1
    | .struct j => (counts j).getD 1
  d.fields.foldl (fun n f => n + lines f) 1

/-- The number of lines that the tree of the root struct takes. -/
def fieldCount (s : Schema) : Nat := ((s.tabulate fieldCountOf).lookup s.root).getD 1

end Schema

end BinRecord
