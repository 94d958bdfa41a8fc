/-
From schema text to compiled schemas. Struct names must differ and every type must be known; no
struct may contain itself; nothing may follow an unbounded field in its struct, and the elements of
arrays must have a fixed width of at least one byte. The first rule broken is reported, in that
order of rules.
-/
import BinRecord.Schema.Basic
import BinRecord.Schema.Declaration.Parser

namespace BinRecord

namespace Schema

/-! ## Names -/

/-- Refuses a struct with the name of an earlier one; `before` holds the earlier ones. -/
def checkNames (before : List (Declaration String)) :
    List (Declaration String) → Except SchemaError Unit
  | [] => .ok ()
  | d :: ds =>
    match before.find? (·.name = d.name) with
    | some first => .error ⟨.duplicateStruct d.name first.position, some d.position, none⟩
    | none => checkNames (before ++ [d]) ds

/-- Finds the struct that a type names in the list of struct names. -/
def resolveBase (names : List String) (position : TextPosition) :
    BaseType String → Except SchemaError (BaseType Nat)
  | .primitive p => .ok (.primitive p)
  | .struct name =>
    match names.idxOf? name with
    | some i => .ok (.struct i)
    | none => .error ⟨.unknownType name, some position, none⟩

/-- Finds the struct that a field's type names. -/
def resolveField (names : List String) (f : FieldDeclaration String) :
    Except SchemaError (FieldDeclaration Nat) := do
  let base ← resolveBase names f.typePosition f.type.base
  .ok ⟨f.name, f.position, ⟨base, f.type.arity⟩, f.typePosition, f.bracket⟩

/-- Finds the structs that the fields of a declaration name. -/
def resolve (names : List String) (d : Declaration String) :
    Except SchemaError (Declaration Nat) := do
  let fields ← d.fields.mapM (resolveField names)
  .ok ⟨d.name, d.position, fields⟩

/-! ## Cycles -/

/-- The references from a declared struct to others, with the places of the types. -/
def declaredReferences (d : Declaration Nat) : List (Reference TextPosition) :=
  d.fields.filterMap fun f =>
    match f.type.base with
    | .primitive _ => none
    | .struct j => some ⟨j, f.typePosition⟩

/-- The declared structs in an order in which each comes after those it refers to. -/
def declaredOrder (ds : List (Declaration Nat)) : Except SchemaError (List Nat) :=
  let refs (i : Nat) := ((ds[i]?).map declaredReferences).getD []
  match References.order ds.length refs with
  | .ok order => .ok order
  | .error cycle =>
    let names := cycle.nodes.map fun i => ((ds[i]?).map (·.name)).getD ""
    .error ⟨.cycle names, some cycle.mark, none⟩

/-! ## Widths -/

/-- A width that is known, or the error that keeps it from being so. -/
abbrev WidthResult := Except SchemaError (Option Nat)

/-- The width of a type that is no array. -/
def declaredBaseWidth (widths : Nat → Option WidthResult) : BaseType Nat → WidthResult
  | .primitive p => .ok (some p.width)
  | .struct i => (widths i).getD (.ok none)

/-- The width of a declared field, whose elements must have a width if it is an array. -/
def fieldWidth (widths : Nat → Option WidthResult) (f : FieldDeclaration Nat) : WidthResult := do
  let element ← declaredBaseWidth widths f.type.base
  if f.type.arity ≠ .single then
    match element with
    | none => throw ⟨.unboundedElement f.name, some f.typePosition, none⟩
    | some 0 => throw ⟨.emptyElement f.name, f.bracket, none⟩
    | some _ => pure ()
  .ok (f.type.arity.width element)

/-- The width of the fields of a struct after fields of `total` bytes; nothing may follow an
unbounded one. -/
def fieldsWidth (widths : Nat → Option WidthResult) (struct : String) (total : Nat) :
    List (FieldDeclaration Nat) → WidthResult
  | [] => .ok (some total)
  | f :: fs => do
    match ← fieldWidth widths f, fs with
    | some w, _ => fieldsWidth widths struct (total + w) fs
    | none, [] => .ok none
    | none, g :: _ => .error ⟨.fieldAfterUnbounded g.name f.name struct, some g.position, none⟩

/-- The widths of declared structs, found along an order in which each comes after those it refers
to. -/
def declaredWidths (ds : List (Declaration Nat)) (order : List Nat) : List (Nat × WidthResult) :=
  References.table
    (fun widths i =>
      match ds[i]? with
      | some d => fieldsWidth widths d.name 0 d.fields
      | none => .ok none)
    order

/-- The compiled struct at place `i`. -/
def structOf (widths : List (Nat × WidthResult)) (i : Nat) (d : Declaration Nat) :
    Except SchemaError Struct := do
  let width ← (widths.lookup i).getD (.ok none)
  .ok ⟨d.name, d.fields.map fun f => ⟨f.name, f.type, f.position⟩, width, d.position⟩

/-! ## Schemas -/

/-- The place of the root: of the struct with the given name, or else of the last one. -/
def rootPlace (names : List String) : Option String → Except SchemaError Nat
  | none => .ok (names.length - 1)
  | some name =>
    match names.idxOf? name with
    | some i => .ok i
    | none => .error ⟨.unknownRoot name, none, none⟩

/-- Compiles declarations. -/
def ofDeclarations (ds : List (Declaration String)) (root : Option String) :
    Except SchemaError Schema := do
  checkNames [] ds
  let names := ds.map (·.name)
  let resolved ← ds.mapM (resolve names)
  let order ← declaredOrder resolved
  let widths := declaredWidths resolved order
  let structs ← resolved.zipIdx.mapM fun (d, i) => structOf widths i d
  let place ← rootPlace names root
  .ok ⟨structs, place⟩

/-- Compiles schema text. `root` names the struct that describes a payload; without it the last one
does. -/
def compile [Codecs] (text : String) (root : Option String) : Except SchemaFailure Schema := do
  let words ← (Token.scan text).mapError .error
  let ds ← words.declarations
  (ofDeclarations ds root).mapError .error

end Schema

end BinRecord
