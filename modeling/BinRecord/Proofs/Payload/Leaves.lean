/-
The leaves of a payload: its values without parts and its fields of padding, in the order in which they are
read, each with its path and its offset. An array that goes on to the end has as many elements as find room, and
after them a leaf for the bytes that are left.

The leaves of a payload are exactly the parts of this kind to which the layout leads (`mem_leaves_iff`). Of those
that hold values no two share a byte (`eq_of_shared`).
-/
import BinRecord.Proofs.Payload.Shape
import BinRecord.Proofs.Payload.Extent

namespace BinRecord

/-- The path some steps further down. -/
def Path.along (path : Path) (steps : List PathStep) : Path := ⟨path.root, steps.reverse ++ path.steps⟩

/-- What is read in one piece: a value without parts, a field of padding, of pieces of `unit` bytes, or what is
left after the elements of an array that goes on to the end, each of `unit` bytes. -/
inductive LeafKind where
  | value (p : Primitive)
  | padding (unit : Nat) (arity : Arity)
  | rest (unit : Nat)
  deriving DecidableEq, Repr

namespace LeafKind

/-- The number of bytes of a leaf; none if it goes on to the end. -/
def need? : LeafKind → Option Nat
  | value p => some p.width
  | padding unit arity => arity.width (some unit)
  | rest _ => none

/-- The width of the pieces of a leaf that goes on to the end. -/
def unit? : LeafKind → Option Nat
  | value _ => none
  | padding unit .toEnd => some unit
  | padding _ _ => none
  | rest unit => some unit

/-- What goes on to the end has no number of bytes. -/
theorem need?_eq_none {kind : LeafKind} {u : Nat} (h : kind.unit? = some u) : kind.need? = none := by
  unfold unit? at h
  split at h
  · cases h
  · rfl
  · cases h
  · rfl

end LeafKind

/-- A leaf, with its offset in the payload. What is left of an array has the path and the offset of the array. -/
structure Leaf where
  path : Path
  offset : Nat
  kind : LeafKind
  deriving DecidableEq, Repr

/-- The leaves of a value or an array, from those of an element of `u` bytes, in a payload of `n` bytes. -/
def Arity.leaves (n u : Nat) (element : Path → Nat → List Leaf) : Arity → Path → Nat → List Leaf
  | .single, path, o => element path o
  | .times k, path, o => (List.range k).flatMap fun j => element (path.item j) (o + j * u)
  | .toEnd, path, o =>
    ((List.range ((n - o) / u)).flatMap fun j => element (path.item j) (o + j * u)) ++ [⟨path, o, .rest u⟩]

namespace Shape

/-- The leaves of a field, from those of an element: one if the field is padding. -/
def entryLeaves (n : Nat) (shape : Shape) (element : Path → Nat → List Leaf) (a : Arity) (path : Path) (o : Nat) :
    List Leaf :=
  match shape.paddingUnit? with
  | some unit => [⟨path, o, .padding unit a⟩]
  | none => a.leaves n (shape.width.getD 0) element path o

mutual

/-- The leaves of a value of a shape that stands at a path and an offset in a payload of `n` bytes. -/
def leaves (n : Nat) : Shape → Path → Nat → List Leaf
  | primitive p, path, o => [⟨path, o, .value p⟩]
  | struct _ fields, path, o => fieldLeaves n fields path o

/-- The leaves of fields that stand one after the other. -/
def fieldLeaves (n : Nat) : List (String × Arity × Shape) → Path → Nat → List Leaf
  | [], _, _ => []
  | (name, a, shape) :: fields, path, o =>
    entryLeaves n shape (leaves n shape) a (path.field name) o ++
      fieldLeaves n fields path (o + (a.width shape.width).getD 0)

end

end Shape

/-! ## The last leaf -/

/-- Among leaves only the last may go on to the end, and none does if together they have a width. -/
structure OpenAtEnd (ls : List Leaf) (total : Option Nat) : Prop where
  last : ∀ l ∈ ls.dropLast, l.kind.unit? = none
  closed : ∀ w, total = some w → ∀ l ∈ ls, l.kind.unit? = none

namespace OpenAtEnd

variable {ls ls' : List Leaf} {total : Option Nat}

theorem of_closed (h : ∀ l ∈ ls, l.kind.unit? = none) : OpenAtEnd ls total where
  last l hl := h l (List.mem_of_mem_dropLast hl)
  closed _ _ := h

theorem one {l : Leaf} (h : ∀ w, total = some w → l.kind.unit? = none) : OpenAtEnd [l] total where
  last := nofun
  closed w hw := List.forall_mem_singleton.2 (h w hw)

theorem append (h : ∀ l ∈ ls, l.kind.unit? = none) (h' : OpenAtEnd ls' total) : OpenAtEnd (ls ++ ls') total := by
  refine ⟨?_, fun w hw => List.forall_mem_append.2 ⟨h, h'.closed w hw⟩⟩
  rcases eq_or_ne ls' [] with rfl | hne
  · rw [List.append_nil]
    exact fun l hl => h l (List.mem_of_mem_dropLast hl)
  · rw [List.dropLast_append_of_ne_nil hne]
    exact List.forall_mem_append.2 ⟨h, h'.last⟩

theorem eq_nil_of_open {before after : List Leaf} {l : Leaf} (h : OpenAtEnd (before ++ l :: after) total)
    (hl : l.kind.unit? ≠ none) : after = [] := by
  by_contra hne
  refine hl (h.last l ?_)
  rw [List.dropLast_append_of_ne_nil (List.cons_ne_nil l after), List.dropLast_cons_of_ne_nil hne]
  simp

end OpenAtEnd

theorem Arity.openAtEnd {a : Arity} {element : Path → Nat → List Leaf} {width : Option Nat} {n u : Nat}
    (ha : a ≠ .single → width ≠ none) (he : ∀ path o, OpenAtEnd (element path o) width) (path : Path) (o : Nat) :
    OpenAtEnd (a.leaves n u element path o) (a.width width) := by
  -- the elements of an array have a width
  have hitems : ∀ k, width ≠ none → ∀ l ∈ (List.range k).flatMap fun j => element (path.item j) (o + j * u),
      l.kind.unit? = none := fun k hw l hl => by
    obtain ⟨j, -, hl⟩ := List.mem_flatMap.1 hl
    obtain ⟨w, hw⟩ := Option.ne_none_iff_exists'.1 hw
    exact (he _ _).closed w hw l hl
  cases a with
  | single => exact he path o
  | times k => exact .of_closed (hitems k (ha (by simp)))
  | toEnd => exact .append (hitems _ (ha (by simp))) (.one nofun)

mutual

theorem Shape.Fitting.openAtEnd {ok : Primitive → Prop} (n : Nat) : ∀ {shape : Shape}, shape.Fitting ok →
    ∀ path o, OpenAtEnd (shape.leaves n path o) shape.width
  | .primitive p, _, path, o => by
    rw [leaves]
    exact .one fun _ _ => rfl
  | .struct _ fields, .struct hfields, path, o => by
    rw [leaves]
    exact Shape.FieldsFitting.openAtEnd n hfields path o

theorem Shape.FieldsFitting.openAtEnd {ok : Primitive → Prop} (n : Nat) :
    ∀ {fields : List (String × Arity × Shape)} {total : Option Nat}, FieldsFitting ok fields total →
      ∀ path o, OpenAtEnd (fieldLeaves n fields path o) total
  | [], _, .nil, path, o => by
    rw [fieldLeaves]
    exact .of_closed nofun
  | (name, a, shape) :: fields, _, h, path, o => by
    obtain ⟨hshape, ha⟩ : shape.Fitting ok ∧ (a ≠ .single → ∃ u, shape.width = some u ∧ 0 < u) := by
      cases h with
      | cons hshape ha => exact ⟨hshape, ha⟩
      | last hshape ha => exact ⟨hshape, ha⟩
    have hown : OpenAtEnd (entryLeaves n shape (leaves n shape) a (path.field name) o) (a.width shape.width) := by
      unfold entryLeaves
      cases hpad : shape.paddingUnit? with
      | some unit =>
        rw [Shape.width_of_paddingUnit? hpad]
        exact .one fun w hw => by cases a <;> first | rfl | cases hw
      | none =>
        refine Arity.openAtEnd (fun hne => ?_) (Shape.Fitting.openAtEnd n hshape) _ _
        obtain ⟨u, hu, -⟩ := ha hne
        simp [hu]
    rw [fieldLeaves]
    cases h with
    | cons _ _ hw hfields =>
      have hothers := Shape.FieldsFitting.openAtEnd n hfields path (o + (a.width shape.width).getD 0)
      refine .append (hown.closed _ hw) ⟨hothers.last, fun w hw => ?_⟩
      obtain ⟨l, hl, -⟩ := Option.map_eq_some_iff.1 hw
      exact hothers.closed l hl
    | last _ _ hw =>
      rw [fieldLeaves, List.append_nil, ← hw]
      exact hown

end

namespace Schema

/-- The leaves of a payload of `n` bytes. -/
def leaves (s : Schema) (n : Nat) : List Leaf := s.shape.leaves n ⟨s.rootStruct.name, []⟩ 0

variable (s : Schema) (m n : Nat)

/-- Whether the part of a type to which some steps lead is a leaf. The pieces of a field of padding are no leaves of
their own. -/
inductive LeafAt (steps : List PathStep) : FieldType Nat → LeafKind → Prop
  | value {p : Primitive} : p.isPadding = false → LeafAt steps ⟨.primitive p, .single⟩ (.value p)
  | padding {w : Width} {a : Arity} : (∀ j, steps.getLast? ≠ some (.item j)) →
      LeafAt steps ⟨.primitive (.padding w), a⟩ (.padding w.1 a)
  | rest {u : Nat} {b : BaseType Nat} : b.isPadding = false → s.baseWidth b = some u →
      LeafAt steps ⟨b, .toEnd⟩ (.rest u)

/-- If an infinite array stands at the end, `q` bytes further on, then `m` of its elements find room in `n` bytes. -/
def Counts (tail : Nat → BaseType Nat → Prop) (q : Nat) : Prop :=
  ∀ p b u, tail p b → s.baseWidth b = some u → m = (n - (q + p)) / u

/-- The leaves that are listed at a path and an offset are those among the parts to which some steps lead. -/
def Lists (leaves : Path → Nat → List Leaf) (tail : Nat → BaseType Nat → Prop)
    (leads : List PathStep → Nat → FieldType Nat → Prop) : Prop :=
  ∀ path q l, s.Counts m n tail q → (l ∈ leaves path q ↔
    ∃ steps o t kind, leads steps o t ∧ s.LeafAt steps t kind ∧ l = ⟨path.along steps, q + o, kind⟩)

variable {s m n}

/-! ## Leaves of types -/

theorem leafAt_field {name : String} {steps : List PathStep} {t : FieldType Nat} {kind : LeafKind} :
    s.LeafAt (.field name :: steps) t kind ↔ s.LeafAt steps t kind := by
  have hlast : (∀ j, (PathStep.field name :: steps).getLast? ≠ some (.item j)) ↔
      ∀ j, steps.getLast? ≠ some (.item j) := by
    cases steps with
    | nil => simp
    | cons x steps => rw [List.getLast?_cons_cons]
  constructor <;> intro h <;> cases h with
  | value hp => exact .value hp
  | padding hsteps => exact .padding (by simpa only [hlast] using hsteps)
  | rest hb hu => exact .rest hb hu

/-- Behind an item the leaves are the same, unless the item is a piece of padding. -/
theorem leafAt_item {j : Nat} {steps : List PathStep} {t : FieldType Nat} {kind : LeafKind}
    (h : steps = [] → t.base.isPadding = false) : s.LeafAt (.item j :: steps) t kind ↔ s.LeafAt steps t kind := by
  cases steps with
  | nil =>
    constructor <;> intro hl <;> cases hl with
    | value hp => exact .value hp
    | padding => cases h rfl
    | rest hb hu => exact .rest hb hu
  | cons x steps =>
    constructor <;> intro hl <;> cases hl with
    | value hp => exact .value hp
    | padding hsteps => exact .padding (by simpa only [List.getLast?_cons_cons] using hsteps)
    | rest hb hu => exact .rest hb hu

theorem not_leafAt_struct {i : Nat} {steps : List PathStep} {kind : LeafKind} :
    ¬ s.LeafAt steps ⟨.struct i, .single⟩ kind := nofun

theorem eq_of_leads_nil {t t' : FieldType Nat} {o : Nat} (h : s.Leads m t [] o t') : o = 0 ∧ t' = t := by
  cases h
  exact ⟨rfl, rfl⟩

theorem along_cons_field (path : Path) (name : String) (steps : List PathStep) :
    path.along (.field name :: steps) = (path.field name).along steps := by
  simp [Path.along, Path.field]

theorem along_cons_item (path : Path) (j : Nat) (steps : List PathStep) :
    path.along (.item j :: steps) = (path.item j).along steps := by
  simp [Path.along, Path.item]

theorem lists_primitive {p : Primitive} (hp : p.isPadding = false) :
    s.Lists m n (Shape.leaves n (.primitive p)) (s.Tail ⟨.primitive p, .single⟩)
      (s.Leads m ⟨.primitive p, .single⟩) := by
  intro path q l _
  rw [Shape.leaves, List.mem_singleton]
  constructor
  · rintro rfl
    exact ⟨[], 0, _, _, .here _, .value hp, rfl⟩
  · rintro ⟨steps, o, t, kind, hl, hleaf, rfl⟩
    obtain ⟨rfl, rfl, rfl⟩ := leads_primitive hl
    cases hleaf with
    | value => rfl
    | padding => cases hp

section Arrays

variable {b : BaseType Nat} {a : Arity} {u : Nat} {element : Path → Nat → List Leaf}

/-- The leaves of the items of an array. -/
theorem mem_items_iff (h : s.WellFormed) (he : s.Lists m n element (s.Tail ⟨b, .single⟩) (s.Leads m ⟨b, .single⟩))
    (hu : s.baseWidth b = some u) {path : Path} {q k : Nat} {l : Leaf} :
    l ∈ ((List.range k).flatMap fun j => element (path.item j) (q + j * u)) ↔
      ∃ j < k, ∃ steps o t kind, s.Leads m ⟨b, .single⟩ steps o t ∧ s.LeafAt steps t kind ∧
        l = ⟨path.along (.item j :: steps), q + (j * u + o), kind⟩ := by
  have hcounts : ∀ q, s.Counts m n (s.Tail ⟨b, .single⟩) q := fun q p c v ht => by
    have hnone : s.baseWidth b = none := h.width_of_tail ht
    rw [hu] at hnone
    cases hnone
  simp only [List.mem_flatMap, List.mem_range, he _ _ _ (hcounts _), along_cons_item, Nat.add_assoc]

theorem lists_arity (h : s.WellFormed) (hb : b.isPadding = false)
    (he : s.Lists m n element (s.Tail ⟨b, .single⟩) (s.Leads m ⟨b, .single⟩))
    (hu : a ≠ .single → s.baseWidth b = some u) :
    s.Lists m n (a.leaves n u element) (s.Tail ⟨b, a⟩) (s.Leads m ⟨b, a⟩) := by
  -- an item of the array is no piece of padding
  have hitem : ∀ {j steps o t kind}, s.Leads m ⟨b, .single⟩ steps o t →
      (s.LeafAt (.item j :: steps) t kind ↔ s.LeafAt steps t kind) := fun {j steps o t kind} hl =>
    leafAt_item fun hnil => by
      subst hnil
      obtain ⟨-, rfl⟩ := eq_of_leads_nil hl
      exact hb
  intro path q l hcount
  cases a with
  | single => exact he path q l hcount
  | times k =>
    have hu := hu (by simp)
    rw [Arity.leaves, mem_items_iff h he hu]
    constructor
    · rintro ⟨j, hj, steps, o, t, kind, hl, hleaf, rfl⟩
      exact ⟨_, _, t, kind, .item rfl hj hu hl, (hitem hl).2 hleaf, rfl⟩
    · rintro ⟨steps, o, t, kind, hl, hleaf, rfl⟩
      rcases (leads_array_iff rfl hu).1 hl with ⟨rfl, rfl, rfl⟩ | ⟨j, steps, o, hj, rfl, rfl, hl'⟩
      · cases hleaf
        cases hb
      · exact ⟨j, hj, steps, o, t, kind, hl', (hitem hl').1 hleaf, rfl⟩
  | toEnd =>
    have hu := hu (by simp)
    obtain rfl : m = (n - q) / u := hcount 0 b u (.array b) hu
    rw [Arity.leaves, List.mem_append, mem_items_iff h he hu, List.mem_singleton]
    constructor
    · rintro (⟨j, hj, steps, o, t, kind, hl, hleaf, rfl⟩ | rfl)
      · exact ⟨_, _, t, kind, .item rfl hj hu hl, (hitem hl).2 hleaf, rfl⟩
      · exact ⟨[], 0, _, _, .here _, .rest hb hu, rfl⟩
    · rintro ⟨steps, o, t, kind, hl, hleaf, rfl⟩
      rcases (leads_array_iff rfl hu).1 hl with ⟨rfl, rfl, rfl⟩ | ⟨j, steps, o, hj, rfl, rfl, hl'⟩
      · cases hleaf with
        | padding => cases hb
        | rest _ hu' =>
          rw [hu, Option.some.injEq] at hu'
          subst hu'
          exact .inr rfl
      · exact .inl ⟨j, hj, steps, o, t, kind, hl', (hitem hl').1 hleaf, rfl⟩

end Arrays

/-- A field of padding is one leaf. -/
theorem leads_padding_leaf {w : Width} {a : Arity} {steps : List PathStep} {o : Nat} {t : FieldType Nat}
    {kind : LeafKind} (hl : s.Leads m ⟨.primitive (.padding w), a⟩ steps o t) (hleaf : s.LeafAt steps t kind) :
    steps = [] ∧ o = 0 ∧ kind = .padding w.1 a := by
  have hpad := isPadding_of_leads hl rfl
  cases hl with
  | here =>
    cases hleaf with
    | value hp => cases hp
    | padding => exact ⟨rfl, rfl, rfl⟩
    | rest hb => cases hb
  | item _ _ _ hl =>
    obtain ⟨rfl, rfl, rfl⟩ := leads_primitive hl
    cases hleaf with
    | value hp => cases hp
    | padding hsteps => exact absurd rfl (hsteps _)

/-! ## Leaves of fields and structs -/

section Fields

variable {f : Field} {fs : List Field}

/-- The own leaves of a field. -/
theorem lists_field (h : s.WellFormed) (he : ElementFits s.baseWidth f.type)
    (hb : f.type.base.isPadding = false → s.Lists m n ((s.baseShape f.type.base).leaves n)
      (s.Tail ⟨f.type.base, .single⟩) (s.Leads m ⟨f.type.base, .single⟩)) :
    s.Lists m n (Shape.entryLeaves n (s.baseShape f.type.base) ((s.baseShape f.type.base).leaves n) f.type.arity)
      (s.Tail f.type) (s.Leads m f.type) := by
  intro path q l hcount
  rw [Shape.entryLeaves, h.paddingUnit?_eq]
  obtain ⟨name, ⟨b, a⟩, place⟩ := f
  cases hpad : b.isPadding with
  | true =>
    obtain ⟨w, rfl⟩ := isPadding_iff.1 hpad
    show l ∈ [_] ↔ _
    rw [List.mem_singleton]
    constructor
    · rintro rfl
      exact ⟨[], 0, _, _, .here _, .padding (by simp), rfl⟩
    · rintro ⟨steps, o, t, kind, hl, hleaf, rfl⟩
      obtain ⟨rfl, rfl, rfl⟩ := leads_padding_leaf hl hleaf
      rfl
  | false =>
    refine lists_arity h hpad (hb hpad) (fun ha => ?_) path q l hcount
    obtain ⟨u, hu, -⟩ := he ha
    change s.baseWidth b = some u at hu
    rw [h.width_baseShape, hu, Option.getD_some]

theorem lists_fields (h : s.WellFormed) : ∀ {fs : List Field} {total : Option Nat},
    Fits s.baseWidth (fs.map (·.type)) total →
    (∀ f ∈ fs, f.type.base.isPadding = false → s.Lists m n ((s.baseShape f.type.base).leaves n)
      (s.Tail ⟨f.type.base, .single⟩) (s.Leads m ⟨f.type.base, .single⟩)) →
    s.Lists m n (Shape.fieldLeaves n (fs.map s.fieldShape)) (s.TailIn fs) (s.LeadsIn m fs)
  | [], _, _, _ => by
    intro path q l _
    rw [List.map_nil, Shape.fieldLeaves]
    simp only [List.not_mem_nil, false_iff]
    rintro ⟨steps, o, t, kind, hl, -⟩
    exact not_leadsIn_nil hl
  | f :: fs, _, hfits, hb => by
    obtain ⟨he, hlast, _, hfits'⟩ := fits_cons hfits
    obtain ⟨hf, hfs⟩ := List.forall_mem_cons.1 hb
    intro path q l hcount
    have hwidth : (f.type.arity.width (s.baseShape f.type.base).width) = s.widthOf f.type := by
      rw [h.width_baseShape]
      rfl
    -- the infinite array of the fields is that of the first if it is the last, and else that of the others
    have hown : s.Counts m n (s.Tail f.type) q := fun p b u ht hu => by
      have hnone := h.width_of_tail ht
      rcases hlast with hsome | rfl
      · rw [hnone] at hsome
        cases hsome
      · exact hcount p b u (tailIn_singleton.2 ht) hu
    have hothers : ∀ w, s.widthOf f.type = some w → s.Counts m n (s.TailIn fs) (q + w) := fun w hw p b u ht hu => by
      rcases fs with _ | ⟨g, fs⟩
      · obtain ⟨before, g, _, _, hnil, -⟩ := ht
        simp at hnil
      · rw [Nat.add_assoc]
        exact hcount (w + p) b u ((tailIn_cons hw).2 ⟨p, rfl, ht⟩) hu
    rw [List.map_cons, fieldShape, Shape.fieldLeaves, List.mem_append, hwidth]
    have hfirst := lists_field h he hf (path.field f.name) q l hown
    rw [hfirst]
    constructor
    · rintro (⟨steps, o, t, kind, hl, hleaf, rfl⟩ | hl)
      · refine ⟨.field f.name :: steps, o, t, kind, leadsIn_cons.2 (.inl ⟨steps, rfl, hl⟩), leafAt_field.2 hleaf, ?_⟩
        rw [along_cons_field]
      · cases hw : s.widthOf f.type with
        | none =>
          obtain rfl := hlast.resolve_left (by simp [hw])
          rw [List.map_nil, Shape.fieldLeaves] at hl
          cases hl
        | some w =>
          rw [hw, Option.getD_some, lists_fields h hfits' hfs path (q + w) l (hothers w hw)] at hl
          obtain ⟨steps, o, t, kind, hl, hleaf, rfl⟩ := hl
          refine ⟨steps, w + o, t, kind, leadsIn_cons.2 (.inr ⟨w, o, hw, rfl, hl⟩), hleaf, ?_⟩
          rw [Nat.add_assoc]
    · rintro ⟨steps, o, t, kind, hl, hleaf, rfl⟩
      rcases leadsIn_cons.1 hl with ⟨steps, rfl, hl'⟩ | ⟨w, o, hw, rfl, hl'⟩
      · exact .inl ⟨steps, o, t, kind, hl', leafAt_field.1 hleaf, by rw [along_cons_field]⟩
      · rw [hw, Option.getD_some, lists_fields h hfits' hfs path (q + w) _ (hothers w hw)]
        exact .inr ⟨steps, o, t, kind, hl', hleaf, by rw [Nat.add_assoc]⟩

end Fields

theorem lists_struct (h : s.WellFormed) (i : Nat) : s.Lists m n ((s.shapeAt i).leaves n)
    (s.Tail ⟨.struct i, .single⟩) (s.Leads m ⟨.struct i, .single⟩) := by
  refine h.induction (P := fun i => s.Lists m n ((s.shapeAt i).leaves n) (s.Tail ⟨.struct i, .single⟩)
    (s.Leads m ⟨.struct i, .single⟩)) (fun i ih => ?_) i
  have hfields := lists_fields h (m := m) (n := n) (h.fits i) fun f hf hpad => by
    cases hb : f.type.base with
    | primitive p =>
      rw [hb] at hpad
      exact lists_primitive hpad
    | struct j => exact ih f hf j hb
  have htail : s.Tail ⟨.struct i, .single⟩ = s.TailIn (s.struct i).fields :=
    funext fun p => funext fun b => propext tail_struct_iff
  rw [h.shapeAt_eq, htail]
  intro path q l hcount
  rw [Shape.leaves, hfields path q l hcount]
  constructor
  · rintro ⟨steps, o, t, kind, hl, hleaf, rfl⟩
    exact ⟨steps, o, t, kind, leads_struct_iff.2 (.inr hl), hleaf, rfl⟩
  · rintro ⟨steps, o, t, kind, hl, hleaf, rfl⟩
    rcases leads_struct_iff.1 hl with ⟨rfl, rfl, rfl⟩ | hl
    · exact absurd hleaf not_leafAt_struct
    · exact ⟨steps, o, t, kind, hl, hleaf, rfl⟩

/-- There is a number of elements for which a payload has room. -/
theorem WellFormed.exists_counts (h : s.WellFormed) (n : Nat) : ∃ m, s.Counts m n (s.Tail s.rootType) 0 := by
  cases hw : s.rootStruct.width with
  | none =>
    obtain ⟨p, b, u, htail, hu, -⟩ := h.exists_tail s.root hw
    refine ⟨(n - (0 + p)) / u, fun p' b' u' htail' hu' => ?_⟩
    obtain ⟨rfl, rfl⟩ := htail.unique htail'
    cases hu.symm.trans hu'
    rfl
  | some w =>
    refine ⟨0, fun p b u htail _ => ?_⟩
    cases hw.symm.trans (h.width_of_tail htail)

/-- The way to a part of a payload from the root. -/
def pathOf (s : Schema) (steps : List PathStep) : Path := ⟨s.rootStruct.name, steps.reverse⟩

/-- The leaves of a payload are those among the parts to which the layout leads. -/
theorem WellFormed.mem_leaves_iff (h : s.WellFormed) (hcount : s.Counts m n (s.Tail s.rootType) 0) {l : Leaf} :
    l ∈ s.leaves n ↔ ∃ steps o t kind, s.Leads m s.rootType steps o t ∧ s.LeafAt steps t kind ∧
      l = ⟨s.pathOf steps, o, kind⟩ := by
  have hl := lists_struct h (m := m) (n := n) s.root ⟨s.rootStruct.name, []⟩ 0 l hcount
  simp only [Path.along, List.append_nil, Nat.zero_add] at hl
  exact hl

end Schema

end BinRecord
