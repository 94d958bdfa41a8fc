/-
What holds of every compiled schema (`WellFormed`), and the shapes of its structs: the shape of a
struct is put together from the shapes of the types of its fields.
-/
import BinRecord.Proofs.Schema.Compile
import BinRecord.Proofs.Schema.Grammar
import BinRecord.Schema.Shape

namespace BinRecord

namespace Schema

/-- The structs of a table differ in their names and refer to structs of the table without cycles; the
fields of each differ in their names, fit one after the other and take its width together. -/
structure WellFormed (s : Schema) : Prop where
  root : s.root < s.structs.length
  names : (s.structs.map (·.name)).Nodup
  fieldNames : ∀ i, ((s.struct i).fields.map (·.name)).Nodup
  target : ∀ i, ∀ f ∈ (s.struct i).fields, ∀ j, f.type.base = .struct j → j < s.structs.length
  rank : ∃ rank : Nat → Nat, ∀ i, ∀ f ∈ (s.struct i).fields, ∀ j, f.type.base = .struct j → rank j < rank i
  fits : ∀ i, Fits s.baseWidth ((s.struct i).fields.map (·.type)) (s.struct i).width

variable {s : Schema}

theorem struct_of_ge {i : Nat} (h : s.structs.length ≤ i) : s.struct i = .missing := by
  unfold struct
  rw [List.getElem?_eq_none h]
  rfl

theorem names_of_represents {ds : List (Declaration String)} {root : Option String} (h : Represents ds root s) :
    s.structs.map (·.name) = ds.map (·.name) := by
  apply List.ext_getElem?
  intro i
  rw [List.getElem?_map, List.getElem?_map]
  cases hd : ds[i]? with
  | none =>
    rw [List.getElem?_eq_none_iff, ← h.length] at hd
    rw [List.getElem?_eq_none hd]
    rfl
  | some d =>
    obtain ⟨st, hst, hn, -⟩ := h.structs i d hd
    rw [hst, Option.map_some, Option.map_some, hn]

theorem wellFormed_of_ofDeclarations {ds : List (Declaration String)} {root : Option String} (hne : ds ≠ [])
    (hfields : ∀ d ∈ ds, (d.fields.map (·.name)).Nodup) (h : ofDeclarations ds root = .ok s) :
    s.WellFormed := by
  obtain ⟨hrep, -⟩ := represents_of_ofDeclarations hne h
  obtain ⟨rs, done, hr, -, hstructs, -⟩ := ofDeclarations_eq_ok.1 h
  have hc := compiled_of_forall₂ hr hstructs
  -- a field of the table that refers to a struct is a reference between declarations
  have href : ∀ i, ∀ f ∈ (s.struct i).fields, ∀ j, f.type.base = .struct j →
      i ∈ done ∧ ∃ r ∈ referencesIn rs i, r.target = j := by
    intro i f hf j hj
    by_cases hi : i < rs.length
    · have he := List.getElem?_eq_getElem hi
      rw [(hc.struct i _ he).2.2] at hf
      obtain ⟨g, hg, rfl⟩ := List.mem_map.1 hf
      exact ⟨(hr.mem_done i).2 hi, ⟨j, g.typePosition⟩, mem_referencesIn.2 ⟨_, he, g, hg, hj, rfl⟩, rfl⟩
    · rw [struct_of_ge (by rw [hc.length]; omega)] at hf
      cases hf
  have hnames := names_of_represents hrep
  refine ⟨?_, hnames ▸ hr.distinct, fun i => ?_, fun i f hf j hj => ?_, ?_, hc.fits hr⟩
  · have := List.length_pos_iff.2 hne
    rw [hrep.length]
    rcases hrep.root with ⟨-, hroot⟩ | ⟨n, -, hroot⟩
    · omega
    · have := (List.getElem?_eq_some_iff.1 hroot).1
      rwa [List.length_map] at this
  · cases hd : ds[i]? with
    | none =>
      rw [List.getElem?_eq_none_iff, ← hrep.length] at hd
      rw [struct_of_ge hd]
      exact List.nodup_nil
    | some d =>
      obtain ⟨st, hst, -, -, hfs⟩ := hrep.structs i d hd
      rw [struct_eq_of_getElem? hst]
      have hsame : st.fields.map (·.name) = d.fields.map (·.name) := by
        rw [← List.forall₂_eq_eq_eq, List.forall₂_map_left_iff, List.forall₂_map_right_iff]
        exact hfs.flip.imp fun g f hfg => hfg.1
      rw [hsame]
      exact hfields d (List.mem_of_getElem? hd)
  · obtain ⟨-, r, hr', rfl⟩ := href i f hf j hj
    rw [hc.length]
    exact target_lt hr.resolves hr'
  · obtain ⟨rank, hrank⟩ := hr.finished.exists_rank
    refine ⟨rank, fun i f hf j hj => ?_⟩
    obtain ⟨hi, r, hr', rfl⟩ := href i f hf j hj
    exact hrank i hi r hr'

/-- Every compiled schema is well formed. -/
theorem wellFormed_of_compile [Codecs] {text : String} {root : Option String} (h : compile text root = .ok s) :
    s.WellFormed := by
  obtain ⟨words, ds, -, hd, hds⟩ := compile_eq_ok.1 h
  obtain ⟨hne, hwords⟩ := TokenList.declarations_eq_ok.1 hd
  exact wellFormed_of_ofDeclarations hne hwords.nodup hds

/-- What holds of a struct if it holds of those it refers to holds of all structs. -/
theorem WellFormed.induction {P : Nat → Prop} (h : s.WellFormed)
    (step : ∀ i, (∀ f ∈ (s.struct i).fields, ∀ j, f.type.base = .struct j → P j) → P i) (i : Nat) : P i := by
  obtain ⟨rank, hrank⟩ := h.rank
  induction hn : rank i using Nat.strong_induction_on generalizing i with
  | _ n ih =>
    subst hn
    exact step i fun f hf j hj => ih (rank j) (hrank i f hf j hj) j rfl

/-- The elements of a field that is an array have a width of at least one byte. -/
theorem WellFormed.elementFits (h : s.WellFormed) {i : Nat} {f : Field} (hf : f ∈ (s.struct i).fields) :
    ElementFits s.baseWidth f.type :=
  (h.fits i).elements f.type (List.mem_map_of_mem (f := (·.type)) hf)

/-! ## Shapes -/

/-- The shape of a struct. -/
def shapeAt (s : Schema) (i : Nat) : Shape := ((s.tabulate shapeOf).lookup i).getD (.struct (some 0) [])

/-- The shape of a type that is no array. -/
def baseShape (s : Schema) : BaseType Nat → Shape
  | .primitive p => .primitive p
  | .struct j => s.shapeAt j

/-- What the shape of a struct says of a field. -/
def fieldShape (s : Schema) (f : Field) : String × Arity × Shape := (f.name, f.type.arity, s.baseShape f.type.base)

theorem mem_references {i : Nat} {r : Reference Unit} :
    r ∈ s.references i ↔ ∃ f ∈ (s.struct i).fields, f.type.base = .struct r.target := by
  unfold references
  rw [List.mem_filterMap]
  constructor
  · rintro ⟨f, hf, he⟩
    split at he
    · cases he
    · rename_i hb
      cases he
      exact ⟨f, hf, hb⟩
  · rintro ⟨f, hf, hb⟩
    exact ⟨f, hf, by rw [hb]⟩

/-- The order of a table lists its structs, each after those it refers to. -/
theorem WellFormed.order (h : s.WellFormed) : ∃ done, s.order = done.reverse ∧
    References.Finished s.references done ∧ ∀ i, i ∈ done ↔ i < s.structs.length := by
  have hlt : ∀ i < s.structs.length, ∀ r ∈ s.references i, r.target < s.structs.length := fun i _ r hr => by
    obtain ⟨f, hf, hb⟩ := mem_references.1 hr
    exact h.target i f hf r.target hb
  unfold Schema.order
  rcases References.order_spec hlt with ⟨done, hdone, hfin, hmem⟩ | ⟨c, -, nodes, r, -, hcycle⟩
  · exact ⟨done, by rw [hdone], hfin, hmem⟩
  · obtain ⟨rank, hrank⟩ := h.rank
    have hdown : ∀ i j, References.Refers s.references i j → rank j < rank i := by
      rintro i _ ⟨r, hr, rfl⟩
      obtain ⟨f, hf, hb⟩ := mem_references.1 hr
      exact hrank i f hf r.target hb
    exact absurd hcycle.transGen (References.irrefl_of_rank hdown _)

theorem shapeOf_local (s : Schema) :
    References.Local s.references fun shapes i => shapeOf shapes (s.struct i) := by
  intro i f g h
  unfold shapeOf
  refine congrArg (Shape.struct _) (List.map_congr_left fun x hx => ?_)
  cases hb : x.type.base with
  | primitive p => rfl
  | struct j =>
    dsimp only
    rw [h ⟨j, ()⟩ (mem_references.2 ⟨x, hx, hb⟩)]

/-- What is found of a struct from the fields alone, and of the structs they refer to, satisfies the equation that it is
found by at every struct. -/
theorem WellFormed.lookup_tabulate {α : Type} (h : s.WellFormed) {step : (Nat → Option α) → Struct → α} {missing : α}
    (hlocal : References.Local s.references fun entries i => step entries (s.struct i))
    (hmissing : ∀ entries, step entries .missing = missing) (i : Nat) :
    ((s.tabulate step).lookup i).getD missing =
      step (fun j => some (((s.tabulate step).lookup j).getD missing)) (s.struct i) := by
  obtain ⟨done, horder, hfin, hmem⟩ := h.order
  unfold tabulate
  rw [horder]
  by_cases hi : i < s.structs.length
  · rw [References.lookup_table hlocal hfin i ((hmem i).2 hi), Option.getD_some]
    -- the structs referred to have entries
    refine hlocal i _ _ fun r hr => ?_
    rw [References.lookup_table hlocal hfin r.target (hfin.closed i ((hmem i).2 hi) r hr), Option.getD_some]
  · rw [References.lookup_table_of_notMem (fun hmem' => hi ((hmem i).1 hmem')), struct_of_ge (by omega), hmissing]
    rfl

/-- The shape of a struct has the shapes of the types of its fields. -/
theorem WellFormed.shapeAt_eq (h : s.WellFormed) (i : Nat) :
    s.shapeAt i = .struct (s.struct i).width ((s.struct i).fields.map s.fieldShape) := by
  unfold shapeAt
  rw [h.lookup_tabulate s.shapeOf_local fun _ => rfl]
  refine congrArg (Shape.struct _) (List.map_congr_left fun f _ => ?_)
  unfold fieldShape
  cases hb : f.type.base with
  | primitive p => rfl
  | struct j => rfl

end Schema

end BinRecord
