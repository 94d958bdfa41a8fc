/-
The compiler accepts exactly the declarations that keep to the rules of schemas, and compiles them
to a table that says what they say, with widths that follow from the fields.
-/
import BinRecord.Proofs.Schema.Resolve
import BinRecord.Text.StandardCodecs

namespace BinRecord.Schema

open References

variable {ds : List (Declaration String)} {rs : List (Declaration Nat)} {done : List Nat}
  {root : Option String} {s : Schema}

/-! ## What compiling comes to -/

/-- A struct of the table has the fields of the declaration and the width that is known. -/
theorem structOf_eq_ok {widths : List (Nat × WidthResult)} {i : Nat} {e : Declaration Nat} {st : Struct} :
    structOf widths i e = .ok st ↔ (widths.lookup i).getD (.ok none) = .ok st.width ∧ st.name = e.name ∧
      st.position = e.position ∧ st.fields = e.fields.map fun f => ⟨f.name, f.type, f.position⟩ := by
  unfold structOf
  rw [except_bind_eq_ok]
  constructor
  · rintro ⟨w, hw, h⟩
    cases h
    exact ⟨hw, rfl, rfl, rfl⟩
  · rintro ⟨hw, hn, hp, hf⟩
    refine ⟨_, hw, ?_⟩
    rw [← hn, ← hp, ← hf]

/-- Declarations compile to a table exactly when their names differ and are known, the structs have an
order, each has a width, and the root is declared. -/
theorem ofDeclarations_eq_ok : ofDeclarations ds root = .ok s ↔ ∃ rs done, Resolved ds rs done ∧
    declaredOrder rs = .ok done.reverse ∧
    List.Forall₂ (fun p st => structOf (declaredWidths rs done.reverse) p.2 p.1 = .ok st) rs.zipIdx s.structs ∧
    rootPlace (ds.map (·.name)) root = .ok s.root := by
  unfold ofDeclarations
  simp only [except_bind_eq_ok, except_mapM_eq_ok]
  constructor
  · rintro ⟨_, hnames, rs, hrs, order, horder, structs, hstructs, place, hroot, h⟩
    cases h
    have hn := (checkNames_eq_ok.1 hnames).2
    replace hrs := hrs.imp fun d e hde => (resolve_eq_ok hn).1 hde
    have hlt : ∀ i < rs.length, ∀ r ∈ referencesIn rs i, r.target < rs.length :=
      fun i _ r hr => target_lt hrs hr
    rcases order_spec hlt with ⟨done, hdone, hfin, hmem⟩ | ⟨c, hc, -⟩
    · rw [declaredOrder_eq_ok, hdone, Except.ok.injEq] at horder
      subst horder
      exact ⟨rs, done, ⟨hn, hrs, hfin, hmem⟩, declaredOrder_eq_ok.2 hdone, hstructs, hroot⟩
    · rw [declaredOrder_eq_ok, hc] at horder
      cases horder
  · rintro ⟨rs, done, h, horder, hstructs, hroot⟩
    have hrs := h.resolves.imp fun d e hde => (resolve_eq_ok h.distinct).2 hde
    exact ⟨(), checkNames_eq_ok.2 ⟨by simp, h.distinct⟩, rs, hrs, _, horder, _, hstructs, _, hroot, rfl⟩

/-! ## The table -/

/-- The table of a schema beside the resolved declarations that it was compiled from. -/
structure Compiled (rs : List (Declaration Nat)) (done : List Nat) (s : Schema) : Prop where
  length : s.structs.length = rs.length
  struct : ∀ i e, rs[i]? = some e → (s.struct i).name = e.name ∧ (s.struct i).position = e.position ∧
    (s.struct i).fields = e.fields.map fun f => ⟨f.name, f.type, f.position⟩
  width : ∀ i < rs.length, finalWidths rs done i = some (.ok (s.struct i).width)

theorem struct_eq_of_getElem? {i : Nat} {st : Struct} (h : s.structs[i]? = some st) : s.struct i = st := by
  unfold struct; rw [h]; rfl

theorem mem_structs_iff {st : Struct} : st ∈ s.structs ↔ ∃ i < s.structs.length, s.struct i = st := by
  rw [List.mem_iff_getElem?]
  constructor
  · rintro ⟨i, hi⟩
    exact ⟨i, (List.getElem?_eq_some_iff.1 hi).1, struct_eq_of_getElem? hi⟩
  · rintro ⟨i, hi, rfl⟩
    refine ⟨i, ?_⟩
    rw [List.getElem?_eq_getElem hi, Option.some.injEq]
    exact (struct_eq_of_getElem? (List.getElem?_eq_getElem hi)).symm

theorem compiled_of_forall₂ (h : Resolved ds rs done)
    (hs : List.Forall₂ (fun p st => structOf (declaredWidths rs done.reverse) p.2 p.1 = .ok st)
      rs.zipIdx s.structs) : Compiled rs done s := by
  have hlen : s.structs.length = rs.length := by rw [← hs.length_eq, List.length_zipIdx]
  have hstruct : ∀ i e, rs[i]? = some e →
      structOf (declaredWidths rs done.reverse) i e = .ok (s.struct i) := fun i e he => by
    obtain ⟨st, hst, h⟩ := forall₂_getElem? hs (x := (e, i)) (by rw [List.getElem?_zipIdx, he]; simp)
    rw [struct_eq_of_getElem? hst]
    exact h
  refine ⟨hlen, fun i e he => (structOf_eq_ok.1 (hstruct i e he)).2, fun i hi => ?_⟩
  have hw := (structOf_eq_ok.1 (hstruct i _ (List.getElem?_eq_getElem hi))).1
  have hlook := lookup_table (widthStep_local rs) h.finished i ((h.mem_done i).2 hi)
  rw [show (declaredWidths rs done.reverse).lookup i = _ from hlook, Option.getD_some] at hw
  exact hlook.trans (by rw [hw])

/-- The widths of elements in the table are the known ones. -/
theorem Compiled.baseWidth_eq (h : Compiled rs done s) {i : Nat} {e : Declaration Nat} (he : rs[i]? = some e)
    (hlt : ∀ r ∈ referencesIn rs i, r.target < rs.length) :
    ∀ f ∈ e.fields, s.baseWidth f.type.base = elementWidth (known (finalWidths rs done)) f.type.base := by
  intro f hf
  cases hb : f.type.base with
  | primitive p => rfl
  | struct j =>
    have hj := hlt ⟨j, f.typePosition⟩ (mem_referencesIn.2 ⟨e, he, f, hf, hb, rfl⟩)
    exact (known_eq (h.width j hj)).symm

/-- The fields of each struct of the table fit one after the other and take its width together. -/
theorem Compiled.fits (h : Compiled rs done s) (hr : Resolved ds rs done) (i : Nat) :
    Fits s.baseWidth ((s.struct i).fields.map (·.type)) (s.struct i).width := by
  by_cases hi : i < rs.length
  · have he := List.getElem?_eq_getElem hi
    have hlt : ∀ r ∈ referencesIn rs i, r.target < rs.length := fun r hr' => target_lt hr.resolves hr'
    have hfits := (finalWidths_eq_ok hr he fun r hr' => by
      rw [h.width _ (hlt r hr'), known_eq (h.width _ (hlt r hr'))]).1 (h.width i hi)
    refine hfits.congr ?_
    rw [(h.struct i _ he).2.2, List.map_map, List.forall₂_map_left_iff, List.forall₂_map_right_iff]
    exact List.forall₂_same.2 fun f hf => ⟨rfl, h.baseWidth_eq he hlt f hf⟩
  · have : s.struct i = .missing := by
      unfold Schema.struct
      rw [List.getElem?_eq_none (by rw [h.length]; omega)]
      rfl
    rw [this]
    exact .nil

/-- What a schema says of declarations: the same in the same order, with places for names, widths that
add up, and the root. The widths of types in the table are those that the compiler found. -/
structure Represents (ds : List (Declaration String)) (root : Option String) (s : Schema) : Prop where
  length : s.structs.length = ds.length
  structs : ∀ (i : Nat) d, ds[i]? = some d → ∃ st, s.structs[i]? = some st ∧ st.name = d.name ∧
    st.position = d.position ∧ List.Forall₂ (fun f g => g.name = f.name ∧ g.position = f.position ∧
      g.type.arity = f.type.arity ∧ BaseResolves (ds.map (·.name)) f.type.base g.type.base) d.fields st.fields
  width : ∀ st ∈ s.structs, st.width = (st.fields.mapM fun f => s.widthOf f.type).map List.sum
  unbounded : ∀ st ∈ s.structs, st.width = none ↔ ∃ f, st.fields.getLast? = some f ∧ s.widthOf f.type = none
  found : ∃ rs order, ds.mapM (resolve (ds.map (·.name))) = .ok rs ∧ declaredOrder rs = .ok order ∧
    ∀ (i : Nat) e st, rs[i]? = some e → s.structs[i]? = some st → st.fields.map (·.type) = e.fields.map (·.type) ∧
      ∀ f ∈ e.fields,
        declaredBaseWidth ((declaredWidths rs order).lookup ·) f.type.base = .ok (s.baseWidth f.type.base) ∧
        fieldWidth ((declaredWidths rs order).lookup ·) f = .ok (s.widthOf f.type)
  root : (root = none ∧ s.root + 1 = ds.length) ∨
    ∃ n, root = some n ∧ (ds.map (·.name))[s.root]? = some n

theorem represents_of_compiled (hr : Resolved ds rs done) (ho : declaredOrder rs = .ok done.reverse)
    (hc : Compiled rs done s) (hroot : rootPlace (ds.map (·.name)) root = .ok s.root) (hne : ds ≠ []) :
    Represents ds root s := by
  have hfits : ∀ st ∈ s.structs, Fits s.baseWidth (st.fields.map (·.type)) st.width := fun st hst => by
    obtain ⟨i, -, rfl⟩ := mem_structs_iff.1 hst
    exact hc.fits hr i
  refine ⟨hc.length.trans hr.resolves.length_eq.symm, fun i d hd => ?_, fun st hst => ?_, fun st hst => ?_, ?_, ?_⟩
  · obtain ⟨e, he, hde⟩ := forall₂_getElem? hr.resolves hd
    obtain ⟨hn, hp, hf⟩ := hc.struct i e he
    have hi : i < s.structs.length := by rw [hc.length]; exact (List.getElem?_eq_some_iff.1 he).1
    have hst := List.getElem?_eq_getElem hi
    rw [struct_eq_of_getElem? hst] at hn hp hf
    refine ⟨_, hst, hn.trans hde.name, hp.trans hde.position, ?_⟩
    rw [hf, List.forall₂_map_right_iff]
    exact hde.fields.imp fun f g hfg => ⟨hfg.name, hfg.position, hfg.arity, hfg.base⟩
  · rw [(hfits st hst).total_eq, List.mapM_map]
    rfl
  · rw [(hfits st hst).total_eq_none_iff, List.getLast?_map]
    constructor
    · rintro ⟨t, ht, hw⟩
      obtain ⟨f, hf, rfl⟩ := Option.map_eq_some_iff.1 ht
      exact ⟨f, hf, hw⟩
    · rintro ⟨f, hf, hw⟩
      exact ⟨f.type, by rw [hf]; rfl, hw⟩
  · refine ⟨rs, done.reverse, except_mapM_eq_ok.2 (hr.resolves.imp fun d e hde => (resolve_eq_ok hr.distinct).2 hde),
      ho, fun i e st he hst => ?_⟩
    have hlt : ∀ r ∈ referencesIn rs i, r.target < rs.length := fun r hr' => target_lt hr.resolves hr'
    have hf := (hc.struct i e he).2.2
    rw [struct_eq_of_getElem? hst] at hf
    refine ⟨by rw [hf, List.map_map]; rfl, fun f hfe => ?_⟩
    -- the widths of the structs referred to had been found before this one
    have hb : declaredBaseWidth (finalWidths rs done) f.type.base = .ok (s.baseWidth f.type.base) := by
      cases hfb : f.type.base with
      | primitive p => rfl
      | struct j =>
        have hj := hlt ⟨j, f.typePosition⟩ (mem_referencesIn.2 ⟨e, he, f, hfe, hfb, rfl⟩)
        simp only [declaredBaseWidth, hc.width j hj, Option.getD_some]
        rfl
    refine ⟨hb, (fieldWidth_eq_ok hb).2 ⟨?_, rfl⟩⟩
    refine (hfits st (List.mem_of_getElem? hst)).elements f.type ?_
    rw [hf, List.map_map]
    exact List.mem_map_of_mem (f := fun f : FieldDeclaration Nat => f.type) hfe
  · rcases (rootPlace_eq_ok hr.distinct).1 hroot with ⟨h, hi⟩ | ⟨n, h, hi⟩
    · refine .inl ⟨h, ?_⟩
      have := List.length_pos_iff.2 hne
      rw [List.length_map] at hi
      omega
    · exact .inr ⟨n, h, hi⟩

/-! ## The rules -/

theorem names_signatures (ds : List (Declaration String)) :
    (ds.map (·.signature)).map (·.name) = ds.map (·.name) := by
  rw [List.map_map]; rfl

theorem mem_names_of_resolves (h : List.Forall₂ (Resolves (ds.map (·.name))) ds rs) :
    ∀ d ∈ ds.map (·.signature), ∀ f ∈ d.fields, ∀ n, f.2.base = .struct n → n ∈ ds.map (·.name) := by
  intro s hs p hp n hn
  obtain ⟨d, hd, rfl⟩ := List.mem_map.1 hs
  obtain ⟨f, hf, rfl⟩ := List.mem_map.1 hp
  replace hn : f.type.base = .struct n := hn
  obtain ⟨e, -, hde⟩ := forall₂_left h d hd
  obtain ⟨g, -, hfg⟩ := forall₂_left hde.fields f hf
  obtain ⟨k, -, hk⟩ := (hn ▸ hfg.base).of_struct
  exact List.mem_of_getElem? hk

/-- Declarations that have an order mention each other without cycles. -/
theorem acyclic_of_resolved (hr : Resolved ds rs done) (n : String) :
    ¬ Relation.TransGen (Signature.Mentions (ds.map (·.signature))) n n := by
  obtain ⟨rank, hrank⟩ := hr.finished.exists_rank
  have hplace : ∀ {i n}, (ds.map (·.name))[i]? = some n → (ds.map (·.name)).idxOf n = i := fun {i n} h => by
    obtain ⟨hi, rfl⟩ := List.getElem?_eq_some_iff.1 h
    exact hr.distinct.idxOf_getElem i hi
  -- names are ranked by the places that they stand for
  let place (n : String) : Nat := rank ((ds.map (·.name)).idxOf n)
  have hstep : ∀ a b, Signature.Mentions (ds.map (·.signature)) a b → place b < place a := fun a b hab => by
    have hb : b ∈ ds.map (·.name) := by
      obtain ⟨s, hs, -, p, hp, hpb⟩ := hab
      exact mem_names_of_resolves hr.resolves s hs p hp b hpb
    obtain ⟨i, j, hi, hj, r, hr', rfl⟩ := (mentions_iff hr.distinct hr.resolves hb).1 hab
    simp only [place, hplace hi, hplace hj]
    obtain ⟨e, he, -⟩ := mem_referencesIn.1 hr'
    exact hrank i ((hr.mem_done i).2 (List.getElem?_eq_some_iff.1 he).1) r hr'
  exact irrefl_of_rank hstep n

/-- In declarations that compile, the known widths are those of the rules, and the fields of every
struct fit over them. -/
theorem fits_of_compiled (hr : Resolved ds rs done) (hc : Compiled rs done s) {d : Declaration String}
    (hd : d ∈ ds) :
    (∀ f ∈ d.signature.fields, Signature.Describes (ds.map (·.signature)) ⟨f.2.base, .single⟩
      (writtenWidth (ds.map (·.name)) (known (finalWidths rs done)) f.2.base)) ∧
    ∃ total, Fits (writtenWidth (ds.map (·.name)) (known (finalWidths rs done)))
      (d.signature.fields.map (·.2)) total := by
  have hdesc := known_described hr fun i d e _ he _ _ => ⟨_, hc.width i (List.getElem?_eq_some_iff.1 he).1⟩
  obtain ⟨i, hi⟩ := List.mem_iff_getElem?.1 hd
  obtain ⟨e, he, hde⟩ := forall₂_getElem? hr.resolves hi
  have hlt : ∀ r ∈ referencesIn rs i, r.target < rs.length := fun r hr' => target_lt hr.resolves hr'
  refine ⟨describes_written hr _ hi fun r _ n hn => ?_, _, (fits_written_iff hr.distinct hde).2
    ((finalWidths_eq_ok hr he fun r hr' => ?_).1 (hc.width i (List.getElem?_eq_some_iff.1 he).1))⟩
  · rw [List.getElem?_map, Option.map_eq_some_iff] at hn
    obtain ⟨d', hd', rfl⟩ := hn
    exact (hdesc _ _ hd').2
  · rw [hc.width _ (hlt r hr'), known_eq (hc.width _ (hlt r hr'))]

/-- Declarations that compile keep to the rules. -/
theorem acceptable_of_compiled (hr : Resolved ds rs done) (hc : Compiled rs done s)
    (hroot : rootPlace (ds.map (·.name)) root = .ok s.root) :
    Signature.Acceptable (ds.map (·.signature)) root := by
  refine ⟨?_, ?_, acyclic_of_resolved hr, ?_, ?_, ?_⟩
  · rw [names_signatures]; exact hr.distinct
  · rw [names_signatures]; exact mem_names_of_resolves hr.resolves
  · intro s hs before p after hsplit hu
    obtain ⟨d, hd, rfl⟩ := List.mem_map.1 hs
    obtain ⟨hb, total, hfits⟩ := fits_of_compiled hr hc hd
    have hp : p ∈ d.signature.fields := by rw [hsplit]; simp
    have hw := (Signature.describes_type (hfits.elements _ (List.mem_map_of_mem hp)) (hb p hp)).none_iff.2 hu
    have := hfits.last_of_none (before.map (·.2)) p.2 (after.map (·.2)) (by rw [hsplit]; simp) hw
    exact List.map_eq_nil_iff.1 this
  · intro s hs p hp
    obtain ⟨d, hd, rfl⟩ := List.mem_map.1 hs
    obtain ⟨hb, total, hfits⟩ := fits_of_compiled hr hc hd
    exact (Signature.elementFits_iff (hb p hp)).1 (hfits.elements _ (List.mem_map_of_mem hp))
  · rintro n rfl
    rw [names_signatures]
    rcases (rootPlace_eq_ok hr.distinct).1 hroot with ⟨h, -⟩ | ⟨m, h, hi⟩
    · cases h
    · cases h; exact List.mem_of_getElem? hi

/-- Declarations that keep to the rules have an order. -/
theorem resolved_of_acceptable (h : Signature.Acceptable (ds.map (·.signature)) root) :
    ∃ rs done, Resolved ds rs done ∧ declaredOrder rs = .ok done.reverse := by
  have hn : (ds.map (·.name)).Nodup := names_signatures ds ▸ h.distinct
  have hrs : ∃ rs, List.Forall₂ (Resolves (ds.map (·.name))) ds rs := exists_forall₂ fun d hd =>
    exists_resolves fun f hf n hb => names_signatures ds ▸
      h.known _ (List.mem_map_of_mem hd) (f.name, f.type) (List.mem_map_of_mem hf) n hb
  obtain ⟨rs, hrs⟩ := hrs
  have hlt : ∀ i < rs.length, ∀ r ∈ referencesIn rs i, r.target < rs.length := fun i _ r hr => target_lt hrs hr
  rcases order_spec hlt with ⟨done, hdone, hfin, hmem⟩ | ⟨c, -, nodes, r, -, hcycle⟩
  · exact ⟨rs, done, ⟨hn, hrs, hfin, hmem⟩, declaredOrder_eq_ok.2 hdone⟩
  · -- a cycle of places is a cycle of names
    exact absurd (hcycle.transGen.lift (nameAt rs) fun i j => mentions_of_refers hn hrs) (h.acyclic _)

/-- Declarations that keep to the rules compile. -/
theorem ofDeclarations_of_acceptable (h : Signature.Acceptable (ds.map (·.signature)) root) :
    ∃ s, ofDeclarations ds root = .ok s := by
  obtain ⟨rs, done, hr, horder⟩ := resolved_of_acceptable h
  have hknown := known_described hr fun i d e hd he hrefs hdesc => by
    obtain ⟨e', he', hde⟩ := forall₂_getElem? hr.resolves hd
    rw [he, Option.some.injEq] at he'
    subst he'
    have hmem : d.signature ∈ ds.map (·.signature) := List.mem_map_of_mem (List.mem_of_getElem? hd)
    have hfields : ∀ t ∈ d.signature.fields.map (·.2),
        ElementFits (writtenWidth (ds.map (·.name)) (known (finalWidths rs done))) t := by
      intro t ht
      obtain ⟨p, hp, rfl⟩ := List.mem_map.1 ht
      exact (Signature.elementFits_iff (hdesc p hp)).2 (h.elements _ hmem p hp)
    obtain ⟨total, htotal⟩ := Fits.exists_of_rules hfields fun before t after hsplit hw => by
      obtain ⟨before, rest, hb, rfl, hrest⟩ := List.map_eq_append_iff.1 hsplit
      obtain ⟨p, after, rfl, rfl, rfl⟩ := List.map_eq_cons_iff.1 hrest
      have hp : p ∈ d.signature.fields := by rw [hb]; simp
      have hu := (Signature.describes_type (hfields _ (List.mem_map_of_mem hp)) (hdesc p hp)).none_iff.1 hw
      rw [h.last _ hmem before p after hb hu]
      rfl
    exact ⟨total, (finalWidths_eq_ok hr he hrefs).2 ((fits_written_iff hr.distinct hde).1 htotal)⟩
  have hstructs : ∃ structs, List.Forall₂
      (fun p st => structOf (declaredWidths rs done.reverse) p.2 p.1 = .ok st) rs.zipIdx structs :=
    exists_forall₂ fun p hp => by
      obtain ⟨e, i⟩ := p
      have hi : i < ds.length := by
        have := (List.getElem?_eq_some_iff.1 (List.mk_mem_zipIdx_iff_getElem?.1 hp)).1
        rwa [hr.resolves.length_eq]
      have hw := (hknown i _ (List.getElem?_eq_getElem hi)).1
      unfold finalWidths at hw
      exact ⟨⟨e.name, _, _, e.position⟩, structOf_eq_ok.2 ⟨by rw [hw]; rfl, rfl, rfl, rfl⟩⟩
  obtain ⟨structs, hstructs⟩ := hstructs
  have hplace : ∃ place, rootPlace (ds.map (·.name)) root = .ok place := by
    cases hroot : root with
    | none => exact ⟨_, rfl⟩
    | some n =>
      have hn : n ∈ ds.map (·.name) := names_signatures ds ▸ h.root n hroot
      obtain ⟨i, hi⟩ := List.mem_iff_getElem?.1 hn
      exact ⟨i, (rootPlace_eq_ok hr.distinct).2 (.inr ⟨n, rfl, hi⟩)⟩
  obtain ⟨place, hplace⟩ := hplace
  exact ⟨⟨structs, place⟩, ofDeclarations_eq_ok.2 ⟨rs, done, hr, horder, hstructs, hplace⟩⟩

/-- A schema that declarations compile to represents them, and they keep to the rules. -/
theorem represents_of_ofDeclarations (hne : ds ≠ []) (h : ofDeclarations ds root = .ok s) :
    Represents ds root s ∧ Signature.Acceptable (ds.map (·.signature)) root := by
  obtain ⟨rs, done, hr, horder, hstructs, hroot⟩ := ofDeclarations_eq_ok.1 h
  have hc := compiled_of_forall₂ hr hstructs
  exact ⟨represents_of_compiled hr horder hc hroot hne, acceptable_of_compiled hr hc hroot⟩

/-! ## From text -/

section Text

variable [Codecs]

theorem compile_eq_ok {text : String} : compile text root = .ok s ↔ ∃ words ds,
    Token.scan text = .ok words ∧ words.declarations = .ok ds ∧ ofDeclarations ds root = .ok s := by
  unfold compile
  simp only [except_bind_eq_ok, except_mapError_eq_ok]
  constructor
  · rintro ⟨words, hw, ds, hd, h⟩; exact ⟨words, ds, hw, hd, h⟩
  · rintro ⟨words, ds, hw, hd, h⟩; exact ⟨words, hw, ds, hd, h⟩

/-- A text declares at least one struct. -/
theorem ne_nil_of_declarations {words : TokenList} (h : words.declarations = .ok ds) : ds ≠ [] := by
  rintro rfl
  unfold TokenList.declarations at h
  split at h
  · cases h
  · rename_i hne
    exact hne h

/-- A text compiles to what its declarations compile to. -/
theorem compile_of_declarations {text : String} {words : TokenList} (hw : Token.scan text = .ok words)
    (hd : words.declarations = .ok ds) : compile text root = .ok s ↔ ofDeclarations ds root = .ok s := by
  rw [compile_eq_ok]
  constructor
  · rintro ⟨words', ds', hw', hd', h⟩
    cases hw.symm.trans hw'
    cases hd.symm.trans hd'
    exact h
  · exact fun h => ⟨words, ds, hw, hd, h⟩

/-- A text of declarations compiles exactly when they keep to the rules of schemas, and then to a
schema that represents them. -/
theorem compile_iff_acceptable {text : String} {words : TokenList} (hw : Token.scan text = .ok words)
    (hd : words.declarations = .ok ds) (root : Option String) :
    ((∃ s, compile text root = .ok s) ↔ Signature.Acceptable (ds.map (·.signature)) root) ∧
      ∀ s, compile text root = .ok s → Represents ds root s := by
  have hne := ne_nil_of_declarations hd
  simp only [compile_of_declarations hw hd]
  refine ⟨⟨?_, ofDeclarations_of_acceptable⟩, fun s h => (represents_of_ofDeclarations hne h).1⟩
  rintro ⟨s, h⟩
  exact (represents_of_ofDeclarations hne h).2

end Text

/-- A struct referred to before it is declared, in an array and in an infinite one. -/
theorem compile_iff_acceptable_forward :
    ∃ words ds, Token.scan "struct B { n: U8 xs: A[2] rest: A[+] } struct A { x: U16LE, y: NSTR<3, ascii> }" =
        .ok words ∧ words.declarations = .ok ds ∧
      ((∃ s, compile "struct B { n: U8 xs: A[2] rest: A[+] } struct A { x: U16LE, y: NSTR<3, ascii> }"
          (some "B") = .ok s) ↔ Signature.Acceptable (ds.map (·.signature)) (some "B")) ∧
      ∀ s, compile "struct B { n: U8 xs: A[2] rest: A[+] } struct A { x: U16LE, y: NSTR<3, ascii> }"
        (some "B") = .ok s → Represents ds (some "B") s := by
  have hsome : ((Token.scan "struct B { n: U8 xs: A[2] rest: A[+] } struct A { x: U16LE, y: NSTR<3, ascii> }").toOption.bind
      (·.declarations.toOption)).isSome = true := by decide +kernel
  obtain ⟨ds, hds⟩ := Option.isSome_iff_exists.1 hsome
  obtain ⟨words, hw, hd⟩ := Option.bind_eq_some_iff.1 hds
  rw [except_toOption_eq_some] at hw hd
  exact ⟨words, ds, hw, hd, compile_iff_acceptable hw hd (some "B")⟩

end BinRecord.Schema
