/-
Cycles of structs and their reports. Declarations that mention each other in a cycle are refused for it, whatever else
is wrong with their widths, and what is reported as a cycle is one: its structs differ, each mentions the next, and the
last mentions the first at the place that is reported.
-/
import BinRecord.Proofs.Schema.Compile

namespace BinRecord.Schema

open References

/-! ## Broken rules of widths -/

/-- How it is reported that the fields of a struct break the rules, over widths of structs: an array of elements without
a width, or of elements of no bytes, or a field after an unbounded one. -/
inductive BreaksWidths (widths : Nat → Option WidthResult) (struct : String) (fs : List (FieldDeclaration Nat)) :
    SchemaError → Prop
  | element {f : FieldDeclaration Nat} : f ∈ fs → f.type.arity ≠ .single →
      declaredBaseWidth widths f.type.base = .ok none →
      BreaksWidths widths struct fs ⟨.unboundedElement f.name, some f.typePosition, none⟩
  | empty {f : FieldDeclaration Nat} : f ∈ fs → f.type.arity ≠ .single →
      declaredBaseWidth widths f.type.base = .ok (some 0) →
      BreaksWidths widths struct fs ⟨.emptyElement f.name, f.bracket, none⟩
  | after (before after : List (FieldDeclaration Nat)) (f g : FieldDeclaration Nat) : fs = before ++ f :: g :: after →
      fieldWidth widths f = .ok none →
      BreaksWidths widths struct fs ⟨.fieldAfterUnbounded g.name f.name struct, some g.position, none⟩

section

variable {widths : Nat → Option WidthResult} {struct : String} {fs : List (FieldDeclaration Nat)} {e : SchemaError}

theorem BreaksWidths.cons (h : BreaksWidths widths struct fs e) (f : FieldDeclaration Nat) :
    BreaksWidths widths struct (f :: fs) e := by
  cases h with
  | element hf => exact .element (List.mem_cons_of_mem f hf) ‹_› ‹_›
  | empty hf => exact .empty (List.mem_cons_of_mem f hf) ‹_› ‹_›
  | after before after g g' hfs hg => exact .after (f :: before) after g g' (by rw [hfs]; rfl) hg

theorem BreaksWidths.kind_ne (h : BreaksWidths widths struct fs e) : e.fault.kind ≠ .cyclicReference := by
  cases h <;> simp [SchemaFault.kind]

theorem fieldWidth_eq_error {f : FieldDeclaration Nat} (h : fieldWidth widths f = .error e) :
    (∃ j, f.type.base = .struct j ∧ widths j = some (.error e)) ∨ f.type.arity ≠ .single ∧
      ((declaredBaseWidth widths f.type.base = .ok none ∧ e = ⟨.unboundedElement f.name, some f.typePosition, none⟩) ∨
        (declaredBaseWidth widths f.type.base = .ok (some 0) ∧ e = ⟨.emptyElement f.name, f.bracket, none⟩)) := by
  unfold fieldWidth at h
  rcases except_bind_eq_error.1 h with hbase | ⟨element, hbase, h⟩
  · unfold declaredBaseWidth at hbase
    split at hbase
    · cases hbase
    · rename_i j hj
      cases hw : widths j with
      | none => rw [hw] at hbase; cases hbase
      | some result =>
        rw [hw] at hbase
        exact .inl ⟨j, hj, by rw [hw]; exact congrArg some hbase⟩
  · split at h
    · rename_i harity
      split at h
      · cases h
        exact .inr ⟨harity, .inl ⟨hbase, rfl⟩⟩
      · cases h
        exact .inr ⟨harity, .inr ⟨hbase, rfl⟩⟩
      · cases h
    · cases h

/-- The widths of fields are refused for a rule that they break, or for what is known of a struct that they mention. -/
theorem fieldsWidth_eq_error {before : Nat} (h : fieldsWidth widths struct before fs = .error e) :
    (∃ f ∈ fs, ∃ j, f.type.base = .struct j ∧ widths j = some (.error e)) ∨ BreaksWidths widths struct fs e := by
  induction fs generalizing before with
  | nil => cases h
  | cons f fs ih =>
    rw [fieldsWidth] at h
    rcases except_bind_eq_error.1 h with hf | ⟨w, hw, h⟩
    · rcases fieldWidth_eq_error hf with ⟨j, hj, hwj⟩ | ⟨harity, ⟨hb, rfl⟩ | ⟨hb, rfl⟩⟩
      · exact .inl ⟨f, List.mem_cons_self .., j, hj, hwj⟩
      · exact .inr (.element (List.mem_cons_self ..) harity hb)
      · exact .inr (.empty (List.mem_cons_self ..) harity hb)
    · cases w with
      | some w =>
        rcases ih h with ⟨g, hg, hj⟩ | hbreaks
        · exact .inl ⟨g, List.mem_cons_of_mem f hg, hj⟩
        · exact .inr (hbreaks.cons f)
      | none =>
        cases fs with
        | nil => cases h
        | cons g fs =>
          cases h
          exact .inr (.after [] fs f g rfl hw)

end

section

variable {ds : List (Declaration String)} {rs : List (Declaration Nat)} {done : List Nat} {e : SchemaError}

/-- Every error in the table of widths tells of a struct that breaks a rule. -/
theorem breaksWidths_of_finalWidths (hr : Resolved ds rs done) {i : Nat} (hi : i < rs.length)
    (h : finalWidths rs done i = some (.error e)) :
    ∃ d ∈ rs, BreaksWidths (finalWidths rs done) d.name d.fields e := by
  suffices hall : ∀ i < rs.length, finalWidths rs done i = some (.error e) →
      ∃ d ∈ rs, BreaksWidths (finalWidths rs done) d.name d.fields e from hall i hi h
  refine hr.induction fun i d hd ih h => ?_
  rw [finalWidths_eq hr hd, Option.some.injEq] at h
  rcases fieldsWidth_eq_error h with ⟨f, hf, j, hj, hw⟩ | hbreaks
  · exact ih ⟨j, f.typePosition⟩ (mem_referencesIn.2 ⟨d, hd, f, hf, hj, rfl⟩) hw
  · exact ⟨d, List.mem_of_getElem? hd, hbreaks⟩

theorem structOf_eq_error {i : Nat} {d : Declaration Nat}
    (h : structOf (declaredWidths rs done.reverse) i d = .error e) :
    finalWidths rs done i = some (.error e) := by
  unfold structOf at h
  rcases except_bind_eq_error.1 h with hw | ⟨w, -, h⟩
  · unfold finalWidths
    cases hlookup : (declaredWidths rs done.reverse).lookup i with
    | none =>
      rw [hlookup] at hw
      cases hw
    | some result =>
      rw [hlookup] at hw
      exact congrArg some hw
  · cases h

theorem rootPlace_eq_error {names : List String} {root : Option String} (h : rootPlace names root = .error e) :
    ∃ name, root = some name ∧ name ∉ names ∧ e = ⟨.unknownRoot name, none, none⟩ := by
  cases root with
  | none => cases h
  | some name =>
    rw [rootPlace] at h
    split at h
    · cases h
    · rename_i hno
      cases h
      exact ⟨name, rfl, List.idxOf?_eq_none_iff.1 hno, rfl⟩

end

/-! ## Reports -/

section

variable {ds : List (Declaration String)} {rs : List (Declaration Nat)} {root : Option String} {e : SchemaError}

/-- An error reports a cycle of structs, by their names from the first one to the first one again. They differ, each
mentions the next, and the last mentions the first in the type whose place is given. -/
structure ReportsCycle (ds : List (Declaration String)) (first : String) (others : List String) (e : SchemaError) :
    Prop where
  fault : e.fault = .cycle (first :: others ++ [first])
  message : e.fault.detail = " -> ".intercalate (first :: others ++ [first])
  distinct : (first :: others).Nodup
  mention : (first :: others ++ [first]).IsChain (Signature.Mentions (ds.map (·.signature)))
  closing : ∃ d ∈ ds, (first :: others).getLast? = some d.name ∧
    ∃ f ∈ d.fields, f.type.base = .struct first ∧ e.position = some f.typePosition

/-- A cycle of places is reported as a cycle of names. -/
theorem exists_reportsCycle (hn : (ds.map (·.name)).Nodup) (hrs : List.Forall₂ (Resolves (ds.map (·.name))) ds rs)
    {nodes : List Nat} {r : Reference TextPosition} (h : IsCycle (referencesIn rs) nodes r) :
    ∃ first others,
      ReportsCycle ds first others ⟨.cycle ((nodes ++ [r.target]).map (nameAt rs)), some r.mark, none⟩ := by
  have hlt : ∀ i ∈ nodes, i < rs.length := fun i hi => by
    obtain ⟨j, r, hr, -⟩ := exists_next_of_isChain h.isChain i hi
    exact source_lt hr
  have hinj : ∀ i ∈ nodes, ∀ j ∈ nodes, nameAt rs i = nameAt rs j → i = j := fun i hi j hj heq => by
    have hsame := names_getElem?_of_resolves hrs (hlt i hi)
    rw [heq, ← idxOf?_eq_some hn] at hsame
    have hat := (idxOf?_eq_some hn).2 (names_getElem?_of_resolves hrs (hlt j hj))
    exact Option.some.inj (hsame.symm.trans hat)
  obtain ⟨others, rfl⟩ : ∃ others, nodes = r.target :: others := List.head?_eq_some_iff.1 h.start
  have hnames : (r.target :: others ++ [r.target]).map (nameAt rs) =
      nameAt rs r.target :: others.map (nameAt rs) ++ [nameAt rs r.target] := by
    simp
  have hchain := (List.isChain_map (nameAt rs)).2 (h.isChain.imp fun i j => mentions_of_refers hn hrs)
  rw [hnames] at hchain ⊢
  refine ⟨_, _, rfl, rfl, List.Nodup.map_on hinj h.nodup, hchain, ?_⟩
  obtain ⟨i, hi, hr⟩ := h.closing
  obtain ⟨e, he, g, hg, hbase, hmark⟩ := mem_referencesIn.1 hr
  obtain ⟨d, hd, hde⟩ := forall₂_getElem? hrs.flip he
  obtain ⟨f, hf, hfg⟩ := forall₂_right hde.fields g hg
  obtain ⟨n, hfn, hat⟩ := (hbase ▸ hfg.base).to_struct
  obtain rfl := Option.some.inj (hat.symm.trans (names_getElem?_of_resolves hrs (target_lt hrs hr)))
  refine ⟨d, List.mem_of_getElem? hd, ?_, f, hf, hfn, ?_⟩
  · rw [← List.map_cons, List.getLast?_map, hi, Option.map_some, nameAt, he]
    exact congrArg some hde.name
  · rw [← hmark, hfg.typePosition]

/-- Declarations whose names are known are refused because they have no order, and else for a width or for the root. -/
theorem ofDeclarations_eq_error (hn : (ds.map (·.name)).Nodup)
    (hrs : List.Forall₂ (Resolves (ds.map (·.name))) ds rs) : ofDeclarations ds root = .error e ↔
      declaredOrder rs = .error e ∨ ∃ order, declaredOrder rs = .ok order ∧
        ((rs.zipIdx.mapM fun p => structOf (declaredWidths rs order) p.2 p.1) = .error e ∨
          ∃ structs, (rs.zipIdx.mapM fun p => structOf (declaredWidths rs order) p.2 p.1) = .ok structs ∧
            rootPlace (ds.map (·.name)) root = .error e) := by
  have hnames : checkNames [] ds = .ok () := checkNames_eq_ok.2 ⟨by simp, hn⟩
  have hresolve : ds.mapM (resolve (ds.map (·.name))) = .ok rs :=
    except_mapM_eq_ok.2 (hrs.imp fun d e hde => (resolve_eq_ok hn).2 hde)
  have hchain : ofDeclarations ds root = declaredOrder rs >>= fun order =>
      (rs.zipIdx.mapM fun p => structOf (declaredWidths rs order) p.2 p.1) >>= fun structs =>
        rootPlace (ds.map (·.name)) root >>= fun place => .ok ⟨structs, place⟩ := by
    unfold ofDeclarations
    rw [hnames]
    show (ds.mapM (resolve (ds.map (·.name))) >>= _) = _
    rw [hresolve]
    rfl
  rw [hchain]
  simp only [except_bind_eq_error, reduceCtorEq, and_false, exists_false, or_false]

/-- Declarations that have an order are refused for a width or for the root. -/
theorem breaks_of_resolved {done : List Nat} (hr : Resolved ds rs done) (horder : declaredOrder rs = .ok done.reverse)
    (h : ofDeclarations ds root = .error e) :
    (∃ d ∈ rs, BreaksWidths (finalWidths rs done) d.name d.fields e) ∨
      ∃ name, root = some name ∧ name ∉ ds.map (·.name) ∧ e = ⟨.unknownRoot name, none, none⟩ := by
  rcases (ofDeclarations_eq_error hr.distinct hr.resolves).1 h with h | ⟨order, ho, h⟩
  · rw [horder] at h
    cases h
  · rw [horder, Except.ok.injEq] at ho
    subst ho
    rcases h with h | ⟨structs, -, h⟩
    · obtain ⟨p, hp, he⟩ := exists_of_mapM_eq_error h
      have hlt : p.2 < rs.length := by
        have := List.snd_lt_of_mem_zipIdx hp
        omega
      exact .inl (breaksWidths_of_finalWidths hr hlt (structOf_eq_error he))
    · exact .inr (rootPlace_eq_error h)

/-- Declarations whose names differ and are known either have an order or have none, and then a cycle is reported. -/
theorem ordered_or_reportsCycle (hn : (ds.map (·.name)).Nodup)
    (hrs : List.Forall₂ (Resolves (ds.map (·.name))) ds rs) :
    (∃ done, Resolved ds rs done ∧ declaredOrder rs = .ok done.reverse) ∨
    ∃ e first others, declaredOrder rs = .error e ∧ ReportsCycle ds first others e := by
  have hlt : ∀ i < rs.length, ∀ r ∈ referencesIn rs i, r.target < rs.length := fun i _ r hr => target_lt hrs hr
  rcases order_spec hlt with ⟨done, hdone, hfin, hmem⟩ | ⟨c, hc, nodes, r, rfl, hcycle⟩
  · exact .inl ⟨done, ⟨hn, hrs, hfin, hmem⟩, declaredOrder_eq_ok.2 hdone⟩
  · obtain ⟨first, others, hreport⟩ := exists_reportsCycle hn hrs hcycle
    have horder : declaredOrder rs = .error ⟨.cycle ((nodes ++ [r.target]).map (nameAt rs)), some r.mark, none⟩ := by
      have hrefs : (fun i => ((rs[i]?).map declaredReferences).getD []) = referencesIn rs := rfl
      unfold declaredOrder
      simp only [hrefs, hc]
      rfl
    exact .inr ⟨_, first, others, horder, hreport⟩

/-- Declarations whose names differ and are known either have an order, and then no cycle is reported, or have none, and
then a cycle is. -/
theorem resolved_or_reportsCycle (hn : (ds.map (·.name)).Nodup)
    (hrs : List.Forall₂ (Resolves (ds.map (·.name))) ds rs) (root : Option String) :
    (∃ done, Resolved ds rs done ∧ ∀ e, ofDeclarations ds root = .error e → e.fault.kind ≠ .cyclicReference) ∨
    ∃ e first others, ofDeclarations ds root = .error e ∧ ReportsCycle ds first others e := by
  rcases ordered_or_reportsCycle hn hrs with ⟨done, hr, horder⟩ | ⟨e, first, others, horder, hreport⟩
  · refine .inl ⟨done, hr, fun e he => ?_⟩
    rcases breaks_of_resolved hr horder he with ⟨d, -, hbreaks⟩ | ⟨name, -, -, rfl⟩
    · exact hbreaks.kind_ne
    · simp [SchemaFault.kind]
  · exact .inr ⟨e, first, others, (ofDeclarations_eq_error hn hrs).2 (.inl horder), hreport⟩

theorem ReportsCycle.transGen {first : String} {others : List String} (h : ReportsCycle ds first others e) :
    Relation.TransGen (Signature.Mentions (ds.map (·.signature))) first first :=
  transGen_of_isChain h.mention

/-- Declarations whose names differ and are known are refused for a cycle exactly if they mention each other in one,
whatever else is wrong with them, and what is then reported is a cycle. -/
theorem ofDeclarations_cyclic_iff (hn : (ds.map (·.name)).Nodup)
    (hknown : ∀ d ∈ ds, ∀ f ∈ d.fields, ∀ n, f.type.base = .struct n → n ∈ ds.map (·.name)) (root : Option String) :
    ((∃ e, ofDeclarations ds root = .error e ∧ e.fault.kind = .cyclicReference) ↔
      ∃ n, Relation.TransGen (Signature.Mentions (ds.map (·.signature))) n n) ∧
    ∀ e, ofDeclarations ds root = .error e → e.fault.kind = .cyclicReference →
      ∃ first others, ReportsCycle ds first others e := by
  obtain ⟨rs, hrs⟩ : ∃ rs, List.Forall₂ (Resolves (ds.map (·.name))) ds rs :=
    exists_forall₂ fun d hd => exists_resolves (hknown d hd)
  rcases resolved_or_reportsCycle hn hrs root with ⟨done, hr, hkind⟩ | ⟨e, first, others, he, hreport⟩
  · refine ⟨⟨?_, ?_⟩, fun e he hcyclic => absurd hcyclic (hkind e he)⟩
    · rintro ⟨e, he, hcyclic⟩
      exact absurd hcyclic (hkind e he)
    · rintro ⟨n, hcycle⟩
      exact absurd hcycle (acyclic_of_resolved hr n)
  · have hcyclic : e.fault.kind = .cyclicReference := by
      rw [hreport.fault]
      rfl
    refine ⟨⟨fun _ => ⟨first, hreport.transGen⟩, fun _ => ⟨e, he, hcyclic⟩⟩, fun e' he' _ => ?_⟩
    rw [he, Except.error.injEq] at he'
    subst he'
    exact ⟨first, others, hreport⟩

end

/-- A struct with a field after an infinite array, and two that mention each other, one of them as the element of an
empty array. -/
def looped : List (Declaration String) :=
  [⟨"A", ⟨1, 8, 7, 1⟩, [⟨"x", ⟨1, 12, 11, 1⟩, ⟨.struct "B", .toEnd⟩, ⟨1, 15, 14, 1⟩, some ⟨1, 16, 15, 1⟩⟩,
      ⟨"y", ⟨1, 20, 19, 1⟩, ⟨.primitive (.unsigned .one .big), .single⟩, ⟨1, 23, 22, 2⟩, none⟩]⟩,
    ⟨"B", ⟨2, 8, 34, 1⟩, [⟨"c", ⟨2, 12, 38, 1⟩, ⟨.struct "C", .single⟩, ⟨2, 15, 41, 1⟩, none⟩]⟩,
    ⟨"C", ⟨3, 8, 52, 1⟩, [⟨"b", ⟨3, 12, 56, 1⟩, ⟨.struct "B", .times 0⟩, ⟨3, 15, 59, 1⟩, some ⟨3, 16, 60, 1⟩⟩]⟩]

/-- The cycle is reported, although it does not hold the first struct and rules of widths are broken. -/
theorem ofDeclarations_cyclic_iff_looped : ∃ e first others, ofDeclarations looped (some "D") = .error e ∧
    ReportsCycle looped first others e ∧ e.fault.detail = "B -> C -> B" ∧ e.position = some ⟨3, 15, 59, 1⟩ := by
  have hknown : ∀ d ∈ looped, ∀ f ∈ d.fields, ∀ n, f.type.base = .struct n → n ∈ looped.map (·.name) := by
    simp [looped]
  have herror : ofDeclarations looped (some "D") = .error ⟨.cycle ["B", "C", "B"], some ⟨3, 15, 59, 1⟩, none⟩ := by
    decide +kernel
  obtain ⟨-, hreports⟩ := ofDeclarations_cyclic_iff (by decide) hknown (some "D")
  obtain ⟨first, others, hreport⟩ := hreports _ herror rfl
  exact ⟨_, first, others, herror, hreport, by decide, rfl⟩

end BinRecord.Schema
