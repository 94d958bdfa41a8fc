/-
What the compiler knows of declarations: the places that names stand for, the references between
structs, and the widths. Since names differ, a place and its name determine each other, and a struct
refers to another by place exactly when it mentions it by name. Widths are found along the order of
the search, so every statement about them goes by induction on the rank of a struct in that order.
-/
import BinRecord.Proofs.Schema.References
import BinRecord.Proofs.Schema.Rules
import BinRecord.Schema.Compile

namespace BinRecord.Schema

open References

/-! ## Names -/

theorem checkNames_eq_ok {ds : List (Declaration String)} :
    ∀ {before : List (Declaration String)}, checkNames before ds = .ok () ↔
      (∀ d ∈ ds, ∀ b ∈ before, b.name ≠ d.name) ∧ (ds.map (·.name)).Nodup := by
  induction ds with
  | nil => simp [checkNames]
  | cons d ds ih =>
    intro before
    rw [checkNames]
    cases hf : before.find? (·.name = d.name) with
    | some b =>
      have hb := List.mem_of_find?_eq_some hf
      have hn : b.name = d.name := by simpa using List.find?_some hf
      simp only [reduceCtorEq, false_iff, not_and]
      intro h
      exact absurd hn (h d (List.mem_cons_self ..) b hb)
    | none =>
      have hnew : ∀ b ∈ before, b.name ≠ d.name := by simpa using hf
      rw [ih, List.map_cons, List.nodup_cons]
      constructor
      · rintro ⟨h, hnd⟩
        refine ⟨List.forall_mem_cons.2 ⟨hnew, fun e he b hb => h e he b (by simp [hb])⟩, ?_, hnd⟩
        intro hm
        obtain ⟨e, he, hn⟩ := List.mem_map.1 hm
        exact h e he d (by simp) hn.symm
      · rintro ⟨h, hd, hnd⟩
        refine ⟨fun e he b hb => ?_, hnd⟩
        rcases List.mem_append.1 hb with hb | hb
        · exact h e (List.mem_cons_of_mem _ he) b hb
        · rw [List.mem_singleton.1 hb]
          exact fun hn => hd (hn ▸ List.mem_map_of_mem he)

theorem idxOf?_eq_some {names : List String} (hn : names.Nodup) {n : String} {i : Nat} :
    names.idxOf? n = some i ↔ names[i]? = some n := by
  rw [List.idxOf?_eq_some_iff]
  constructor
  · rintro ⟨h, he, -⟩
    rw [List.getElem?_eq_getElem h, he]
  · intro h
    obtain ⟨hi, rfl⟩ := List.getElem?_eq_some_iff.1 h
    refine ⟨hi, rfl, fun j hj he => ?_⟩
    rw [hn.getElem_inj_iff] at he
    omega

/-- A type as written, and the same type with the place of the struct that it names. -/
inductive BaseResolves (names : List String) : BaseType String → BaseType Nat → Prop
  | primitive (p : Primitive) : BaseResolves names (.primitive p) (.primitive p)
  | struct {n : String} {i : Nat} : names[i]? = some n → BaseResolves names (.struct n) (.struct i)

theorem BaseResolves.of_struct {names : List String} {n : String} {c : BaseType Nat}
    (h : BaseResolves names (.struct n) c) : ∃ i, c = .struct i ∧ names[i]? = some n := by
  cases h with
  | struct hi => exact ⟨_, rfl, hi⟩

theorem BaseResolves.to_struct {names : List String} {b : BaseType String} {i : Nat}
    (h : BaseResolves names b (.struct i)) : ∃ n, b = .struct n ∧ names[i]? = some n := by
  cases h with
  | struct hi => exact ⟨_, rfl, hi⟩

/-- A field as written, and the same field with the place of the struct that it names. -/
structure FieldResolves (names : List String) (f : FieldDeclaration String) (g : FieldDeclaration Nat) :
    Prop where
  name : g.name = f.name
  position : g.position = f.position
  base : BaseResolves names f.type.base g.type.base
  arity : g.type.arity = f.type.arity
  typePosition : g.typePosition = f.typePosition
  bracket : g.bracket = f.bracket

/-- A declaration as written, and the same declaration with places for names. -/
structure Resolves (names : List String) (d : Declaration String) (e : Declaration Nat) : Prop where
  name : e.name = d.name
  position : e.position = d.position
  fields : List.Forall₂ (FieldResolves names) d.fields e.fields

theorem resolveBase_eq_ok {names : List String} (hn : names.Nodup) {p : TextPosition}
    {b : BaseType String} {c : BaseType Nat} :
    resolveBase names p b = .ok c ↔ BaseResolves names b c := by
  cases b with
  | primitive q =>
    rw [resolveBase]
    constructor
    · intro h; cases h; exact .primitive q
    · intro h; cases h; rfl
  | struct n =>
    rw [resolveBase]
    cases hi : names.idxOf? n with
    | none =>
      refine ⟨nofun, fun h => ?_⟩
      cases h with
      | struct h => rw [(idxOf?_eq_some hn).2 h] at hi; cases hi
    | some i =>
      constructor
      · intro h; cases h; exact .struct ((idxOf?_eq_some hn).1 hi)
      · intro h
        cases h with
        | struct h => rw [(idxOf?_eq_some hn).2 h] at hi; cases hi; rfl

theorem resolveField_eq_ok {names : List String} (hn : names.Nodup) {f : FieldDeclaration String}
    {g : FieldDeclaration Nat} : resolveField names f = .ok g ↔ FieldResolves names f g := by
  unfold resolveField
  rw [except_bind_eq_ok]
  constructor
  · rintro ⟨b, hb, h⟩
    cases h
    exact ⟨rfl, rfl, (resolveBase_eq_ok hn).1 hb, rfl, rfl, rfl⟩
  · rintro ⟨h₁, h₂, h₃, h₄, h₅, h₆⟩
    refine ⟨g.type.base, (resolveBase_eq_ok hn).2 h₃, ?_⟩
    rw [← h₁, ← h₂, ← h₄, ← h₅, ← h₆]

theorem resolve_eq_ok {names : List String} (hn : names.Nodup) {d : Declaration String}
    {e : Declaration Nat} : resolve names d = .ok e ↔ Resolves names d e := by
  unfold resolve
  simp only [except_bind_eq_ok, except_mapM_eq_ok, resolveField_eq_ok hn]
  constructor
  · rintro ⟨fs, hfs, h⟩
    cases h
    exact ⟨rfl, rfl, hfs⟩
  · rintro ⟨h₁, h₂, h₃⟩
    refine ⟨e.fields, h₃, ?_⟩
    rw [← h₁, ← h₂]

theorem exists_resolves {names : List String} {d : Declaration String}
    (h : ∀ f ∈ d.fields, ∀ n, f.type.base = .struct n → n ∈ names) : ∃ e, Resolves names d e := by
  have hgs : ∃ gs, List.Forall₂ (FieldResolves names) d.fields gs := exists_forall₂ fun f hf => by
    obtain ⟨b, hb⟩ : ∃ b, BaseResolves names f.type.base b := by
      cases hb : f.type.base with
      | primitive p => exact ⟨_, .primitive p⟩
      | struct n =>
        obtain ⟨i, hi⟩ := List.mem_iff_getElem?.1 (h f hf n hb)
        exact ⟨_, .struct hi⟩
    exact ⟨⟨f.name, f.position, ⟨b, f.type.arity⟩, f.typePosition, f.bracket⟩, rfl, rfl, hb, rfl, rfl, rfl⟩
  obtain ⟨gs, hgs⟩ := hgs
  exact ⟨⟨d.name, d.position, gs⟩, rfl, rfl, hgs⟩

theorem rootPlace_eq_ok {names : List String} (hn : names.Nodup) {root : Option String} {i : Nat} :
    rootPlace names root = .ok i ↔
      (root = none ∧ i = names.length - 1) ∨ ∃ n, root = some n ∧ names[i]? = some n := by
  cases root with
  | none =>
    simp only [rootPlace, Except.ok.injEq, true_and, reduceCtorEq, false_and, exists_false, or_false]
    exact eq_comm
  | some n =>
    simp only [rootPlace, reduceCtorEq, false_and, Option.some.injEq, exists_eq_left', false_or]
    rw [← idxOf?_eq_some hn]
    cases names.idxOf? n with
    | none => simp
    | some j => simp

/-! ## References -/

/-- The references between declared structs. -/
def referencesIn (ds : List (Declaration Nat)) (i : Nat) : List (Reference TextPosition) :=
  ((ds[i]?).map declaredReferences).getD []

theorem mem_referencesIn {ds : List (Declaration Nat)} {i : Nat} {r : Reference TextPosition} :
    r ∈ referencesIn ds i ↔
      ∃ d, ds[i]? = some d ∧ ∃ f ∈ d.fields, f.type.base = .struct r.target ∧ f.typePosition = r.mark := by
  unfold referencesIn
  cases ds[i]? with
  | none => simp
  | some d =>
    simp only [Option.map_some, Option.getD_some, declaredReferences, List.mem_filterMap,
      Option.some.injEq, exists_eq_left']
    constructor
    · rintro ⟨f, hf, h⟩
      cases hb : f.type.base with
      | primitive p => rw [hb] at h; cases h
      | struct j => rw [hb] at h; cases h; exact ⟨f, hf, hb, rfl⟩
    · rintro ⟨f, hf, hb, hm⟩
      exact ⟨f, hf, by rw [hb, hm]⟩

theorem declaredOrder_eq_ok {ds : List (Declaration Nat)} {order : List Nat} :
    declaredOrder ds = .ok order ↔ References.order ds.length (referencesIn ds) = .ok order := by
  have hrefs : (fun i => ((ds[i]?).map declaredReferences).getD []) = referencesIn ds := rfl
  unfold declaredOrder
  simp only [hrefs]
  cases References.order ds.length (referencesIn ds) <;> simp

/-! ## Widths -/

/-- The widths that are known. -/
def known (widths : Nat → Option WidthResult) (i : Nat) : Option Nat :=
  match widths i with
  | some (.ok w) => w
  | _ => none

/-- The widths of types that are no arrays, over widths of structs. -/
def elementWidth (width : Nat → Option Nat) : BaseType Nat → Option Nat
  | .primitive p => some p.width
  | .struct i => width i

/-- The width of a field is known exactly when its element fits, and then follows from it. -/
theorem fieldWidth_eq_ok {widths : Nat → Option WidthResult} {element : BaseType Nat → Option Nat}
    {f : FieldDeclaration Nat} (hb : declaredBaseWidth widths f.type.base = .ok (element f.type.base))
    {w : Option Nat} :
    fieldWidth widths f = .ok w ↔ ElementFits element f.type ∧ f.type.width element = w := by
  unfold fieldWidth ElementFits FieldType.width
  rw [hb]
  by_cases ha : f.type.arity = .single
  · simp [ha, bind, Except.bind]
  · cases element f.type.base with
    | none => simp [ha, bind, Except.bind, throw, throwThe, MonadExceptOf.throw]
    | some u => cases u <;> simp [ha, bind, Except.bind, throw, throwThe, MonadExceptOf.throw]

/-- The widths of fields add up exactly when the fields fit one after the other. -/
theorem fieldsWidth_eq_ok {widths : Nat → Option WidthResult} (element : BaseType Nat → Option Nat)
    {struct : String} {fs : List (FieldDeclaration Nat)} {before : Nat} {w : Option Nat}
    (hb : ∀ f ∈ fs, declaredBaseWidth widths f.type.base = .ok (element f.type.base)) :
    fieldsWidth widths struct before fs = .ok w ↔
      ∃ total, Fits element (fs.map (·.type)) total ∧ total.map (before + ·) = w := by
  induction fs generalizing before w with
  | nil =>
    rw [fieldsWidth]
    constructor
    · intro h; cases h; exact ⟨_, .nil, rfl⟩
    · rintro ⟨total, h, rfl⟩; cases h; rfl
  | cons f fs ih =>
    rw [List.forall_mem_cons] at hb
    rw [fieldsWidth, except_bind_eq_ok]
    simp only [fieldWidth_eq_ok hb.1]
    constructor
    · rintro ⟨v, ⟨he, hv⟩, h⟩
      cases v with
      | some v =>
        obtain ⟨total, ht, rfl⟩ := (ih hb.2).1 h
        exact ⟨_, .cons he hv ht, by simp [Function.comp_def, Nat.add_assoc]⟩
      | none =>
        -- nothing may follow an unbounded field
        cases fs with
        | nil => cases h; exact ⟨none, .last he hv, rfl⟩
        | cons g fs => cases h
    · rintro ⟨total, h, rfl⟩
      generalize hts : (f :: fs).map (·.type) = ts at h
      cases h with
      | nil => cases hts
      | cons he hv ht =>
        cases hts
        exact ⟨some _, ⟨he, hv⟩, (ih hb.2).2 ⟨_, ht, by simp [Function.comp_def, Nat.add_assoc]⟩⟩
      | last he hv =>
        obtain ⟨rfl, hfs⟩ := List.cons.inj hts
        obtain rfl := List.map_eq_nil_iff.1 hfs
        exact ⟨none, ⟨he, hv⟩, rfl⟩

/-- Where the widths of fields add up, those of their elements are known. -/
theorem baseWidth_of_fieldsWidth {widths : Nat → Option WidthResult} {struct : String}
    {fs : List (FieldDeclaration Nat)} {before : Nat} {w : Option Nat}
    (h : fieldsWidth widths struct before fs = .ok w) :
    ∀ f ∈ fs, ∃ u, declaredBaseWidth widths f.type.base = .ok u := by
  induction fs generalizing before with
  | nil => simp
  | cons f fs ih =>
    rw [fieldsWidth, except_bind_eq_ok] at h
    obtain ⟨v, hf, h⟩ := h
    obtain ⟨u, hu, -⟩ := except_bind_eq_ok.1 hf
    refine List.forall_mem_cons.2 ⟨⟨u, hu⟩, ?_⟩
    cases v with
    | some v => exact ih h
    | none =>
      cases fs with
      | nil => simp
      | cons g fs => cases h

theorem fieldsWidth_congr {f g : Nat → Option WidthResult} (struct : String) {fs : List (FieldDeclaration Nat)}
    (h : ∀ d ∈ fs, ∀ j, d.type.base = .struct j → f j = g j) (before : Nat) :
    fieldsWidth f struct before fs = fieldsWidth g struct before fs := by
  induction fs generalizing before with
  | nil => rfl
  | cons d fs ih =>
    rw [List.forall_mem_cons] at h
    have hd : fieldWidth f d = fieldWidth g d := by
      unfold fieldWidth
      cases hb : d.type.base with
      | primitive p => rfl
      | struct j => simp only [declaredBaseWidth, h.1 j hb]
    rw [fieldsWidth, fieldsWidth, hd]
    congr 1
    funext w
    cases w with
    | some w => exact ih h.2 _
    | none => cases fs <;> rfl

/-- The width of the struct at a place, from the widths of those it refers to. -/
def widthStep (ds : List (Declaration Nat)) (widths : Nat → Option WidthResult) (i : Nat) : WidthResult :=
  match ds[i]? with
  | some d => fieldsWidth widths d.name 0 d.fields
  | none => .ok none

theorem widthStep_local (ds : List (Declaration Nat)) : Local (referencesIn ds) (widthStep ds) := by
  intro i f g h
  unfold widthStep
  cases hd : ds[i]? with
  | none => rfl
  | some d =>
    refine fieldsWidth_congr _ (fun e he j hj => ?_) 0
    exact h ⟨j, e.typePosition⟩ (mem_referencesIn.2 ⟨d, hd, e, he, hj, rfl⟩)

/-! ## Resolved declarations -/

/-- Declarations with different names, the same with places for names, and an order of the places
in which each comes after those it refers to, the last of the order first. -/
structure Resolved (ds : List (Declaration String)) (rs : List (Declaration Nat)) (done : List Nat) : Prop where
  distinct : (ds.map (·.name)).Nodup
  resolves : List.Forall₂ (Resolves (ds.map (·.name))) ds rs
  finished : Finished (referencesIn rs) done
  mem_done : ∀ i, i ∈ done ↔ i < rs.length

theorem target_lt {ds : List (Declaration String)} {rs : List (Declaration Nat)}
    (h : List.Forall₂ (Resolves (ds.map (·.name))) ds rs) {i : Nat} {r : Reference TextPosition}
    (hr : r ∈ referencesIn rs i) : r.target < rs.length := by
  obtain ⟨e, he, g, hg, hb, -⟩ := mem_referencesIn.1 hr
  obtain ⟨d, -, hde⟩ := forall₂_right h e (List.mem_of_getElem? he)
  obtain ⟨f, -, hfg⟩ := forall₂_right hde.fields g hg
  obtain ⟨n, -, hn⟩ := (hb ▸ hfg.base).to_struct
  have := (List.getElem?_eq_some_iff.1 hn).1
  rwa [List.length_map, h.length_eq] at this

/-- Structs mention each other by name as they refer to each other by place. -/
theorem mentions_iff {ds : List (Declaration String)} {rs : List (Declaration Nat)}
    (hn : (ds.map (·.name)).Nodup) (h : List.Forall₂ (Resolves (ds.map (·.name))) ds rs) {a b : String}
    (hb : b ∈ ds.map (·.name)) :
    Signature.Mentions (ds.map (·.signature)) a b ↔ ∃ i j, (ds.map (·.name))[i]? = some a ∧
      (ds.map (·.name))[j]? = some b ∧ Refers (referencesIn rs) i j := by
  constructor
  · rintro ⟨s, hs, rfl, p, hp, hpb⟩
    obtain ⟨d, hd, rfl⟩ := List.mem_map.1 hs
    obtain ⟨f, hf, rfl⟩ := List.mem_map.1 hp
    obtain ⟨i, hi⟩ := List.mem_iff_getElem?.1 hd
    obtain ⟨j, hj⟩ := List.mem_iff_getElem?.1 hb
    obtain ⟨e, he, hde⟩ := forall₂_getElem? h hi
    obtain ⟨g, hg, hfg⟩ := forall₂_left hde.fields f hf
    refine ⟨i, j, by rw [List.getElem?_map, hi]; rfl, hj, ⟨j, g.typePosition⟩, ?_, rfl⟩
    replace hpb : f.type.base = .struct b := hpb
    obtain ⟨k, hgk, hk⟩ := (hpb ▸ hfg.base).of_struct
    rw [← idxOf?_eq_some hn] at hk hj
    obtain rfl := Option.some.inj (hk.symm.trans hj)
    exact mem_referencesIn.2 ⟨e, he, g, hg, hgk, rfl⟩
  · rintro ⟨i, j, hi, hj, r, hr, rfl⟩
    obtain ⟨e, he, g, hg, hgb, -⟩ := mem_referencesIn.1 hr
    rw [List.getElem?_map, Option.map_eq_some_iff] at hi
    obtain ⟨d, hd, rfl⟩ := hi
    obtain ⟨e', he', hde⟩ := forall₂_getElem? h hd
    rw [he] at he'
    cases he'
    obtain ⟨f, hf, hfg⟩ := forall₂_right hde.fields g hg
    refine ⟨d.signature, List.mem_map_of_mem (List.mem_of_getElem? hd), rfl, (f.name, f.type),
      List.mem_map_of_mem hf, ?_⟩
    obtain ⟨n, hfn, hn'⟩ := (hgb ▸ hfg.base).to_struct
    obtain rfl := Option.some.inj (hn'.symm.trans hj)
    exact hfn

/-- The name of the struct at a place. -/
def nameAt (rs : List (Declaration Nat)) (i : Nat) : String := ((rs[i]?).map (·.name)).getD ""

theorem source_lt {rs : List (Declaration Nat)} {i : Nat} {r : Reference TextPosition}
    (hr : r ∈ referencesIn rs i) : i < rs.length := by
  obtain ⟨e, he, -⟩ := mem_referencesIn.1 hr
  exact (List.getElem?_eq_some_iff.1 he).1

theorem names_getElem?_of_resolves {ds : List (Declaration String)} {rs : List (Declaration Nat)}
    (h : List.Forall₂ (Resolves (ds.map (·.name))) ds rs) {i : Nat} (hi : i < rs.length) :
    (ds.map (·.name))[i]? = some (nameAt rs i) := by
  have he := List.getElem?_eq_getElem hi
  obtain ⟨d, hd, hde⟩ := forall₂_getElem? h.flip he
  rw [List.getElem?_map, hd, nameAt, he]
  exact congrArg some hde.name.symm

/-- Structs that refer to each other by place mention each other by name. -/
theorem mentions_of_refers {ds : List (Declaration String)} {rs : List (Declaration Nat)}
    (hn : (ds.map (·.name)).Nodup) (h : List.Forall₂ (Resolves (ds.map (·.name))) ds rs) {i j : Nat}
    (hij : Refers (referencesIn rs) i j) :
    Signature.Mentions (ds.map (·.signature)) (nameAt rs i) (nameAt rs j) := by
  obtain ⟨r, hr, rfl⟩ := hij
  have hsource := names_getElem?_of_resolves h (source_lt hr)
  have htarget := names_getElem?_of_resolves h (target_lt h hr)
  exact (mentions_iff hn h (List.mem_of_getElem? htarget)).2 ⟨i, r.target, hsource, htarget, r, hr, rfl⟩

/-- The widths of elements by name, over widths of structs by place. -/
def writtenWidth (names : List String) (width : Nat → Option Nat) : BaseType String → Option Nat
  | .primitive p => some p.width
  | .struct n => (names.idxOf? n).bind width

theorem writtenWidth_eq {names : List String} (hn : names.Nodup) {width : Nat → Option Nat}
    {b : BaseType String} {c : BaseType Nat} (h : BaseResolves names b c) :
    writtenWidth names width b = elementWidth width c := by
  cases h with
  | primitive p => rfl
  | struct hi => rw [writtenWidth, (idxOf?_eq_some hn).2 hi]; rfl

/-- The fields of a struct fit by name exactly when they fit by place. -/
theorem fits_written_iff {names : List String} (hn : names.Nodup) {width : Nat → Option Nat}
    {d : Declaration String} {e : Declaration Nat} (h : Resolves names d e) {total : Option Nat} :
    Fits (writtenWidth names width) (d.signature.fields.map (·.2)) total ↔
      Fits (elementWidth width) (e.fields.map (·.type)) total := by
  have hfs : List.Forall₂ (fun t u => u.arity = t.arity ∧
      elementWidth width u.base = writtenWidth names width t.base) (d.fields.map (·.type)) (e.fields.map (·.type)) := by
    rw [List.forall₂_map_left_iff, List.forall₂_map_right_iff]
    exact h.fields.imp fun f g hfg => ⟨hfg.arity, (writtenWidth_eq hn hfg.base).symm⟩
  have hmap : d.signature.fields.map (·.2) = d.fields.map (·.type) := by
    simp [Declaration.signature, Function.comp_def]
  rw [hmap]
  exact ⟨fun ht => ht.congr hfs, fun ht => ht.congr (hfs.flip.imp fun t u htu => ⟨htu.1.symm, htu.2.symm⟩)⟩

section Widths

variable {ds : List (Declaration String)} {rs : List (Declaration Nat)} {done : List Nat}

/-- What the compiler knows of widths in the end. -/
def finalWidths (rs : List (Declaration Nat)) (done : List Nat) (i : Nat) : Option WidthResult :=
  (declaredWidths rs done.reverse).lookup i

/-- What holds of a struct whenever it holds of those that it refers to, holds of every struct. -/
theorem Resolved.induction (h : Resolved ds rs done) {P : Nat → Prop}
    (step : ∀ i e, rs[i]? = some e → (∀ r ∈ referencesIn rs i, P r.target) → P i) : ∀ i < rs.length, P i := by
  obtain ⟨rank, hrank⟩ := h.finished.exists_rank
  -- by induction on the rank: references go down in it
  suffices ∀ n i, rank i = n → i < rs.length → P i from fun i => this _ i rfl
  intro n
  induction n using Nat.strong_induction_on with
  | _ n ih =>
    rintro i rfl hi
    refine step i _ (List.getElem?_eq_getElem hi) fun r hr => ?_
    exact ih _ (hrank i ((h.mem_done i).2 hi) r hr) _ rfl (target_lt h.resolves hr)

theorem finalWidths_eq (h : Resolved ds rs done) {i : Nat} {e : Declaration Nat} (he : rs[i]? = some e) :
    finalWidths rs done i = some (fieldsWidth (finalWidths rs done) e.name 0 e.fields) := by
  have hi : i ∈ done := (h.mem_done i).2 (List.getElem?_eq_some_iff.1 he).1
  have hstep := lookup_table (widthStep_local rs) h.finished i hi
  rw [widthStep, he] at hstep
  exact hstep

/-- The width of a struct is known exactly when its fields fit, over the known widths of the structs
that it refers to. -/
theorem finalWidths_eq_ok (h : Resolved ds rs done) {i : Nat} {e : Declaration Nat} (he : rs[i]? = some e)
    (hr : ∀ r ∈ referencesIn rs i,
      finalWidths rs done r.target = some (.ok (known (finalWidths rs done) r.target)))
    {w : Option Nat} :
    finalWidths rs done i = some (.ok w) ↔
      Fits (elementWidth (known (finalWidths rs done))) (e.fields.map (·.type)) w := by
  rw [finalWidths_eq h he, Option.some.injEq, fieldsWidth_eq_ok (elementWidth (known (finalWidths rs done)))]
  · simp
  · intro f hf
    cases hb : f.type.base with
    | primitive p => rfl
    | struct j =>
      have hj := hr ⟨j, f.typePosition⟩ (mem_referencesIn.2 ⟨e, he, f, hf, hb, rfl⟩)
      simp only [declaredBaseWidth, elementWidth, hj, Option.getD_some]

theorem known_eq {widths : Nat → Option WidthResult} {i : Nat} {w : Option Nat}
    (h : widths i = some (.ok w)) : known widths i = w := by
  unfold known; rw [h]

/-- The widths of the elements of a struct are those of the rules, when those of the structs that it
refers to are. -/
theorem describes_written (h : Resolved ds rs done) (width : Nat → Option Nat) {i : Nat}
    {d : Declaration String} (hd : ds[i]? = some d)
    (ih : ∀ r ∈ referencesIn rs i, ∀ n, (ds.map (·.name))[r.target]? = some n →
      Signature.Describes (ds.map (·.signature)) ⟨.struct n, .single⟩ (width r.target)) :
    ∀ f ∈ d.signature.fields, Signature.Describes (ds.map (·.signature)) ⟨f.2.base, .single⟩
      (writtenWidth (ds.map (·.name)) width f.2.base) := by
  intro p hp
  obtain ⟨f, hf, rfl⟩ := List.mem_map.1 hp
  obtain ⟨e, he, hde⟩ := forall₂_getElem? h.resolves hd
  obtain ⟨g, hg, hfg⟩ := forall₂_left hde.fields f hf
  show Signature.Describes _ ⟨f.type.base, .single⟩ (writtenWidth _ _ f.type.base)
  cases hb : f.type.base with
  | primitive p => exact Signature.describes_primitive p
  | struct n =>
    obtain ⟨k, hgk, hk⟩ := (hb ▸ hfg.base).of_struct
    rw [writtenWidth_eq h.distinct (.struct hk)]
    exact ih ⟨k, g.typePosition⟩ (mem_referencesIn.2 ⟨e, he, g, hg, hgk, rfl⟩) n hk

/-- A width that is known is the one of the rules. -/
theorem describes_of_finalWidths (h : Resolved ds rs done) {i : Nat} {d : Declaration String} {w : Option Nat}
    (hd : ds[i]? = some d) (hw : finalWidths rs done i = some (.ok w)) :
    Signature.Describes (ds.map (·.signature)) ⟨.struct d.name, .single⟩ w := by
  have hi : i < rs.length := h.resolves.length_eq ▸ (List.getElem?_eq_some_iff.1 hd).1
  suffices hall : ∀ i < rs.length, ∀ d w, ds[i]? = some d → finalWidths rs done i = some (.ok w) →
      Signature.Describes (ds.map (·.signature)) ⟨.struct d.name, .single⟩ w from hall i hi d w hd hw
  refine h.induction fun i e he ih d w hd hw => ?_
  have hknown : ∀ r ∈ referencesIn rs i,
      finalWidths rs done r.target = some (.ok (known (finalWidths rs done) r.target)) := fun r hr => by
    obtain ⟨e', he', f, hf, hb, -⟩ := mem_referencesIn.1 hr
    obtain rfl := Option.some.inj (he.symm.trans he')
    rw [finalWidths_eq h he, Option.some.injEq] at hw
    obtain ⟨u, hu⟩ := baseWidth_of_fieldsWidth hw f hf
    have htarget := finalWidths_eq h (List.getElem?_eq_getElem (target_lt h.resolves hr))
    rw [hb, declaredBaseWidth, htarget, Option.getD_some] at hu
    rw [hu] at htarget
    rw [known_eq htarget, htarget]
  obtain ⟨e', he', hde⟩ := forall₂_getElem? h.resolves hd
  obtain rfl := Option.some.inj (he.symm.trans he')
  have hdesc := describes_written h (known (finalWidths rs done)) hd fun r hr n hn => by
    rw [List.getElem?_map, Option.map_eq_some_iff] at hn
    obtain ⟨d', hd', rfl⟩ := hn
    exact ih r hr d' _ hd' (hknown r hr)
  -- what the compiler found is what the fields take together, as the rules have it
  have hfits := (fits_written_iff h.distinct hde).2 ((finalWidths_eq_ok h he hknown).1 hw)
  have hmem : d.signature ∈ ds.map (·.signature) := List.mem_map_of_mem (List.mem_of_getElem? hd)
  have hdistinct : ((ds.map (·.signature)).map (·.name)).Nodup := by
    rw [List.map_map]; exact h.distinct
  exact Signature.describes_struct hdistinct hmem hdesc hfits

/-- If each struct has a known width as soon as those it refers to have the widths of the rules, then
every struct has the width of the rules. -/
theorem known_described (h : Resolved ds rs done)
    (hstep : ∀ i d e, ds[i]? = some d → rs[i]? = some e →
      (∀ r ∈ referencesIn rs i,
        finalWidths rs done r.target = some (.ok (known (finalWidths rs done) r.target))) →
      (∀ f ∈ d.signature.fields, Signature.Describes (ds.map (·.signature)) ⟨f.2.base, .single⟩
        (writtenWidth (ds.map (·.name)) (known (finalWidths rs done)) f.2.base)) →
      ∃ w, finalWidths rs done i = some (.ok w)) :
    ∀ i d, ds[i]? = some d → finalWidths rs done i = some (.ok (known (finalWidths rs done) i)) ∧
      Signature.Describes (ds.map (·.signature)) ⟨.struct d.name, .single⟩ (known (finalWidths rs done) i) := by
  have hknown : ∀ i < rs.length, finalWidths rs done i = some (.ok (known (finalWidths rs done) i)) := by
    refine h.induction fun i e he ih => ?_
    obtain ⟨d, hd, -⟩ := forall₂_getElem? h.resolves.flip he
    have hdesc := describes_written h (known (finalWidths rs done)) hd fun r hr n hn => by
      rw [List.getElem?_map, Option.map_eq_some_iff] at hn
      obtain ⟨d', hd', rfl⟩ := hn
      exact describes_of_finalWidths h hd' (ih r hr)
    obtain ⟨w, hw⟩ := hstep i d e hd he ih hdesc
    rw [known_eq hw, hw]
  intro i d hd
  have hi := hknown i (h.resolves.length_eq ▸ (List.getElem?_eq_some_iff.1 hd).1)
  exact ⟨hi, describes_of_finalWidths h hd hi⟩

end Widths

end BinRecord.Schema
