/-
The tree of a schema: below the root stands for every field, in the order of the declarations, its line and then the
expansion of the struct that it refers to, itself or as the element of an array (`Expands`). The nodes and their number
are found apart, each through a table of the structs. Every entry of these satisfies the equation of the recursion that
the table stands for, and induction along the references shows that both count the same.
-/
import BinRecord.Proofs.Schema.RoundTrip
import BinRecord.Schema.Outline

namespace BinRecord

/-! ## Trees -/

namespace Outline

mutual

/-- The labels of a tree, that of a node before those of the nodes below it. -/
def labels : Outline → List String
  | node label children => label :: labelsBelow children

/-- The labels of some trees, one after the other. -/
def labelsBelow : List Outline → List String
  | [] => []
  | o :: os => o.labels ++ labelsBelow os

end

mutual

theorem length_labels : ∀ o : Outline, o.labels.length = o.size
  | node label children => by
    rw [labels, size, List.length_cons, length_labelsBelow, Nat.add_comm]

theorem length_labelsBelow : ∀ os : List Outline, (labelsBelow os).length = sizes os
  | [] => rfl
  | o :: os => by
    rw [labelsBelow, sizes, List.length_append, length_labels, length_labelsBelow]

end

/-- What may stand in front of a label. -/
def IsGuide (x : String) : Prop := ∀ c ∈ x.toList, c ∈ [' ', '│', '├', '└', '─']

theorem IsGuide.append {x y : String} (hx : IsGuide x) (hy : IsGuide y) : IsGuide (x ++ y) := by
  intro c hc
  rw [String.toList_append, List.mem_append] at hc
  exact hc.elim (hx c) (hy c)

theorem isGuide_pieces : ∀ x ∈ ["", "    ", "│   ", "├── ", "└── "], IsGuide x := by
  simp [IsGuide]

/-- A line shows a label behind a guide. -/
def Shows (line label : String) : Prop := ∃ guide, IsGuide guide ∧ line = guide ++ label

theorem forall₂_childLines (lead : String) (os : List Outline) (hlead : IsGuide lead) :
    List.Forall₂ Shows (childLines lead os) (labelsBelow os) := by
  have hpiece := isGuide_pieces
  simp only [List.forall_mem_cons] at hpiece
  obtain ⟨-, hgap, hpass, hfork, hlast, -⟩ := hpiece
  fun_induction childLines lead os with
  | case1 lead => exact .nil
  | case2 lead label children ih =>
    rw [labelsBelow, labels, labelsBelow, List.append_nil]
    exact .cons ⟨lead ++ "└── ", hlead.append hlast, rfl⟩ (ih (hlead.append hgap))
  | case3 lead label children o os ih ih' =>
    rw [labelsBelow, labels, List.cons_append]
    exact .cons ⟨lead ++ "├── ", hlead.append hfork, rfl⟩ (List.rel_append (ih (hlead.append hpass)) (ih' hlead))

/-- The lines of a tree show its labels in order. -/
theorem forall₂_lines (o : Outline) : List.Forall₂ Shows o.lines o.labels := by
  cases o with
  | node label children =>
    have hempty : IsGuide "" := isGuide_pieces "" (by simp)
    exact .cons ⟨"", hempty, by simp⟩ (forall₂_childLines "" children hempty)

theorem length_lines (o : Outline) : o.lines.length = o.size := by
  rw [o.forall₂_lines.length_eq, length_labels]

end Outline

/-! ## Line ends -/

theorem newline_notMem_of_isName {x : String} (h : isName x = true) : '\n' ∉ x.toList := by
  intro hmem
  have hpart : Token.isNamePart '\n' = true := by
    unfold isName at h
    split at h
    · cases h
    · rename_i c cs hcs
      rw [Bool.and_eq_true, List.all_eq_true] at h
      rw [hcs, List.mem_cons] at hmem
      rcases hmem with hc | hc
      · exact Token.isNamePart_of_isNameStart (hc ▸ h.1)
      · exact h.2 _ hc
  exact absurd hpart (by decide)

theorem newline_notMem_toDigits (n : Nat) : '\n' ∉ Nat.toDigits 10 n := by
  intro hmem
  exact absurd (Nat.isDigit_of_mem_toDigits (by decide) (by decide) hmem) (by decide)

theorem Primitive.newline_notMem_keyword {p : Primitive}
    (henc : ∀ w e, p = .text w e → isName e.name = true) : '\n' ∉ p.keyword.toList := by
  have hnumber (letter : Char) (hletter : letter ≠ '\n') (bytes : Nat) (order : ByteOrder) :
      '\n' ∉ (numericKeyword letter bytes order).toList := by
    have hsingle : (toString letter).toList = [letter] := String.toList_singleton letter
    unfold numericKeyword
    cases order <;> simp [hsingle, newline_notMem_toDigits, hletter.symm]
  cases p with
  | unsigned w order => exact hnumber 'U' (by decide) _ _
  | signed w order => exact hnumber 'I' (by decide) _ _
  | float f order => exact hnumber 'F' (by decide) _ _
  | text w e =>
    have he := newline_notMem_of_isName (henc w e rfl)
    rw [keyword]
    split_ifs <;> simp [newline_notMem_toDigits, he]
  | bytes w => simp [keyword, newline_notMem_toDigits]
  | padding w => simp [keyword, newline_notMem_toDigits]

theorem Arity.newline_notMem_suffix (a : Arity) : '\n' ∉ a.suffix.toList := by
  cases a with
  | single => simp [suffix]
  | times n => simp [suffix, newline_notMem_toDigits]
  | toEnd => simp [suffix]

theorem Outline.newline_notMem_of_shows {lines labels : List String} (h : List.Forall₂ Outline.Shows lines labels)
    (hlabels : ∀ label ∈ labels, '\n' ∉ label.toList) : ∀ line ∈ lines, '\n' ∉ line.toList := by
  induction h with
  | nil => simp
  | cons hshows _ ih =>
    obtain ⟨hlabel, hrest⟩ := List.forall_mem_cons.1 hlabels
    obtain ⟨guide, hguide, rfl⟩ := hshows
    refine List.forall_mem_cons.2 ⟨?_, ih hrest⟩
    rw [String.toList_append, List.mem_append, not_or]
    exact ⟨fun hmem => absurd (hguide _ hmem) (by decide), hlabel⟩

/-- Lines without line ends, each with one after it, have as many line ends as there are lines. -/
theorem count_newline_join (lines : List String) (h : ∀ l ∈ lines, '\n' ∉ l.toList) :
    (String.join (lines.map (· ++ "\n"))).toList.count '\n' = lines.length := by
  induction lines with
  | nil => rfl
  | cons l lines ih =>
    obtain ⟨hl, hrest⟩ := List.forall_mem_cons.1 h
    rw [List.map_cons, String.join_cons, String.toList_append, List.count_append, ih hrest, List.length_cons,
      String.toList_append, List.count_append, List.count_eq_zero_of_not_mem hl, Nat.add_comm]
    rfl

namespace Schema

variable {s : Schema}

/-! ## The equations of the recursions -/

/-- The nodes below a struct. -/
def outlineAt (s : Schema) (i : Nat) : List Outline := ((s.tabulate s.outlineBelow).lookup i).getD []

/-- The number of lines of a struct. -/
def fieldCountAt (s : Schema) (i : Nat) : Nat := ((s.tabulate fieldCountOf).lookup i).getD 1

/-- How the line of a field reads. -/
def fieldLabel (s : Schema) (f : Field) : String := s!"{f.name}: {s.typeText f.type}"

/-- The node of a field. -/
def fieldNode (s : Schema) (f : Field) : Outline :=
  match f.type.base with
  | .primitive _ => .node (s.fieldLabel f) []
  | .struct j => .node (s.fieldLabel f) (s.outlineAt j)

/-- The number of lines of a field. -/
def fieldLines (s : Schema) (f : Field) : Nat :=
  match f.type.base with
  | .primitive _ => 1
  | .struct j => s.fieldCountAt j

theorem local_of_fields {α : Type} {step : (Nat → Option α) → Struct → α}
    (h : ∀ (d : Struct) f g, (∀ x ∈ d.fields, ∀ j, x.type.base = .struct j → f j = g j) → step f d = step g d) :
    References.Local s.references fun entries i => step entries (s.struct i) := by
  intro i f g hfg
  exact h _ f g fun x hx j hj => hfg ⟨j, ()⟩ (mem_references.2 ⟨x, hx, hj⟩)

theorem outlineBelow_local (s : Schema) :
    References.Local s.references fun below i => s.outlineBelow below (s.struct i) := by
  refine local_of_fields fun d f g h => List.map_congr_left fun x hx => ?_
  cases hb : x.type.base with
  | primitive p => rfl
  | struct j =>
    dsimp only
    rw [h x hx j hb]

theorem foldl_add {α : Type} (g : α → Nat) (xs : List α) (n : Nat) :
    xs.foldl (fun n x => n + g x) n = n + (xs.map g).sum := by
  calc xs.foldl (fun n x => n + g x) n = (xs.map g).foldl (· + ·) (n + 0) := List.foldl_map.symm
    _ = n + (xs.map g).foldl (· + ·) 0 := List.foldl_assoc
    _ = n + (xs.map g).sum := by rw [List.sum_eq_foldl]

theorem fieldCountOf_eq (counts : Nat → Option Nat) (d : Struct) :
    fieldCountOf counts d = 1 + (d.fields.map fun f => match f.type.base with
      | .primitive _ => 1
      | .struct j => (counts j).getD 1).sum := foldl_add ..

theorem fieldCountOf_local (s : Schema) :
    References.Local s.references fun counts i => fieldCountOf counts (s.struct i) := by
  refine local_of_fields fun d f g h => ?_
  rw [fieldCountOf_eq, fieldCountOf_eq]
  refine congrArg (1 + ·.sum) (List.map_congr_left fun x hx => ?_)
  cases hb : x.type.base with
  | primitive p => rfl
  | struct j =>
    dsimp only
    rw [h x hx j hb]

theorem WellFormed.outlineAt_eq (h : s.WellFormed) (i : Nat) :
    s.outlineAt i = (s.struct i).fields.map s.fieldNode := by
  unfold outlineAt
  rw [h.lookup_tabulate s.outlineBelow_local fun _ => rfl]
  refine List.map_congr_left fun f _ => ?_
  unfold fieldNode
  cases hb : f.type.base with
  | primitive p => rfl
  | struct j => rfl

theorem WellFormed.fieldCountAt_eq (h : s.WellFormed) (i : Nat) :
    s.fieldCountAt i = 1 + ((s.struct i).fields.map s.fieldLines).sum := by
  unfold fieldCountAt
  rw [h.lookup_tabulate s.fieldCountOf_local fun _ => rfl, fieldCountOf_eq]
  refine congrArg (1 + ·.sum) (List.map_congr_left fun f _ => ?_)
  unfold fieldLines
  cases hb : f.type.base with
  | primitive p => rfl
  | struct j => rfl

/-! ## Both count the same -/

theorem sizes_map (node : Field → Outline) (fs : List Field) :
    Outline.sizes (fs.map node) = (fs.map fun f => (node f).size).sum := by
  induction fs with
  | nil => rfl
  | cons f fs ih => rw [List.map_cons, Outline.sizes, ih, List.map_cons, List.sum_cons]

theorem WellFormed.sizes_outlineAt (h : s.WellFormed) (i : Nat) :
    1 + Outline.sizes (s.outlineAt i) = s.fieldCountAt i := by
  refine h.induction (P := fun i => 1 + Outline.sizes (s.outlineAt i) = s.fieldCountAt i) (fun i ih => ?_) i
  rw [h.outlineAt_eq, h.fieldCountAt_eq, sizes_map]
  refine congrArg (1 + ·.sum) (List.map_congr_left fun f hf => ?_)
  unfold fieldNode fieldLines
  cases hb : f.type.base with
  | primitive p => rfl
  | struct j => exact ih f hf j hb

theorem WellFormed.fieldCount_eq_size (h : s.WellFormed) : s.fieldCount = s.outline.size :=
  (h.sizes_outlineAt s.root).symm

/-! ## The expansion of a struct -/

/-- The lines of fields: for each field its name and type, and then the expansion of the struct that it refers to, itself
or as the element of an array. -/
inductive Expands (s : Schema) : List Field → List String → Prop
  | nil : Expands s [] []
  | primitive {f : Field} {p : Primitive} {fs : List Field} {rest : List String} : f.type.base = .primitive p →
      Expands s fs rest → Expands s (f :: fs) (s.fieldLabel f :: rest)
  | struct {f : Field} {j : Nat} {fs : List Field} {inner rest : List String} : f.type.base = .struct j →
      Expands s (s.struct j).fields inner → Expands s fs rest →
      Expands s (f :: fs) (s.fieldLabel f :: inner ++ rest)

/-- Fields have one expansion. -/
theorem Expands.unique {fs : List Field} {ls ls' : List String} (h : s.Expands fs ls) (h' : s.Expands fs ls') :
    ls = ls' := by
  induction h generalizing ls' with
  | nil =>
    cases h'
    rfl
  | primitive hb _ ih =>
    cases h' with
    | primitive _ hrest => rw [ih hrest]
    | struct hb' => cases hb.symm.trans hb'
  | struct hb _ _ ihinner ih =>
    cases h' with
    | primitive hb' => cases hb.symm.trans hb'
    | struct hb' hinner hrest =>
      cases hb.symm.trans hb'
      rw [ihinner hinner, ih hrest]

theorem expands_labels {fs : List Field}
    (hfs : ∀ f ∈ fs, ∀ j, f.type.base = .struct j →
      s.Expands (s.struct j).fields (Outline.labelsBelow (s.outlineAt j))) :
    s.Expands fs (Outline.labelsBelow (fs.map s.fieldNode)) := by
  induction fs with
  | nil => exact .nil
  | cons f fs ih =>
    obtain ⟨hf, hrest⟩ := List.forall_mem_cons.1 hfs
    rw [List.map_cons, Outline.labelsBelow, fieldNode]
    cases hb : f.type.base with
    | primitive p =>
      dsimp only
      rw [Outline.labels, Outline.labelsBelow]
      exact .primitive hb (ih hrest)
    | struct j =>
      dsimp only
      rw [Outline.labels]
      exact .struct hb (hf j hb) (ih hrest)

theorem WellFormed.expands_outlineAt (h : s.WellFormed) (i : Nat) :
    s.Expands (s.struct i).fields (Outline.labelsBelow (s.outlineAt i)) := by
  refine h.induction (P := fun i => s.Expands (s.struct i).fields (Outline.labelsBelow (s.outlineAt i)))
    (fun i ih => ?_) i
  rw [h.outlineAt_eq]
  exact expands_labels ih

/-! ## The lines of a schema -/

/-- No field needs more than a line. -/
theorem newline_notMem_label [Codecs] (h : s.WellFormed) (hn : s.Named) {i : Nat} {f : Field}
    (hf : f ∈ (s.struct i).fields) :
    '\n' ∉ (s.fieldLabel f).toList := by
  have hi : i < s.structs.length := by
    by_contra hge
    rw [struct_of_ge (not_lt.1 hge)] at hf
    cases hf
  have hd : s.struct i ∈ s.structs := mem_structs_iff.2 ⟨i, hi, rfl⟩
  have hname := newline_notMem_of_isName (hn.field _ hd f hf)
  have hbase : '\n' ∉ (s.baseText f.type.base).toList := by
    cases hb : f.type.base with
    | primitive p =>
      refine Primitive.newline_notMem_keyword fun w e he => ?_
      rcases hn.encoding _ hd f hf w e (he ▸ hb) with rfl | hcanonical
      · decide +kernel
      · exact hcanonical.isName
    | struct j => exact newline_notMem_of_isName (h.named_target hn hd hf hb).1
  simp [fieldLabel, typeText, hname, hbase, f.type.arity.newline_notMem_suffix]

theorem Expands.newline_notMem [Codecs] (h : s.WellFormed) (hn : s.Named) {fs : List Field} {ls : List String}
    (he : s.Expands fs ls) (hfs : ∃ i, fs ⊆ (s.struct i).fields) : ∀ l ∈ ls, '\n' ∉ l.toList := by
  induction he with
  | nil => simp
  | primitive _ _ ih =>
    obtain ⟨i, hfs⟩ := hfs
    obtain ⟨hf, hrest⟩ := List.cons_subset.1 hfs
    exact List.forall_mem_cons.2 ⟨newline_notMem_label h hn hf, ih ⟨i, hrest⟩⟩
  | struct _ _ _ ihinner ih =>
    obtain ⟨i, hfs⟩ := hfs
    obtain ⟨hf, hrest⟩ := List.cons_subset.1 hfs
    rw [List.cons_append, List.forall_mem_cons, List.forall_mem_append]
    exact ⟨newline_notMem_label h hn hf, ihinner ⟨_, List.Subset.refl _⟩, ih ⟨i, hrest⟩⟩

/-- The size that is computed for the tree of a compiled schema is the number of its nodes, and of its lines when they
are printed one after the other. The nodes, each before those below it, are the root and then the expansion of its
fields, and the lines show them in this order. -/
theorem outline_of_compile [Codecs] [Codecs.Canonical] {text : String} {root : Option String}
    (h : compile text root = .ok s) :
    s.outline.size = s.fieldCount ∧ s.outline.lines.length = s.fieldCount ∧
      (String.join (s.outline.lines.map (· ++ "\n"))).toList.count '\n' = s.fieldCount ∧
        List.Forall₂ Outline.Shows s.outline.lines s.outline.labels ∧
          ∀ below, s.outline.labels = s.rootStruct.name :: below ↔ s.Expands s.rootStruct.fields below := by
  have hs := wellFormed_of_compile h
  have hn := named_of_compile h
  have hsize := hs.fieldCount_eq_size.symm
  have hexpands : s.Expands s.rootStruct.fields (Outline.labelsBelow (s.outlineAt s.root)) :=
    hs.expands_outlineAt s.root
  have hlabels : s.outline.labels = s.rootStruct.name :: Outline.labelsBelow (s.outlineAt s.root) := by
    rw [outline, Outline.labels]
    rfl
  have hlines := s.outline.forall₂_lines
  refine ⟨hsize, s.outline.length_lines.trans hsize, ?_, hlines, fun below => ?_⟩
  · rw [count_newline_join, s.outline.length_lines, hsize]
    have hroot : '\n' ∉ s.rootStruct.name.toList :=
      newline_notMem_of_isName (hn.struct _ (mem_structs_iff.2 ⟨s.root, hs.root, rfl⟩)).1
    have hall : ∀ l ∈ s.outline.labels, '\n' ∉ l.toList := by
      rw [hlabels, List.forall_mem_cons]
      exact ⟨hroot, hexpands.newline_notMem hs hn ⟨s.root, List.Subset.refl _⟩⟩
    exact Outline.newline_notMem_of_shows hlines hall
  · rw [hlabels, List.cons.injEq, and_iff_right rfl]
    constructor
    · rintro rfl
      exact hexpands
    · exact hexpands.unique

/-- A struct that is used three times, by itself and in arrays. -/
theorem outline_of_compile_shared :
    ∃ s, compile "struct P { x: U8, y: PAD<3> } struct Q { d: P[+] } struct R { a: P, b: P[2], c: Q }" none = .ok s ∧
      s.outline.labels = ["R", "a: P", "x: U8", "y: PAD<3>", "b: P[2]", "x: U8", "y: PAD<3>", "c: Q", "d: P[+]",
        "x: U8", "y: PAD<3>"] ∧ s.outline.size = s.fieldCount ∧ s.fieldCount = 11 := by
  have hsome : ((compile "struct P { x: U8, y: PAD<3> } struct Q { d: P[+] } struct R { a: P, b: P[2], c: Q }"
      none).toOption.map fun s => (s.outline.labels, s.fieldCount)) = some (["R", "a: P", "x: U8", "y: PAD<3>",
        "b: P[2]", "x: U8", "y: PAD<3>", "c: Q", "d: P[+]", "x: U8", "y: PAD<3>"], 11) := by
    decide +kernel
  obtain ⟨s, hs, hfound⟩ := Option.map_eq_some_iff.1 hsome
  rw [except_toOption_eq_some] at hs
  obtain ⟨hlabels, hcount⟩ := Prod.mk.inj hfound
  exact ⟨s, hs, hlabels, (outline_of_compile hs).1, hcount⟩

end Schema

end BinRecord
