/-
Reading the arguments of a command. What no option changes stays as it is (`read_keeps`), and the
arguments of a dump that are written out one after the other are read to what they say (`ofArguments_dump`).
-/
import BinRecord.Command.Invocation
import BinRecord.Proofs.Traversal
import Mathlib.Data.List.Basic

namespace BinRecord

namespace CommandOption

variable {σ : Type} {rules : OptionRules} {options : List (CommandOption σ)}

/-! ## What no option changes -/

/-- An action changes nothing about a property of the settings. -/
def Keeps (P : σ → Prop) : OptionAction σ → Prop
  | .help => True
  | .switch set => ∀ s, P s → P (set s)
  | .value set => ∀ text s s', P s → set text s = .ok s' → P s'

/-- A request has a property of the settings, and setting its value keeps it. -/
structure Request.Kept (P : σ → Prop) (r : Request σ) : Prop where
  settings : P r.settings
  valued : ∀ v, r.valued = some v → Keeps P (.value v.set)

variable {P : σ → Prop} {o : CommandOption σ} {r r' : Request σ} {settings : σ}

theorem mem_of_mem_namesOf {name : String} (h : (name, o) ∈ namesOf options) : o ∈ options := by
  unfold namesOf at h
  obtain ⟨o', ho', h⟩ := List.mem_flatMap.1 h
  obtain ⟨_, -, h⟩ := List.mem_map.1 h
  cases h
  exact ho'

theorem mem_of_lookup {name : String} (h : (namesOf options).lookup name = some o) : o ∈ options := by
  obtain ⟨before, after, he, -⟩ := List.lookup_eq_some_iff.1 h
  have hmem : (name, o) ∈ namesOf options := he ▸ List.mem_append_right before List.mem_cons_self
  exact mem_of_mem_namesOf hmem

theorem mem_of_candidates {text name : String} {attached : Option Attached}
    (h : (o, name, attached) ∈ candidates options text) : o ∈ options := by
  unfold candidates at h
  split at h
  · obtain ⟨n, hn, h⟩ := List.mem_map.1 h
    cases h
    exact mem_of_mem_namesOf (List.mem_filter.1 hn).1
  · obtain ⟨n, hn, h⟩ := List.mem_filterMap.1 h
    split at h
    · cases h
      exact mem_of_mem_namesOf hn
    · split at h
      · cases h
        exact mem_of_mem_namesOf hn
      · cases h

theorem mem_of_classify {text name : String} {attached : Option Attached}
    (h : classify options text = .ok (.option (some o) name attached)) : o ∈ options := by
  unfold classify at h
  dsimp only at h
  split at h
  · cases h
  · split at h
    · rename_i hl
      cases h
      exact mem_of_lookup hl
    · split at h
      · cases h
      · split at h
        · rename_i hl
          cases h
          exact mem_of_lookup hl
        · split at h
          · rename_i hc
            cases h
            exact mem_of_candidates (hc ▸ List.mem_singleton_self _)
          · split at h <;> cases h
          · cases h

theorem mem_of_classifyAll {texts : List String} {kinds : List (String × Argument σ)}
    (h : classifyAll options texts = .ok kinds) : ∀ {text name : String} {o : CommandOption σ}
      {attached : Option Attached}, (text, .option (some o) name attached) ∈ kinds → o ∈ options := by
  induction texts generalizing kinds with
  | nil =>
    cases h
    simp
  | cons first texts ih =>
    intro text name o attached hmem
    unfold classifyAll at h
    split at h
    · cases h
      simp at hmem
    · obtain ⟨kind, hkind, h⟩ := except_bind_eq_ok.1 h
      obtain ⟨kinds, hkinds, h⟩ := except_bind_eq_ok.1 h
      cases h
      rcases List.mem_cons.1 hmem with he | hmem
      · cases he
        exact mem_of_classify hkind
      · exact ih hkinds hmem

theorem note_kept (h : r.Kept P) {a : OptionAction σ} (ha : Keeps P a) : (r.note a).Kept P := by
  cases a with
  | help => exact ⟨h.settings, h.valued⟩
  | switch set => exact ⟨ha _ h.settings, h.valued⟩
  | value set => exact h

theorem finish_kept (h : r.Kept P) (hf : r.finish = .ok settings) : P settings := by
  unfold Request.finish at hf
  split at hf
  · cases hf
  · cases hf
    exact h.settings

theorem give_kept (h : r.Kept P) {v : Valued σ} (hv : r.valued = some v) {value : String}
    (hg : r.give rules v value = .ok settings) : P settings := by
  obtain ⟨s, hs, hg⟩ := except_bind_eq_ok.1 hg
  split at hg
  · rename_i s' hset
    cases hg
    exact h.valued v hv _ _ _ (finish_kept h hs) hset
  · cases hg

theorem requestAfter_kept (hoptions : ∀ o ∈ options, Keeps P o.action) {attached : Option Attached} (ho : o ∈ options)
    (hr : r.Kept P) (h : requestAfter rules options r o attached = .ok r') : r'.Kept P := by
  have hnote : ∀ {r : Request σ} {o : CommandOption σ}, o ∈ options → r.Kept P → (r.note o.action).Kept P :=
    fun ho hr => note_kept hr (hoptions _ ho)
  fun_induction requestAfter rules options r o attached with
  | case1 r o attached set hset =>
    have ha := hoptions o ho
    rw [hset] at ha
    cases h
    exact ⟨hr.settings, fun v hv => by cases hv; exact ha⟩
  | case2 r o _ =>
    cases h
    exact hnote ho hr
  | case3 => cases h
  | case4 => cases h
  | case5 r o byEquals c cs _ next hl _ ih => exact ih (mem_of_lookup hl) (hnote ho hr) h
  | case6 r o =>
    cases h
    exact ⟨(hnote ho hr).settings, (hnote ho hr).valued⟩
  | case7 => cases h

theorem request_kept (hoptions : ∀ o ∈ options, Keeps P o.action) (ho : o ∈ options) (hs : P settings)
    {name : String} {attached : Option Attached} (h : request rules options o name attached settings = .ok r) :
    r.Kept P := by
  unfold request at h
  split at h
  · cases h
  · exact requestAfter_kept hoptions ho ⟨hs, fun v hv => by cases hv⟩ h

theorem mem_of_mem_passDashes {kinds : List (String × Argument σ)} {k : String × Argument σ} (h : k ∈ passDashes kinds) :
    k ∈ kinds := by
  unfold passDashes at h
  split at h
  · exact List.mem_cons_of_mem _ h
  · exact h

/-- Reading arguments keeps what all options keep. -/
theorem readAll_keeps (hoptions : ∀ o ∈ options, Keeps P o.action) : ∀ {kinds : List (String × Argument σ)}
    {wanted : OperandCount} {operands left : List String} {settings : σ} {result : ReadArguments σ},
    (∀ {text name o attached}, (text, .option (some o) name attached) ∈ kinds → o ∈ options) → P settings →
      readAll rules options wanted operands left settings kinds = .ok result → P result.settings
  | [], _, _, _, _, _, _, hs, h => by
    rw [readAll] at h
    cases h
    exact hs
  | (text, .operand) :: rest, wanted, _, _, _, _, hkinds, hs, h => by
    have hrest := fun {text name o attached} hm => @hkinds text name o attached (List.mem_cons_of_mem _ hm)
    cases wanted with
    | none =>
      rw [readAll] at h
      exact readAll_keeps hoptions hrest hs h
    | one =>
      rw [readAll] at h
      have := length_passDashes_le rest
      exact readAll_keeps hoptions (fun hm => hrest (mem_of_mem_passDashes hm)) hs h
    | rest =>
      rw [readAll] at h
      cases h
      exact hs
  | [(text, .dashes)], _, _, _, _, _, _, hs, h => by
    rw [readAll] at h
    cases h
    exact hs
  | (text, .dashes) :: (operand, kind) :: rest, wanted, _, _, _, _, hkinds, hs, h => by
    have hrest := fun {text name o attached} hm => @hkinds text name o attached (List.mem_cons_of_mem _ hm)
    cases wanted with
    | none =>
      rw [readAll] at h
      exact readAll_keeps hoptions hrest hs h
    | one =>
      rw [readAll] at h
      exact readAll_keeps hoptions (fun hm => hrest (List.mem_cons_of_mem _ hm)) hs h
    | rest =>
      rw [readAll] at h
      cases h
      exact hs
  | (text, .option none _ _) :: rest, _, _, _, _, _, hkinds, hs, h => by
    rw [readAll] at h
    exact readAll_keeps hoptions (fun hm => hkinds (List.mem_cons_of_mem _ hm)) hs h
  | (text, .option (some o) name attached) :: rest, _, _, _, _, _, hkinds, hs, h => by
    rw [readAll] at h
    have hrest := fun {text name o attached} hm => @hkinds text name o attached (List.mem_cons_of_mem _ hm)
    obtain ⟨r, hr, h⟩ := except_bind_eq_ok.1 h
    have hkept := request_kept hoptions (hkinds List.mem_cons_self) hs hr
    cases hv : r.valued with
    | none =>
      simp only [hv] at h
      obtain ⟨s, hs, h⟩ := except_bind_eq_ok.1 h
      exact readAll_keeps hoptions hrest (finish_kept hkept hs) h
    | some v =>
      simp only [hv] at h
      split at h
      · obtain ⟨s, hs, h⟩ := except_bind_eq_ok.1 h
        exact readAll_keeps hoptions hrest (give_kept hkept hv hs) h
      · obtain ⟨s, hs, h⟩ := except_bind_eq_ok.1 h
        exact readAll_keeps hoptions (fun hm => hrest (List.mem_cons_of_mem _ hm)) (give_kept hkept hv hs) h
      · cases h
termination_by kinds => kinds.length

theorem read_keeps (hoptions : ∀ o ∈ options, Keeps P o.action) {wanted : OperandCount} {arguments : List String}
    {result : ReadArguments σ} (hs : P settings) (h : read rules options wanted settings arguments = .ok result) :
    P result.settings := by
  obtain ⟨kinds, hkinds, h⟩ := except_bind_eq_ok.1 h
  exact readAll_keeps hoptions (mem_of_classifyAll hkinds) hs h

/-! ## Arguments that are written out -/

/-- A word that is no option. -/
def IsPlain (text : String) : Prop := text.toList.head? ≠ some '-'

instance (text : String) : Decidable (IsPlain text) := inferInstanceAs (Decidable (_ ≠ _))

variable {text name : String} {texts : List String} {kinds : List (String × Argument σ)} {wanted : OperandCount}
  {operands left : List String} {settings' : σ}

theorem classify_plain (h : IsPlain text) : classify options text = .ok .operand := by
  unfold classify
  exact if_pos h

theorem IsPlain.ne_dashes (h : IsPlain text) : text ≠ "--" := by
  rintro rfl
  exact h rfl

theorem classifyAll_cons {kind : Argument σ} (hne : text ≠ "--") (h : classify options text = .ok kind)
    (texts : List String) :
    classifyAll options (text :: texts) = classifyAll options texts >>= fun kinds => .ok ((text, kind) :: kinds) := by
  rw [classifyAll, if_neg hne, h]
  rfl

theorem exists_classifyAll (h : ∀ text ∈ texts, ∃ kind, classify options text = .ok kind) :
    ∃ kinds, classifyAll options texts = .ok kinds := by
  induction texts with
  | nil => exact ⟨[], rfl⟩
  | cons text texts ih =>
    obtain ⟨⟨kind, hkind⟩, htexts⟩ := List.forall_mem_cons.1 h
    obtain ⟨kinds, hkinds⟩ := ih htexts
    by_cases hne : text = "--"
    · subst hne
      exact ⟨_, by rw [classifyAll, if_pos rfl]⟩
    · exact ⟨(text, kind) :: kinds, by rw [classifyAll_cons hne hkind, hkinds]; rfl⟩

theorem map_fst_classifyAll (h : classifyAll options texts = .ok kinds) : kinds.map (·.1) = texts := by
  induction texts generalizing kinds with
  | nil =>
    cases h
    rfl
  | cons text texts ih =>
    unfold classifyAll at h
    split at h
    · cases h
      simp [Function.comp_def]
    · obtain ⟨kind, hkind, h⟩ := except_bind_eq_ok.1 h
      obtain ⟨kinds, hkinds, h⟩ := except_bind_eq_ok.1 h
      cases h
      rw [List.map_cons, ih hkinds]

theorem classify_ne_dashes : classify options text ≠ .ok .dashes := by
  intro h
  unfold classify at h
  dsimp only at h
  split at h
  · cases h
  · split at h
    · cases h
    · split at h
      · cases h
      · split at h
        · cases h
        · split at h
          · cases h
          · split at h <;> cases h
          · cases h

theorem passDashes_classifyAll (h : classifyAll options texts = .ok kinds) (hne : texts.head? ≠ some "--") :
    passDashes kinds = kinds := by
  cases texts with
  | nil =>
    cases h
    rfl
  | cons text texts =>
    have hne' : text ≠ "--" := fun he => hne (congrArg some he)
    rw [classifyAll, if_neg hne'] at h
    obtain ⟨kind, hkind, h⟩ := except_bind_eq_ok.1 h
    obtain ⟨kinds, hkinds, h⟩ := except_bind_eq_ok.1 h
    cases h
    cases kind with
    | dashes => exact absurd hkind classify_ne_dashes
    | _ => rfl

/-- Reads the arguments that are left. -/
def readFrom (rules : OptionRules) (options : List (CommandOption σ)) (wanted : OperandCount)
    (operands left : List String) (settings : σ) (texts : List String) : Except OptionStop (ReadArguments σ) :=
  classifyAll options texts >>= readAll rules options wanted operands left settings

theorem readFrom_nil :
    readFrom rules options wanted operands left settings [] = .ok ⟨settings, operands, left.reverse⟩ := by
  unfold readFrom classifyAll
  show readAll rules options wanted operands left settings [] = _
  rw [readAll]

theorem readFrom_operand (h : IsPlain text) (hne : texts.head? ≠ some "--") :
    readFrom rules options .one operands left settings (text :: texts) =
      readFrom rules options .none [text] left settings texts := by
  unfold readFrom
  rw [classifyAll_cons h.ne_dashes (classify_plain h)]
  cases hkinds : classifyAll options texts with
  | error e => rfl
  | ok kinds =>
    show readAll rules options .one operands left settings ((text, .operand) :: kinds) = _
    rw [readAll, passDashes_classifyAll hkinds hne]
    rfl

theorem readFrom_rest (h : IsPlain text) (htexts : ∀ text ∈ texts, ∃ kind, classify options text = .ok kind) :
    readFrom rules options .rest operands left settings (text :: texts) =
      .ok ⟨settings, text :: texts, left.reverse⟩ := by
  obtain ⟨kinds, hkinds⟩ := exists_classifyAll htexts
  unfold readFrom
  rw [classifyAll_cons h.ne_dashes (classify_plain h), hkinds]
  show readAll rules options .rest operands left settings ((text, .operand) :: kinds) = _
  rw [readAll, map_fst_classifyAll hkinds]

/-- An option is known by its name. -/
structure Known (options : List (CommandOption σ)) (name : String) (o : CommandOption σ) : Prop where
  dash : name.toList.head? = some '-'
  ne_dashes : name ≠ "--"
  lookup : (namesOf options).lookup name = some o

theorem Known.classify (h : Known options name o) :
    CommandOption.classify options name = .ok (.option (some o) name none) := by
  unfold CommandOption.classify
  dsimp only
  rw [if_neg (by simp [h.dash]), h.lookup]

theorem readFrom_switch (h : Known options name o) {set : σ → σ} (ho : o.action = .switch set) :
    readFrom rules options wanted operands left settings (name :: texts) =
      readFrom rules options wanted operands left (set settings) texts := by
  unfold readFrom
  rw [classifyAll_cons h.ne_dashes h.classify]
  cases hkinds : classifyAll options texts with
  | error e => rfl
  | ok kinds =>
    have hrequest : request rules options o name none settings = .ok { settings := set settings } := by
      simp [request, requestAfter, ho, Request.note]
    show readAll rules options wanted operands left settings ((name, .option (some o) name none) :: kinds) = _
    rw [readAll, hrequest]
    rfl

theorem readFrom_value (h : Known options name o) {set : Option String → σ → Except String σ}
    (ho : o.action = .value set) (hv : IsPlain text) (hset : set (some text) settings = .ok settings') :
    readFrom rules options wanted operands left settings (name :: text :: texts) =
      readFrom rules options wanted operands left settings' texts := by
  unfold readFrom
  rw [classifyAll_cons h.ne_dashes h.classify, classifyAll_cons hv.ne_dashes (classify_plain hv)]
  cases hkinds : classifyAll options texts with
  | error e => rfl
  | ok kinds =>
    have hrequest : request rules options o name none settings = .ok { settings, valued := some ⟨o, set, none⟩ } := by
      simp [request, requestAfter, ho]
    have hgive : Request.give rules { settings, valued := some ⟨o, set, none⟩ } ⟨o, set, none⟩ text = .ok settings' := by
      refine except_bind_eq_ok.2 ⟨settings, rfl, ?_⟩
      dsimp only
      rw [if_neg fun hdropped => hv.ne_dashes hdropped.2, hset]
    show readAll rules options wanted operands left settings
      ((name, .option (some o) name none) :: (text, .operand) :: kinds) = _
    rw [readAll, hrequest]
    show (Request.give rules _ _ text >>= _) = _
    rw [hgive]
    rfl

/-- An option with a value, if there is one, as it is written. -/
def valueWords (name : String) (value : Option String) : List String :=
  match value with
  | none => []
  | some text => [name, text]

/-- An option without a value, if it is wanted, as it is written. -/
def switchWords (name : String) (wanted : Bool) : List String := if wanted then [name] else []

theorem readFrom_valueWords (settings' : σ) (h : Known options name o) {set : Option String → σ → Except String σ}
    (ho : o.action = .value set) {value : Option String} (hv : ∀ text ∈ value, IsPlain text)
    (hset : ∀ text ∈ value, set (some text) settings = .ok settings') (hnone : value = none → settings' = settings) :
    readFrom rules options wanted operands left settings (valueWords name value ++ texts) =
      readFrom rules options wanted operands left settings' texts := by
  cases value with
  | none =>
    rw [hnone rfl]
    rfl
  | some text => exact readFrom_value h ho (hv text rfl) (hset text rfl)

theorem readFrom_switchWords (h : Known options name o) {set : σ → σ} (ho : o.action = .switch set) {on : Bool} :
    readFrom rules options wanted operands left settings (switchWords name on ++ texts) =
      readFrom rules options wanted operands left (if on then set settings else settings) texts := by
  cases on with
  | false => rfl
  | true =>
    rw [if_pos rfl]
    exact readFrom_switch h ho

end CommandOption

namespace Invocation

open CommandOption

variable {rules : OptionRules}

theorem readCount_ne_unset {text : Option String} {n : Setting Nat} (h : readCount text = .ok n) : n ≠ .unset := by
  unfold readCount at h
  split at h
  · cases h
    simp
  · split at h
    · cases h
    · cases h
    · cases h
      simp

/-- No option of a dump limits how much of the file is looked at, and a record is always asked for, if perhaps without
its index. -/
theorem settings_of_ofArguments {arguments : List String} {s : Settings}
    (h : ofArguments rules arguments = .ok ⟨.dump, s⟩) : s.maxBytes = .unset ∧ s.record ≠ .unset := by
  have hkeeps : ∀ o ∈ optionsOf .dump,
      Keeps (fun s : Settings => s.maxBytes = .unset ∧ s.record ≠ .unset) o.action := by
    intro o ho
    simp only [optionsOf, List.mem_cons, List.not_mem_nil, or_false] at ho
    rcases ho with rfl | rfl | rfl | rfl | rfl | rfl | rfl | rfl
    · trivial
    · intro text s s' hs hset
      obtain ⟨n, hn, rfl⟩ := except_map_eq_ok.1 hset
      exact ⟨hs.1, readCount_ne_unset hn⟩
    all_goals first
      | exact fun s hs => hs
      | exact fun text s s' hs hset => by cases hset; exact hs
  unfold ofArguments at h
  split at h
  · cases h
  · cases h
  · cases h
  · split at h
    · cases h
    · rename_i c hc
      obtain ⟨⟨settings, further⟩, hsettings, h⟩ := except_bind_eq_ok.1 h
      dsimp only at h
      split at h
      · cases h
        unfold readSettings at hsettings
        dsimp only at hsettings
        split at hsettings
        · cases hsettings
        · rename_i hread
          split at hsettings
          · cases hsettings
          · cases hsettings
            exact read_keeps hkeeps ⟨rfl, by simp⟩ hread
      · cases h

/-- The arguments of a dump, one after the other: a file, the index of a record, and options. -/
structure DumpRequest where
  path : String
  index : String
  schema : Option String := none
  root : Option String := none
  ignoreSize : Bool := false
  pretty : Bool := false
  jsonOut : Option String := none

namespace DumpRequest

/-- The options of a request as they are written. -/
def optionWords (d : DumpRequest) : List String :=
  valueWords "--schema" d.schema ++ (valueWords "--root" d.root ++ (switchWords "--ignore-size" d.ignoreSize ++
    (switchWords "--pretty" d.pretty ++ valueWords "--json-out" d.jsonOut)))

/-- A request as it is written. -/
def arguments (d : DumpRequest) : List String := "dump" :: d.path :: "-r" :: d.index :: d.optionWords

/-- What a request asks for. -/
def settings (d : DumpRequest) (record : Nat) : Settings where
  path := d.path
  record := .given record
  schemaFile := d.schema
  root := d.root.elim .unset .given
  ignoreSize := d.ignoreSize
  pretty := d.pretty
  jsonOut := d.jsonOut

/-- No word of a request is taken for an option that it is not. -/
structure Plain (d : DumpRequest) : Prop where
  path : IsPlain d.path
  index : IsPlain d.index
  schema : ∀ text ∈ d.schema, IsPlain text
  root : ∀ text ∈ d.root, IsPlain text
  jsonOut : ∀ text ∈ d.jsonOut, IsPlain text

end DumpRequest

/-- The arguments behind the name of the command are read to what they say. -/
theorem read_dump {d : DumpRequest} (h : d.Plain) {n : Nat} (hn : Text.readInteger d.index = some (.ofNat n)) :
    CommandOption.read rules (optionsOf .dump) .one {} (d.path :: "-r" :: d.index :: d.optionWords) =
      .ok ⟨{ d.settings n with path := "" }, [d.path], []⟩ := by
  have hindex : (readCount (some d.index)).map (fun i => { ({} : Settings) with record := i }) =
      .ok { record := .given n } := by
    simp only [readCount, hn]
    rfl
  show readFrom rules (optionsOf .dump) .one [] [] {} _ = _
  rw [readFrom_operand h.path (by simp),
    readFrom_value (o := recordOption) ⟨by decide, by decide, rfl⟩ rfl h.index hindex]
  unfold DumpRequest.optionWords
  rw [readFrom_valueWords { record := .given n, schemaFile := d.schema } (o := schemaOption)
      ⟨by decide, by decide, rfl⟩ rfl h.schema (fun text ht => by rw [ht]) (fun hnone => by rw [hnone]),
    readFrom_valueWords { record := .given n, schemaFile := d.schema, root := d.root.elim .unset .given }
      (o := rootOption) ⟨by decide, by decide, rfl⟩ rfl h.root (fun text ht => by rw [ht]; rfl)
      (fun hnone => by rw [hnone]; rfl),
    readFrom_switchWords ⟨by decide, by decide, rfl⟩ rfl, readFrom_switchWords ⟨by decide, by decide, rfl⟩ rfl,
    ← List.append_nil (valueWords "--json-out" d.jsonOut)]
  generalize hsettings : (if d.pretty = true then _ else _ : Settings) = given
  have hgiven : given = { d.settings n with path := "", jsonOut := none } := by
    rw [← hsettings]
    unfold DumpRequest.settings
    cases d.ignoreSize <;> cases d.pretty <;> rfl
  rw [hgiven, readFrom_valueWords { d.settings n with path := "" } ⟨by decide, by decide, rfl⟩ rfl
    h.jsonOut (fun text ht => by rw [DumpRequest.settings, ht]) (fun hnone => by rw [DumpRequest.settings, hnone]),
    readFrom_nil]
  rfl

/-- The words of a request are plain, or names of its options. -/
theorem mem_dumpWords {d : DumpRequest} (h : d.Plain) {text : String}
    (ht : text ∈ d.path :: "-r" :: d.index :: d.optionWords) :
    IsPlain text ∨ text ∈ ["-r", "--schema", "--root", "--ignore-size", "--pretty", "--json-out"] := by
  have hvalue : ∀ {name : String} {value : Option String}, (∀ text ∈ value, IsPlain text) →
      text ∈ valueWords name value → IsPlain text ∨ text = name := fun {name value} hv hmem => by
    cases value with
    | none => cases hmem
    | some word =>
      rcases List.mem_cons.1 hmem with rfl | hmem
      · exact .inr rfl
      · exact .inl (List.mem_singleton.1 hmem ▸ hv word rfl)
  have hswitch : ∀ {name : String} {on : Bool}, text ∈ switchWords name on → text = name := fun {name on} hmem => by
    cases on with
    | false => cases hmem
    | true => exact List.mem_singleton.1 hmem
  simp only [DumpRequest.optionWords, List.mem_cons, List.mem_append] at ht
  rcases ht with rfl | rfl | rfl | ht | ht | ht | ht | ht
  · exact .inl h.path
  · simp
  · exact .inl h.index
  · exact (hvalue h.schema ht).imp_right fun he => by simp [he]
  · exact (hvalue h.root ht).imp_right fun he => by simp [he]
  · simp [hswitch ht]
  · simp [hswitch ht]
  · exact (hvalue h.jsonOut ht).imp_right fun he => by simp [he]

/-- The names of the options of a dump mean nothing before the command. -/
theorem classify_dumpWords {d : DumpRequest} (h : d.Plain) : ∀ text ∈ d.path :: "-r" :: d.index :: d.optionWords,
    ∃ kind, classify ([helpOption] : List (CommandOption Unit)) text = .ok kind := by
  intro text ht
  rcases mem_dumpWords h ht with hplain | hname
  · exact ⟨.operand, classify_plain hplain⟩
  · have hall : ∀ name ∈ ["-r", "--schema", "--root", "--ignore-size", "--pretty", "--json-out"],
        (classify ([helpOption] : List (CommandOption Unit)) name).toOption.isSome = true := by decide +kernel
    obtain ⟨kind, hkind⟩ := Option.isSome_iff_exists.1 (hall text hname)
    exact ⟨kind, except_toOption_eq_some.1 hkind⟩

/-- The arguments of a dump are read to what they say. -/
theorem ofArguments_dump {d : DumpRequest} (h : d.Plain) {n : Nat} (hn : Text.readInteger d.index = some (.ofNat n)) :
    ofArguments rules d.arguments = .ok ⟨.dump, d.settings n⟩ := by
  have hcommand : CommandOption.read rules [helpOption] .rest () d.arguments =
      .ok ⟨(), "dump" :: d.path :: "-r" :: d.index :: d.optionWords, []⟩ :=
    readFrom_rest (show "dump".toList.head? ≠ some '-' by decide) (classify_dumpWords h)
  unfold ofArguments
  rw [hcommand]
  dsimp only
  rw [show CommandName.ofName? "dump" = some .dump by decide]
  dsimp only
  unfold readSettings
  rw [show (if CommandName.dump = .version then OperandCount.none else .one) = .one from rfl]
  dsimp only
  rw [read_dump h hn]
  rfl

end Invocation

end BinRecord
