/-
How runs end: one that fails has written nothing but its report, and a dump that succeeds has written the value
of the record that the reader reads from the file, to the output and to the file that was named for it.
-/
import BinRecord.Command.Run
import BinRecord.Proofs.Command.Arguments
import BinRecord.Source.Files
import BinRecord.Text.StandardCodecs

namespace BinRecord

/-! ## Runs that fail -/

/-- A run has put out nothing and written no file. -/
structure Outcome.Silent (outcome : Outcome) : Prop where
  output : outcome.output = ""
  written : outcome.written = none

namespace Outcome

theorem silent_failed (e : CommandError) : (failed e).Silent := by
  rcases e with e | (e | _ | _) <;> exact ⟨rfl, rfl⟩

theorem exitCode_failed (e : CommandError) : (failed e).exitCode = 1 := by
  rcases e with e | (e | _ | _) <;> rfl

theorem silent_refused (text : String) : (refused text).Silent := ⟨rfl, rfl⟩

theorem silent_ofRefusal {refusal : Refusal} (h : (ofRefusal refusal).exitCode ≠ 0) : (ofRefusal refusal).Silent := by
  cases refusal with
  | help program => exact absurd rfl h
  | usage program message => exact ⟨rfl, rfl⟩

end Outcome

namespace Invocation

section

variable {look : Lookup} {s : Settings}

/-! ## What a command finds and puts out -/

theorem isRemote_iff {path : String} : isRemote path = true ↔ "://".toList <:+: path.toList := by
  unfold isRemote
  induction path.toList with
  | nil => simp [isRemote.hasMark]
  | cons c cs ih => rw [isRemote.hasMark, Bool.or_eq_true, ih, List.infix_cons_iff, List.isPrefixOf_iff_prefix]

theorem leadsSomewhere_of_contentAt {path : String} {data : Bytes} (h : Source.contentAt look path = .ok data) :
    leadsSomewhere look path = true := by
  unfold Source.contentAt at h
  unfold leadsSomewhere
  split at h <;> simp_all

theorem schema_leads_of_givenSchema {schemaText : Option String} (h : givenSchema look s = .ok schemaText) :
    (named? s.schemaFile).filter (!leadsSomewhere look ·) = none := by
  unfold givenSchema at h
  cases hnamed : named? s.schemaFile with
  | none => rfl
  | some path =>
    rw [hnamed] at h
    have hleads : leadsSomewhere look path = true := by
      simp only [schemaTextAt] at h
      unfold leadsSomewhere
      cases hl : look path with
      | ok entry => rfl
      | error fault =>
        rw [hl] at h
        cases h
    simp [hleads]

theorem exitCode_dumped {r : Record} {outcome : Outcome} (h : dumped s r = .ok outcome) : outcome.exitCode = 0 := by
  obtain ⟨output, -, h⟩ := except_bind_eq_ok.1 h
  split at h
  · cases h
    rfl
  · obtain ⟨content, -, h⟩ := except_bind_eq_ok.1 h
    cases h
    rfl

/-- What a dump puts out and writes for a record with a value. -/
theorem dumped_eq_ok {record : Record} {v : Value} (hv : record.value = some v) {outcome : Outcome}
    (h : dumped s record = .ok outcome) : ∃ text full, v.toJson (if s.pretty then some 2 else none) = .ok text ∧
      v.toJson (some 2) = .ok full ∧ outcome.output = text ++ "\n" ∧
      outcome.written = (named? s.jsonOut).map (fun path => (path, full ++ "\n")) ∧
      ∃ outcome', dumped { s with pretty := true } record = .ok outcome' ∧ outcome'.output = full ++ "\n" := by
  have hwritable : v.isWritable = true := by
    by_contra hlong
    unfold dumped valueText Value.toJson at h
    simp only [hv, Option.getD_some, if_neg hlong] at h
    cases h
  obtain ⟨full, hfull⟩ : ∃ full, v.toJson (some 2) = .ok full := ⟨_, if_pos hwritable⟩
  obtain ⟨text, htext⟩ : ∃ text, v.toJson (if s.pretty then some 2 else none) = .ok text := ⟨_, if_pos hwritable⟩
  refine ⟨text, full, htext, hfull, ?_⟩
  unfold dumped valueText at h ⊢
  simp only [hv, Option.getD_some, htext, hfull, if_true] at h ⊢
  cases hnamed : named? s.jsonOut with
  | none =>
    rw [hnamed] at h
    cases h
    exact ⟨rfl, rfl, _, rfl, rfl⟩
  | some path =>
    rw [hnamed] at h
    cases h
    exact ⟨rfl, rfl, _, rfl, rfl⟩

/-! ## Runs -/

variable [Codecs]

/-- A command that comes to its end ends with zero. -/
theorem exitCode_performOn {c : CommandName} {schemaText : Option String} {data : Bytes} {outcome : Outcome}
    (h : performOn c s schemaText data = .ok outcome) : outcome.exitCode = 0 := by
  obtain ⟨index, -, h⟩ := except_bind_eq_ok.1 h
  cases c with
  | header =>
    obtain ⟨header, -, h⟩ := except_bind_eq_ok.1 h
    cases h
    rfl
  | dump =>
    obtain ⟨r, -, h⟩ := except_bind_eq_ok.1 h
    exact exitCode_dumped (except_mapError_eq_ok.1 h)
  | schema | version =>
    obtain ⟨r, -, h⟩ := except_bind_eq_ok.1 h
    cases h
    rfl

theorem exitCode_perform {c : CommandName} {outcome : Outcome} (h : perform look c s = .ok outcome) :
    outcome.exitCode = 0 := by
  obtain ⟨schemaText, -, h⟩ := except_bind_eq_ok.1 h
  obtain ⟨data, -, h⟩ := except_bind_eq_ok.1 h
  exact exitCode_performOn (except_mapError_eq_ok.1 h)

/-- A run that does not end with zero writes nothing. -/
theorem silent_run {i : Invocation} (h : (i.run look).exitCode ≠ 0) : (i.run look).Silent := by
  unfold run at h ⊢
  dsimp only at h ⊢
  split
  · rename_i hversion
    rw [if_pos hversion] at h
    exact absurd rfl h
  · rename_i hversion
    rw [if_neg hversion] at h
    split
    · exact Outcome.silent_refused _
    · rename_i hremote
      rw [if_neg hremote] at h
      split
      · exact Outcome.silent_refused _
      · rename_i hfound
        rw [if_neg hfound] at h
        split
        · exact Outcome.silent_refused _
        · rename_i hschema
          rw [hschema] at h
          dsimp only at h
          split
          · rename_i hperform
            rw [hperform] at h
            exact absurd (exitCode_perform hperform) h
          · exact Outcome.silent_failed _

/-! ## Dumps -/

/-- What a dump reads records with. -/
def dumpReader (s : Settings) (data : Bytes) (schemaText : Option String) : Reader :=
  { data, options := { ignoreDataSize := s.ignoreSize, schemaText, root := s.root.value? } }

variable {data : Bytes} {schemaText : Option String}

/-- A dump of a file that is found ends as it does on the content of the file. -/
theorem run_dump_eq (hremote : isRemote s.path = false) (hdata : Source.contentAt look s.path = .ok data)
    (hschema : givenSchema look s = .ok schemaText) :
    (∀ outcome, performOn .dump s schemaText data = .ok outcome → run look ⟨.dump, s⟩ = outcome) ∧
      ∀ e, performOn .dump s schemaText data = .error e → run look ⟨.dump, s⟩ = .failed (.read e) := by
  have hperform : perform look .dump s = (performOn .dump s schemaText data).mapError .read := by
    unfold perform
    rw [hschema, hdata]
    rfl
  unfold run
  simp only [hremote, leadsSomewhere_of_contentAt hdata, schema_leads_of_givenSchema hschema, hperform]
  constructor
  · intro outcome h
    rw [h]
    rfl
  · intro e h
    rw [h]
    rfl

theorem recordFor_eq (hroot : s.root ≠ .empty) (r : Reader) (n : Nat) : recordFor s r n = (r.read n).1 := by
  unfold recordFor
  rw [if_neg hroot]

/-- A dump reads the record that is asked for, if the name of the root was not dropped. -/
theorem performOn_dump_eq (hlimit : s.maxBytes = .unset) {n : Nat} (hrecord : s.record = .given n)
    (hroot : s.root ≠ .empty) : performOn .dump s schemaText data =
      (((dumpReader s data schemaText).read n).1 >>= fun r => (dumped s r).mapError .escaped) := by
  have hindex : indexOf s = .ok n := by
    unfold indexOf
    rw [hlimit, hrecord]
    rfl
  have hreader : ({ data, options := optionsFor .dump s schemaText } : Reader) = dumpReader s data schemaText := by
    simp [optionsFor, dumpReader, hlimit, Setting.value?]
  unfold performOn
  rw [hindex, hreader]
  show (recordFor s _ n >>= _) = _
  rw [recordFor_eq hroot]

theorem recordFor_empty (hroot : s.root = .empty) (r : Reader) (n : Nat) : ∃ e, recordFor s r n = .error e := by
  cases h : recordFor s r n with
  | error e => exact ⟨e, rfl⟩
  | ok record =>
    unfold recordFor at h
    rw [if_pos hroot] at h
    obtain ⟨offset, -, h⟩ := except_bind_eq_ok.1 h
    obtain ⟨found, -, h⟩ := except_bind_eq_ok.1 h
    obtain ⟨text, -, h⟩ := except_bind_eq_ok.1 h
    cases h

/-- A dump comes to its end only if a record is asked for by its index, and the name of the root was not dropped. -/
theorem given_of_performOn_dump (hlimit : s.maxBytes = .unset) (hunset : s.record ≠ .unset) {outcome : Outcome}
    (h : performOn .dump s schemaText data = .ok outcome) : (∃ n, s.record = .given n) ∧ s.root ≠ .empty := by
  obtain ⟨n, hn, h⟩ := except_bind_eq_ok.1 h
  obtain ⟨record, hrecord, -⟩ := except_bind_eq_ok.1 h
  constructor
  · cases hr : s.record with
    | given m => exact ⟨m, rfl⟩
    | unset => exact absurd hr hunset
    | empty =>
      unfold indexOf at hn
      rw [hlimit, hr] at hn
      cases hn
  · intro hroot
    obtain ⟨e, he⟩ := recordFor_empty hroot _ n
    cases he.symm.trans hrecord

/-- A dump that ends with zero has found its files. -/
theorem found_of_run_dump (h : (run look ⟨.dump, s⟩).exitCode = 0) : isRemote s.path = false ∧
    ∃ data schemaText, Source.contentAt look s.path = .ok data ∧ givenSchema look s = .ok schemaText := by
  unfold run at h
  dsimp only at h
  rw [if_neg (by simp)] at h
  split at h
  · cases h
  · rename_i hremote
    split at h
    · cases h
    · split at h
      · cases h
      · split at h
        · rename_i hperform
          obtain ⟨schemaText, hschema, hperform⟩ := except_bind_eq_ok.1 hperform
          obtain ⟨data, hdata, -⟩ := except_bind_eq_ok.1 hperform
          exact ⟨by simpa using hremote, data, schemaText, except_mapError_eq_ok.1 hdata,
            except_mapError_eq_ok.1 hschema⟩
        · rw [Outcome.exitCode_failed] at h
          cases h

theorem exists_value_of_recordOf {o : ReaderOptions} (hbody : o.readBody = true) {header : Header} {schema : Schema}
    {text : String} {offset payloadOffset : Nat} {record : Record}
    (h : o.recordOf data header schema text offset payloadOffset = .ok record) : ∃ v, record.value = some v := by
  unfold ReaderOptions.recordOf at h
  rw [if_pos hbody] at h
  obtain ⟨value, hv, h⟩ := except_bind_eq_ok.1 h
  cases h
  cases hvalue : o.valueOf data header schema payloadOffset with
  | error e =>
    rw [hvalue] at hv
    cases hv
  | ok v =>
    rw [hvalue] at hv
    cases hv
    exact ⟨v, rfl⟩

/-- A record that is read with its payload has a value. -/
theorem exists_value_of_read {r : Reader} (hbody : r.options.readBody = true) {index : Int} {record : Record}
    (h : (r.read index).1 = .ok record) : ∃ v, record.value = some v := by
  unfold Reader.read at h
  split at h
  · cases h
  · dsimp only at h
    unfold ReaderOptions.recordAt at h
    split at h
    · cases h
    · split at h
      · cases h
      · split at h
        · cases h
        · exact exists_value_of_recordOf hbody h

/-- A run is all or nothing: what fails writes nothing. A dump that ends with zero has written the value of the
record that the reader reads, with indentation if it is wanted, and to the file that is named for it what a
pretty dump puts out. A dump ends with one if the reader finds a fault, unless its path has a scheme; such paths
are refused. -/
structure AllOrNothing (rules : OptionRules) (look : Lookup) (arguments : List String) (outcome : Outcome) :
    Prop where
  silent : outcome.exitCode ≠ 0 → outcome.Silent
  succeeds : ∀ s, ofArguments rules arguments = .ok ⟨.dump, s⟩ → outcome.exitCode = 0 →
    ∃ n data schemaText record v text full, s.record = .given n ∧ s.root ≠ .empty ∧
      Source.contentAt look s.path = .ok data ∧ givenSchema look s = .ok schemaText ∧
      ((dumpReader s data schemaText).read n).1 = .ok record ∧ record.value = some v ∧
      v.toJson (if s.pretty then some 2 else none) = .ok text ∧ v.toJson (some 2) = .ok full ∧
      outcome.output = text ++ "\n" ∧ outcome.written = (named? s.jsonOut).map (fun path => (path, full ++ "\n")) ∧
      (run look ⟨.dump, { s with pretty := true }⟩).output = full ++ "\n"
  fails : ∀ s n data schemaText e, ofArguments rules arguments = .ok ⟨.dump, s⟩ → s.record = .given n →
    ¬ "://".toList <:+: s.path.toList → Source.contentAt look s.path = .ok data →
      givenSchema look s = .ok schemaText → ((dumpReader s data schemaText).read n).1 = .error (.error e) →
        outcome.exitCode = 1
  refuses : ∀ s, ofArguments rules arguments = .ok ⟨.dump, s⟩ → "://".toList <:+: s.path.toList →
    outcome.exitCode = 2

variable {rules : OptionRules} {arguments : List String}

theorem runArguments_eq {i : Invocation} (h : ofArguments rules arguments = .ok i) :
    runArguments rules look arguments = run look i := by
  unfold runArguments
  rw [h]

/-- A dump that ends with zero has read its record and written it. -/
theorem run_dump_succeeds (hlimit : s.maxBytes = .unset) (hunset : s.record ≠ .unset)
    (h : (run look ⟨.dump, s⟩).exitCode = 0) : ∃ n data schemaText record v text full, s.record = .given n ∧
      s.root ≠ .empty ∧ Source.contentAt look s.path = .ok data ∧ givenSchema look s = .ok schemaText ∧
      ((dumpReader s data schemaText).read n).1 = .ok record ∧ record.value = some v ∧
      v.toJson (if s.pretty then some 2 else none) = .ok text ∧ v.toJson (some 2) = .ok full ∧
      (run look ⟨.dump, s⟩).output = text ++ "\n" ∧
      (run look ⟨.dump, s⟩).written = (named? s.jsonOut).map (fun path => (path, full ++ "\n")) ∧
      (run look ⟨.dump, { s with pretty := true }⟩).output = full ++ "\n" := by
  obtain ⟨hremote, data, schemaText, hdata, hschema⟩ := found_of_run_dump h
  obtain ⟨hends, hfails⟩ := run_dump_eq hremote hdata hschema
  cases hperform : performOn .dump s schemaText data with
  | error e =>
    rw [hfails e hperform, Outcome.exitCode_failed] at h
    cases h
  | ok outcome =>
    obtain ⟨⟨n, hn⟩, hroot⟩ := given_of_performOn_dump hlimit hunset hperform
    rw [hends outcome hperform]
    rw [performOn_dump_eq hlimit hn hroot] at hperform
    obtain ⟨record, hrecord, hdumped⟩ := except_bind_eq_ok.1 hperform
    obtain ⟨v, hv⟩ := exists_value_of_read rfl hrecord
    obtain ⟨text, full, htext, hfull, houtput, hwritten, outcome', houtcome', houtput'⟩ :=
      dumped_eq_ok hv (except_mapError_eq_ok.1 hdumped)
    refine ⟨n, data, schemaText, record, v, text, full, hn, hroot, hdata, hschema, hrecord, hv, htext, hfull, houtput,
      hwritten, ?_⟩
    -- a pretty dump reads the same record
    obtain ⟨hends', -⟩ := run_dump_eq (s := { s with pretty := true }) hremote hdata hschema
    have hpretty : performOn .dump { s with pretty := true } schemaText data = .ok outcome' := by
      rw [performOn_dump_eq (s := { s with pretty := true }) hlimit hn hroot]
      exact except_bind_eq_ok.2 ⟨record, hrecord, except_mapError_eq_ok.2 houtcome'⟩
    rw [hends' outcome' hpretty, houtput']

/-- A dump of which reading fails ends with one. -/
theorem exitCode_run_dump (hlimit : s.maxBytes = .unset) {n : Nat} (hrecord : s.record = .given n)
    (hremote : isRemote s.path = false) (hdata : Source.contentAt look s.path = .ok data)
    (hschema : givenSchema look s = .ok schemaText) {e : ReadFailure}
    (he : ((dumpReader s data schemaText).read n).1 = .error e) : (run look ⟨.dump, s⟩).exitCode = 1 := by
  obtain ⟨hends, hfails⟩ := run_dump_eq hremote hdata hschema
  cases hperform : performOn .dump s schemaText data with
  | error e' =>
    rw [hfails e' hperform]
    exact Outcome.exitCode_failed _
  | ok outcome =>
    obtain ⟨-, hroot⟩ := given_of_performOn_dump hlimit (by rw [hrecord]; simp) hperform
    rw [performOn_dump_eq hlimit hrecord hroot, he] at hperform
    cases hperform

/-- Every run is all or nothing, under all rules; and the arguments of a dump say what they name. -/
theorem runArguments_all_or_nothing (rules : OptionRules) (look : Lookup) :
    (∀ arguments, AllOrNothing rules look arguments (runArguments rules look arguments)) ∧
    ∀ (d : DumpRequest) (n : Nat), d.Plain → Text.readInteger d.index = some (.ofNat n) →
      ofArguments rules d.arguments = .ok ⟨.dump, d.settings n⟩ := by
  refine ⟨fun arguments => ⟨fun h => ?_, fun s hs h => ?_,
    fun s n data schemaText e hs hn hlocal hdata hschema he => ?_, fun s hs hremote => ?_⟩,
    fun d n hd hn => ofArguments_dump hd hn⟩
  · unfold runArguments at h ⊢
    cases hread : ofArguments rules arguments with
    | error refusal =>
      rw [hread] at h
      exact Outcome.silent_ofRefusal h
    | ok i =>
      rw [hread] at h
      exact silent_run h
  · obtain ⟨hlimit, hunset⟩ := settings_of_ofArguments hs
    rw [runArguments_eq hs] at h ⊢
    exact run_dump_succeeds hlimit hunset h
  · have hremote : isRemote s.path = false := Bool.eq_false_iff.2 fun h => hlocal (isRemote_iff.1 h)
    rw [runArguments_eq hs]
    exact exitCode_run_dump (settings_of_ofArguments hs).1 hn hremote hdata hschema he
  · rw [runArguments_eq hs]
    unfold run
    simp [isRemote_iff.2 hremote, Outcome.refused]

end

/-- A dump of a record of one byte, with indentation, and to a file. -/
theorem runArguments_dump_pretty : ∃ v, runArguments .later (Files.find ⟨[("rec.bin", .file
      (("WN\nformat=struct R { a: U8 }\ndata_size=1\n\x04\x1a".toList.map fun c => c.toNat.toUInt8) ++ [5]))]⟩)
    ["dump", "rec.bin", "-r", "0", "--pretty", "--json-out", "r.json"] =
      { exitCode := 0, output := v, report := .ofText "Wrote JSON → r.json", written := some ("r.json", v) } := by
  generalize hlook : Files.find ⟨[("rec.bin", .file
    (("WN\nformat=struct R { a: U8 }\ndata_size=1\n\x04\x1a".toList.map fun c => c.toNat.toUInt8) ++ [5]))]⟩ = look
  generalize hrun : runArguments .later look ["dump", "rec.bin", "-r", "0", "--pretty", "--json-out", "r.json"] = outcome
  have hend : outcome.exitCode = 0 ∧ outcome.report = .ofText "Wrote JSON → r.json" := by
    rw [← hrun, ← hlook]
    decide +kernel
  obtain ⟨hall, hread⟩ := runArguments_all_or_nothing .later look
  obtain ⟨n, data, schemaText, record, v, text, full, -, -, -, -, -, -, htext, hfull, houtput, hwritten, -⟩ :=
    (hall _).succeeds _ (hread ⟨"rec.bin", "0", none, none, false, true, some "r.json"⟩ 0
      ⟨by decide, by decide, by simp, by simp, by simp; decide⟩ (by decide +kernel)) (hrun ▸ hend.1)
  obtain rfl : text = full := Except.ok.inj (htext.symm.trans hfull)
  replace houtput : outcome.output = text ++ "\n" := hrun ▸ houtput
  replace hwritten : outcome.written = some ("r.json", text ++ "\n") := hrun ▸ hwritten
  refine ⟨text ++ "\n", ?_⟩
  obtain ⟨hcode, hreport⟩ := hend
  cases outcome
  cases hcode
  cases hreport
  cases houtput
  cases hwritten
  rfl

/-- Under no rules do all paths lead to their files: one with a scheme is refused even where it leads to a file of
which reading would find a fault. -/
theorem refused_remote_path : ¬ ∃ rules : OptionRules, ∀ (look : Lookup) (d : DumpRequest) (n : Nat) (data : Bytes)
    (schemaText : Option String) (e : RecordError), d.Plain → Text.readInteger d.index = some (.ofNat n) →
    Source.contentAt look d.path = .ok data → givenSchema look (d.settings n) = .ok schemaText →
    ((dumpReader (d.settings n) data schemaText).read n).1 = .error (.error e) →
      (runArguments rules look d.arguments).exitCode = 1 := by
  rintro ⟨rules, h⟩
  have hfault : ((dumpReader { path := "a://../rec.bin" } [0] none).read 0).1.map (fun _ => ()) =
      .error (.error (.header ⟨.noLayout [⟨"text", .absent [87, 78, 10]⟩], 0⟩)) := by decide +kernel
  let request : DumpRequest := ⟨"a://../rec.bin", "0", none, none, false, false, none⟩
  have hplain : request.Plain := ⟨by decide, by decide, by simp [request], by simp [request], by simp [request]⟩
  have hindex : Text.readInteger request.index = some (.ofNat 0) := by decide +kernel
  have hone := h (Files.find ⟨[("a:", .directory), ("rec.bin", .file [0])]⟩) request 0 [0] none _ hplain hindex
    (by decide +kernel) rfl (except_map_eq_error.1 hfault)
  rw [runArguments_eq (ofArguments_dump hplain hindex)] at hone
  have htwo : (run (Files.find ⟨[("a:", .directory), ("rec.bin", .file [0])]⟩)
    ⟨.dump, request.settings 0⟩).exitCode = 2 := by decide +kernel
  cases htwo.symm.trans hone

end Invocation

end BinRecord
