/-
Reading records one after the other finds what reading them by index finds. The run of an iteration is
said without a bound on its length (`Iterates`); it ends because every header takes at least one byte.
The walk over headers alone to the record with an index comes to the same offsets.
-/
import BinRecord.Proofs.Header.Extent
import BinRecord.Proofs.Record.Cache
import BinRecord.Text.StandardCodecs

namespace BinRecord

/-- A payload of a given size decodes only if the data holds it. -/
theorem Schema.le_of_decode [Codecs] {s : Schema} {data : Bytes} {offset size : Nat} {v : Value}
    (h : s.decode data offset (some size) = .ok v) : size ≤ data.length - offset := by
  unfold decode at h
  dsimp only at h
  split at h
  · cases h
  · omega

namespace ReaderOptions

variable {o : ReaderOptions} {data : Bytes} {offset : Nat}

/-! ## One record -/

/-- Where a record that is read stands in the data. -/
structure Placed (o : ReaderOptions) (data : Bytes) (offset : Nat) (r : Record) : Prop where
  header : o.headerAt data offset = .ok (r.header, r.payloadOffset - offset)
  start : r.offset = offset
  header_pos : offset < r.payloadOffset
  inside : r.payloadOffset ≤ data.length
  body : o.readBody = true → o.ignoreDataSize = false → r.stop ≤ data.length

theorem headerAt_extent {size : Nat} {header : Header} (h : o.headerAt data offset = .ok (header, size)) :
    0 < size ∧ offset + size ≤ data.length := by
  unfold headerAt at h
  split at h
  · rename_i hd
    cases h
    exact Header.detect_extent hd
  · cases h

/-- The walk reckons the end of a record from its header as the record does. -/
theorem stop_eq_of_placed {r : Record} (hp : Placed o data offset r) :
    offset + (r.payloadOffset - offset + r.header.dataSize) = r.stop := by
  have := hp.header_pos
  show _ = r.payloadOffset + r.header.dataSize
  omega

variable [Codecs]

/-- A payload of the size that the header declares is read only if the data holds it. -/
theorem le_of_valueOf {header : Header} {schema : Schema} {v : Value} (hsize : o.ignoreDataSize = false)
    (h : o.valueOf data header schema offset = .ok v) : header.dataSize ≤ data.length - offset := by
  unfold valueOf at h
  split at h
  · unfold plainValue at h
    rw [hsize] at h
    dsimp only at h
    split at h
    · rename_i hd
      exact Schema.le_of_decode hd
    · cases h
  · unfold expandedValue at h
    rw [hsize] at h
    dsimp only at h
    split at h
    · cases h
    · rename_i hle
      simpa using hle

theorem recordOf_eq_ok {header : Header} {schema : Schema} {text : String} {payloadOffset : Nat} {r : Record}
    (h : o.recordOf data header schema text offset payloadOffset = .ok r) :
    (∃ value, r = ⟨header, schema, text, value, offset, payloadOffset⟩) ∧
      (o.readBody = true → ∃ v, o.valueOf data header schema payloadOffset = .ok v) := by
  unfold recordOf at h
  split at h
  · obtain ⟨value, hv, h₁⟩ := except_bind_eq_ok.1 h
    cases h₁
    refine ⟨⟨value, rfl⟩, fun _ => ?_⟩
    cases hvalue : o.valueOf data header schema payloadOffset with
    | error e => rw [hvalue] at hv; cases hv
    | ok v => exact ⟨v, rfl⟩
  · rename_i hbody
    cases h
    exact ⟨⟨none, rfl⟩, fun h => absurd h hbody⟩

theorem placed_of_recordOn {r : Record} (h : o.recordOn data offset = .ok r) : Placed o data offset r := by
  unfold recordOn recordAt at h
  split at h
  · cases h
  · rename_i header size hh
    obtain ⟨hpos, hle⟩ := headerAt_extent hh
    split at h
    · cases h
    · split at h
      · cases h
      · obtain ⟨⟨value, rfl⟩, hvalue⟩ := recordOf_eq_ok h
        refine ⟨by rw [hh, Nat.add_sub_cancel_left], rfl, Nat.lt_add_of_pos_right hpos, hle, fun hbody hsize => ?_⟩
        obtain ⟨v, hv⟩ := hvalue hbody
        have := le_of_valueOf hsize hv
        show offset + size + header.dataSize ≤ data.length
        omega

theorem exists_error_of_le (h : data.length ≤ offset) : ∃ f, o.recordOn data offset = .error f := by
  cases hr : o.recordOn data offset with
  | error f => exact ⟨f, rfl⟩
  | ok r =>
    have hp := placed_of_recordOn hr
    have := hp.header_pos
    have := hp.inside
    omega

/-! ## Iteration -/

/-- What reading on from an offset comes to: the records, and the failure that it stops with, if any. -/
inductive Iterates (o : ReaderOptions) (data : Bytes) : Nat → List Record → Option ReadFailure → Prop
  | finished {offset : Nat} : data.length ≤ offset → Iterates o data offset [] none
  | trailing {offset : Nat} {f : ReadFailure} : offset < data.length → o.recordOn data offset = .error f →
      offset ≠ 0 → isUnrecognized f = true → Iterates o data offset [] none
  | failed {offset : Nat} {f : ReadFailure} : offset < data.length → o.recordOn data offset = .error f →
      (offset ≠ 0 → isUnrecognized f = false) → Iterates o data offset [] (some f)
  | record {offset : Nat} {r : Record} {rs : List Record} {e : Option ReadFailure} : offset < data.length →
      o.recordOn data offset = .ok r → Iterates o data r.stop rs e → Iterates o data offset (r :: rs) e

/-- An iteration with enough fuel is a run of it. -/
theorem recordsFrom_iterates : ∀ {fuel : Nat} {cache : SchemaCache} {done : List Record} {offset : Nat},
    cache.Sound → data.length < offset + fuel → ∃ rs e,
      (o.recordsFrom data fuel cache done offset).1 = (done.reverse ++ rs, e) ∧ Iterates o data offset rs e
  | 0, _, done, offset, _, hf => by
    exact ⟨[], none, by simp [recordsFrom], .finished (by omega)⟩
  | fuel + 1, cache, done, offset, hs, hf => by
    by_cases hend : data.length ≤ offset
    · exact ⟨[], none, by simp [recordsFrom, hend], .finished hend⟩
    · have hlt : offset < data.length := by omega
      have hfst : (o.recordAt cache data offset).1 = _ := recordAt_fst hs offset
      have hsnd : (o.recordAt cache data offset).2.Sound := recordAt_snd hs offset
      unfold recordsFrom
      rw [if_neg hend]
      generalize o.recordAt cache data offset = found at hfst hsnd ⊢
      obtain ⟨result, kept⟩ := found
      change result = _ at hfst
      cases result with
      | ok r =>
        -- a record has a header, so reading on needs less fuel
        have hpos := (placed_of_recordOn hfst.symm).header_pos
        have hstop : r.payloadOffset ≤ r.stop := Nat.le_add_right ..
        have hgo : ∃ rs e, (o.recordsFrom data fuel kept (r :: done) r.stop).1 = ((r :: done).reverse ++ rs, e) ∧
            Iterates o data r.stop rs e := recordsFrom_iterates hsnd (by omega)
        obtain ⟨rs, e, he, hrun⟩ := hgo
        exact ⟨r :: rs, e, by rw [he]; simp, .record hlt hfst.symm hrun⟩
      | error f =>
        dsimp only
        split
        · rename_i hquiet
          rw [Bool.and_eq_true, decide_eq_true_eq] at hquiet
          exact ⟨[], none, by simp, .trailing hlt hfst.symm hquiet.1 hquiet.2⟩
        · rename_i hloud
          refine ⟨[], some f, by simp, .failed hlt hfst.symm fun hne => ?_⟩
          simpa [hne] using hloud

/-! ## By index -/

/-- The walk over headers passes a record that ends inside the data. -/
theorem offsetFrom_succ {r : Record} (h : o.recordOn data offset = .ok r) (hstop : r.stop ≤ data.length)
    (wanted i left : Nat) :
    o.offsetFrom data wanted i offset (left + 1) = o.offsetFrom data wanted (i + 1) r.stop left := by
  have hp := placed_of_recordOn h
  rw [offsetFrom, hp.header]
  show (if data.length < offset + (r.payloadOffset - offset + r.header.dataSize) then _ else _) = _
  rw [stop_eq_of_placed hp, if_neg (by omega)]

/-- The walk stops at a record that ends past the data. -/
theorem offsetFrom_past {r : Record} (h : o.recordOn data offset = .ok r) (hstop : data.length < r.stop)
    (wanted i left : Nat) : ∃ f, o.offsetFrom data wanted i offset (left + 1) = .error f := by
  have hp := placed_of_recordOn h
  rw [offsetFrom, hp.header]
  show ∃ f, (if data.length < offset + (r.payloadOffset - offset + r.header.dataSize) then _ else _) = _
  rw [stop_eq_of_placed hp, if_pos hstop]
  exact ⟨_, rfl⟩

/-- The walk to a record that an iteration finds comes to its offset. -/
theorem offsetFrom_of_iterates {rs : List Record} {e : Option ReadFailure} (h : Iterates o data offset rs e) :
    ∀ {i : Nat} {r : Record}, rs[i]? = some r →
      o.recordOn data r.offset = .ok r ∧ ∀ wanted k, o.offsetFrom data wanted k offset i = .ok r.offset := by
  induction h with
  | finished => intro i r hr; cases hr
  | trailing => intro i r hr; cases hr
  | failed => intro i r hr; cases hr
  | @record offset a rs e _ ha hrun ih =>
    have hp := placed_of_recordOn ha
    intro i r hr
    rcases i with _ | i
    · cases hr
      rw [hp.start]
      exact ⟨ha, fun _ _ => rfl⟩
    · obtain ⟨hon, hwalk⟩ := ih hr
      -- a record follows, so this one ends inside the data
      have hstop : a.stop ≤ data.length := by
        cases hrun with
        | record hlt => omega
        | _ => cases hr
      exact ⟨hon, fun wanted k => by rw [offsetFrom_succ ha hstop, hwalk]⟩

/-- Where an iteration stops, the walk stops too, or comes to an offset where no record can be read: with the
same failure if the iteration reports one. -/
theorem exists_failure_of_iterates {rs : List Record} {e : Option ReadFailure} (h : Iterates o data offset rs e) :
    offset ≤ data.length → ∀ wanted k,
      (e = none ∧ ∃ f, o.offsetFrom data wanted k offset rs.length = .error f) ∨
      ∃ stop f, o.offsetFrom data wanted k offset rs.length = .ok stop ∧ o.recordOn data stop = .error f ∧
        (e = none ∨ e = some f) := by
  induction h with
  | finished hend =>
    intro _ wanted k
    obtain ⟨f, hf⟩ := exists_error_of_le (o := o) hend
    exact .inr ⟨_, f, rfl, hf, .inl rfl⟩
  | trailing _ hf => exact fun _ _ _ => .inr ⟨_, _, rfl, hf, .inl rfl⟩
  | failed _ hf => exact fun _ _ _ => .inr ⟨_, _, rfl, hf, .inr rfl⟩
  | @record offset a rs e _ ha hrun ih =>
    intro _ wanted k
    by_cases hstop : a.stop ≤ data.length
    · rw [List.length_cons, offsetFrom_succ ha hstop]
      exact ih hstop wanted (k + 1)
    · -- nothing comes after a record that ends past the data
      have hnil : rs = [] ∧ e = none := by
        cases hrun with
        | finished => exact ⟨rfl, rfl⟩
        | trailing hlt | failed hlt | record hlt => omega
      obtain ⟨rfl, rfl⟩ := hnil
      exact .inl ⟨rfl, offsetFrom_past ha (by omega) wanted k 0⟩

/-! ## The records tile the data -/

theorem Iterates.placed {rs : List Record} {e : Option ReadFailure} (h : Iterates o data offset rs e) :
    ∀ r ∈ rs, Placed o data r.offset r := by
  induction h with
  | finished | trailing | failed => intro r hr; cases hr
  | record _ ha _ ih =>
    have hp := placed_of_recordOn ha
    refine List.forall_mem_cons.2 ⟨?_, ih⟩
    rwa [hp.start]

theorem Iterates.head {rs : List Record} {e : Option ReadFailure} (h : Iterates o data offset rs e) :
    ∀ r, rs.head? = some r → r.offset = offset := by
  cases h with
  | finished | trailing | failed => intro r hr; cases hr
  | record _ ha _ =>
    intro r hr
    cases hr
    exact (placed_of_recordOn ha).start

theorem Iterates.next {rs : List Record} {e : Option ReadFailure} (h : Iterates o data offset rs e) :
    ∀ (i : Nat) a b, rs[i]? = some a → rs[i + 1]? = some b → b.offset = a.stop := by
  induction h with
  | finished | trailing | failed => intro i a b ha; cases ha
  | record _ _ hrun ih =>
    intro i a b ha hb
    rcases i with _ | i
    · cases ha
      exact hrun.head b (by rw [List.head?_eq_getElem?]; exact hb)
    · exact ih i a b ha hb

/-- Every record takes at least one byte. -/
theorem Iterates.length_le {rs : List Record} {e : Option ReadFailure} (h : Iterates o data offset rs e) :
    rs.length ≤ data.length - offset := by
  induction h with
  | finished | trailing | failed => exact Nat.zero_le _
  | @record _ r _ _ hlt ha _ ih =>
    have := (placed_of_recordOn ha).header_pos
    have : r.payloadOffset ≤ r.stop := Nat.le_add_right ..
    rw [List.length_cons]
    omega

end ReaderOptions

namespace Reader

/-! ## Readers -/

section

variable [Codecs]

/-- What all records of a reader, and the failure after them if any, have to do with reading records by
index with another reader. -/
structure ReadsInOrder (r r' : Reader) (rs : List Record) (e : Option ReadFailure) : Prop where
  run : ReaderOptions.Iterates r.options r.visible 0 rs e
  read : ∀ (i : Nat) record, rs[i]? = some record →
    (r'.read i).1 = .ok record ∧ r'.readHeader i = .ok record.header
  failure : ∀ f, e = some f → (r'.read rs.length).1 = .error f
  ended : e = none → ∃ f, (r'.read rs.length).1 = .error f
  first : ∀ record, rs.head? = some record → record.offset = 0
  next : ∀ (i : Nat) a b, rs[i]? = some a → rs[i + 1]? = some b → b.offset = a.stop
  inside : ∀ record ∈ rs,
    record.offset < record.payloadOffset ∧ record.payloadOffset ≤ min record.stop r.visible.length
  body : r.options.readBody = true → r.options.ignoreDataSize = false →
    ∀ record ∈ rs, record.stop ≤ r.visible.length
  length : rs.length ≤ r.visible.length

theorem read_fst {r : Reader} (h : r.schemas.Sound) (i : Nat) :
    (r.read i).1 = (r.options.offsetFrom r.visible i 0 0 i).bind (r.options.recordOn r.visible) := by
  have hoffset : r.options.offsetOf r.visible i = r.options.offsetFrom r.visible i 0 0 i := rfl
  unfold read
  rw [hoffset]
  cases r.options.offsetFrom r.visible i 0 0 i with
  | error e => rfl
  | ok offset => exact ReaderOptions.recordAt_fst h offset

/-- Records that are read in order are read by index, and tile the data. -/
theorem records_reads_in_order {data : Bytes} {r r' : Reader} (h : Reachable data r) (h' : Reachable data r')
    (ho : r'.options = r.options) : ReadsInOrder r r' r.records.1.1 r.records.1.2 := by
  obtain ⟨hd, hs⟩ := h.sound
  obtain ⟨hd', hs'⟩ := h'.sound
  have hvisible : r'.visible = r.visible := by
    unfold visible
    rw [ho, hd, hd']
  have hrun : ∃ rs e, (r.options.recordsFrom r.visible (r.visible.length + 1) r.schemas [] 0).1 = ([] ++ rs, e) ∧
      ReaderOptions.Iterates r.options r.visible 0 rs e := ReaderOptions.recordsFrom_iterates hs (by omega)
  obtain ⟨rs, e, he, hrun⟩ := hrun
  have hrecords : r.records.1 = (rs, e) := he
  have hread : ∀ i : Nat, (r'.read i).1 =
      (r.options.offsetFrom r.visible i 0 0 i).bind (r.options.recordOn r.visible) := fun i => by
    rw [read_fst hs', ho, hvisible]
  have hfail := fun k => ReaderOptions.exists_failure_of_iterates hrun (Nat.zero_le _) rs.length k
  rw [hrecords]
  show ReadsInOrder r r' rs e
  refine ⟨hrun, fun i record hr => ?_, fun f hf => ?_, fun hnone => ?_, hrun.head, hrun.next, fun record hr => ?_,
    fun hbody hsize record hr => (hrun.placed record hr).body hbody hsize, hrun.length_le⟩
  · obtain ⟨hon, hwalk⟩ := ReaderOptions.offsetFrom_of_iterates hrun hr
    refine ⟨by rw [hread, hwalk]; exact hon, ?_⟩
    unfold readHeader
    rw [ho, hvisible]
    exact except_bind_eq_ok.2 ⟨_, hwalk i 0, except_bind_eq_ok.2 ⟨_, (ReaderOptions.placed_of_recordOn hon).header, rfl⟩⟩
  · rw [hread]
    rcases hfail 0 with ⟨hnone, -⟩ | ⟨stop, f', hwalk, hon, hnone | hsome⟩
    · rw [hf] at hnone; cases hnone
    · rw [hf] at hnone; cases hnone
    · rw [hf] at hsome
      cases hsome
      rw [hwalk]
      exact hon
  · rw [hread]
    rcases hfail 0 with ⟨-, f, hwalk⟩ | ⟨stop, f, hwalk, hon, -⟩
    · exact ⟨f, by rw [hwalk]; rfl⟩
    · exact ⟨f, by rw [hwalk]; exact hon⟩
  · have hp := hrun.placed record hr
    have : record.payloadOffset ≤ record.stop := Nat.le_add_right ..
    have := hp.inside
    exact ⟨hp.header_pos, by omega⟩

end

/-- Two records, zeroes after them, and a reader that has read all of them before. -/
theorem records_reads_in_order_padded : ∃ r : Reader, r.records.1.1.length = 2 ∧ r.records.1.2 = none ∧
    ReadsInOrder r r.records.2 r.records.1.1 r.records.1.2 := by
  let record : Bytes := "WN\nformat=struct R \x7b n: U8 \x7d\ndata_size=1\n\x04\x1a!".toList.map fun c => c.toNat.toUInt8
  have h : Reachable (record ++ record ++ [0, 0]) { data := record ++ record ++ [0, 0] } := .fresh {}
  exact ⟨_, by decide +kernel, by decide +kernel, records_reads_in_order h h.records rfl⟩

end Reader

end BinRecord
