/-
The JSON text of a header: an object whose members are the fields in increasing order of their keys, without a blank
outside strings. A decoded header has every key once, so the text is one for all maps that are equal, in whatever order
and pieces their fields were written, and tells maps that differ apart.
-/
import BinRecord.Proofs.Header.Extension
import BinRecord.Proofs.Json.Compact
import BinRecord.Proofs.Json.Scalar

namespace BinRecord

/-! ## Maps -/

namespace OrderedMap

variable {α : Type} {m m' : OrderedMap α}

theorem nodup_insert {key : String} {value : α} (h : (m.map (·.1)).Nodup) :
    ((insert key value m).map (·.1)).Nodup := by
  rw [keys_insert]
  split_ifs with hmem
  · exact h
  · refine List.nodup_append.2 ⟨h, List.nodup_singleton _, ?_⟩
    rintro a ha b hb rfl
    exact hmem (List.mem_singleton.1 hb ▸ ha)

/-- Entries put one after the other make a map with every key once. -/
theorem nodup_ofEntries (entries : List (String × α)) : ((ofEntries entries).map (·.1)).Nodup := by
  have hrev : ∀ es : List (String × α), ((ofEntries es.reverse).map (·.1)).Nodup := fun es => by
    induction es with
    | nil => exact List.nodup_nil
    | cons e es ih =>
      rw [ofEntries_reverse_cons]
      exact nodup_insert ih
  simpa using hrev entries.reverse

theorem get?_eq_some_iff (h : (m.map (·.1)).Nodup) {key : String} {value : α} :
    m.get? key = some value ↔ (key, value) ∈ m := by
  unfold get?
  rw [List.lookup_eq_some_iff]
  constructor
  · rintro ⟨before, after, rfl, -⟩
    simp
  · intro hmem
    obtain ⟨before, after, rfl⟩ := List.append_of_mem hmem
    refine ⟨before, after, rfl, fun p hp => ?_⟩
    rw [List.map_append, List.map_cons] at h
    have hne := (List.nodup_append.1 h).2.2 p.1 (List.mem_map_of_mem hp) key (List.mem_cons_self ..)
    simpa using hne.symm

/-- Maps with every key once have the same values exactly if they have the same entries. -/
theorem perm_iff (h : (m.map (·.1)).Nodup) (h' : (m'.map (·.1)).Nodup) :
    m.Perm m' ↔ ∀ key, m.get? key = m'.get? key := by
  rw [List.perm_ext_iff_of_nodup h.of_map h'.of_map]
  constructor
  · intro hsame key
    apply Option.ext
    intro value
    rw [get?_eq_some_iff h, get?_eq_some_iff h', hsame]
  · rintro hget ⟨key, value⟩
    rw [← get?_eq_some_iff h, ← get?_eq_some_iff h', hget]

end OrderedMap

/-! ## Texts in order -/

/-- The numbers of the characters of a text. -/
def codePoints (s : String) : List Nat := s.toList.map Char.toNat

theorem codePoints_lt {a b : String} (h : a < b) : codePoints a < codePoints b :=
  List.map_lt (fun _ _ h => h) (String.lt_iff.1 h)

namespace Header

/-- Fields in increasing order of their keys. -/
def sorted (fields : OrderedMap String) : OrderedMap String := fields.mergeSort fun a b => !(b.1 < a.1)

theorem perm_sorted (fields : OrderedMap String) : (sorted fields).Perm fields := List.mergeSort_perm ..

/-- The fields of a map with every key once are put in strictly increasing order. -/
theorem pairwise_sorted {fields : OrderedMap String} (h : (fields.map (·.1)).Nodup) :
    (sorted fields).Pairwise fun a b => a.1 < b.1 := by
  have hle : (sorted fields).Pairwise fun a b => (!(b.1 < a.1 : Bool)) = true := by
    refine List.pairwise_mergeSort (fun a b c hab hbc => ?_) (fun a b => ?_) fields
    · simp only [Bool.not_eq_true', decide_eq_false_iff_not, String.not_lt] at hab hbc ⊢
      exact String.le_trans hab hbc
    · simp only [Bool.or_eq_true, Bool.not_eq_true', decide_eq_false_iff_not, String.not_lt]
      exact String.le_total a.1 b.1
  have hne : (sorted fields).Pairwise fun a b => a.1 ≠ b.1 :=
    List.pairwise_map.1 (((perm_sorted fields).map _).nodup_iff.2 h)
  refine hle.imp₂ (fun a b hab hne => ?_) hne
  simp only [Bool.not_eq_true', decide_eq_false_iff_not, String.not_lt] at hab
  rw [← String.not_le]
  exact fun hba => hne (String.le_antisymm hab hba)

/-- Maps with every key once are put in the same order exactly if they are equal as maps. -/
theorem sorted_eq_iff {m m' : OrderedMap String} (h : (m.map (·.1)).Nodup) (h' : (m'.map (·.1)).Nodup) :
    sorted m = sorted m' ↔ ∀ key, m.get? key = m'.get? key := by
  rw [← OrderedMap.perm_iff h h']
  constructor
  · intro heq
    exact (perm_sorted m).symm.trans (heq ▸ perm_sorted m')
  · intro hperm
    refine List.Perm.eq_of_pairwise (fun a b _ _ hab hba => ?_) (pairwise_sorted h) (pairwise_sorted h')
      ((perm_sorted m).trans (hperm.trans (perm_sorted m').symm))
    exact absurd (String.lt_trans hab hba) (String.lt_irrefl _)

end Header

/-! ## The text -/

namespace Header

open Json

variable {es : List (String × String)}

theorem isMember_entry (key value : String) :
    IsMember (string key ++ ':' :: string value) (key, .text value) := by
  have h := IsMember.mk blanks_nil (isString_string key) blanks_nil
    (IsElement.mk blanks_nil (.text (isString_string value)) blanks_nil)
  simpa using h

theorem separated_writeEntries (hne : es ≠ []) :
    Separated IsMember (writeEntries es) (es.map fun e => (e.1, .text e.2)) := by
  induction es with
  | nil => exact absurd rfl hne
  | cons e es ih =>
    obtain ⟨key, value⟩ := e
    cases es with
    | nil => exact .one (isMember_entry key value)
    | cons e' es =>
      have h := Separated.cons (isMember_entry key value) (ih (List.cons_ne_nil _ _))
      simpa [writeEntries] using h

theorem compacts_writeEntries (es : List (String × String)) : Compacts (writeEntries es) (writeEntries es) := by
  have hentry (key value : String) :
      Compacts (string key ++ ':' :: string value) (string key ++ ':' :: string value) :=
    (isString_string key).compacts.append ((isString_string value).compacts.cons (by decide) (by decide))
  induction es with
  | nil => exact compacts_nil
  | cons e es ih =>
    obtain ⟨key, value⟩ := e
    cases es with
    | nil => exact hentry key value
    | cons e' es =>
      have h := (hentry key value).append (ih.cons (c := ',') (by decide) (by decide))
      simpa [writeEntries] using h

variable {h : Header}

theorem toList_toJson (h : Header) : h.toJson.toList = '\x7b' :: (writeEntries (sorted h.fields) ++ ['\x7d']) :=
  String.toList_ofList

/-- The text is that of an object. -/
theorem isText_toJson (h : Header) :
    IsText h.toJson.toList (.object ((sorted h.fields).map fun e => (e.1, .text e.2))) := by
  have hvalue : IsValue ('\x7b' :: (writeEntries (sorted h.fields) ++ ['\x7d']))
      (.object ((sorted h.fields).map fun e => (e.1, .text e.2))) := by
    by_cases hne : sorted h.fields = []
    · rw [hne]
      exact .object (.blanks blanks_nil)
    · exact .object (.things (separated_writeEntries hne))
  rw [toList_toJson]
  simpa [IsText] using IsElement.mk blanks_nil hvalue blanks_nil

theorem compact_toJson (h : Header) : compact .outside h.toJson.toList = h.toJson.toList := by
  have hcompacts := ((compacts_writeEntries (sorted h.fields)).append
    (compacts_nil.cons (c := '\x7d') (by decide) (by decide))).cons (c := '\x7b') (by decide) (by decide) []
  rw [toList_toJson]
  simpa [compact] using hcompacts

/-- The members that the text has are the fields in order. -/
theorem sorted_of_toJson_eq {h' : Header} (he : h.toJson = h'.toJson) : sorted h.fields = sorted h'.fields := by
  have htext := h'.isText_toJson
  rw [← he] at htext
  injection h.isText_toJson.unique htext with hmembers
  refine List.map_injective_iff.2 ?_ hmembers
  intro e e' hpair
  injection hpair with hkey hvalue
  injection hvalue with hvalue
  exact Prod.ext hkey hvalue

theorem toJson_eq_iff {h' : Header} (hkeys : (h.fields.map (·.1)).Nodup) (hkeys' : (h'.fields.map (·.1)).Nodup) :
    h.toJson = h'.toJson ↔ ∀ key, h.fields.get? key = h'.fields.get? key := by
  rw [← sorted_eq_iff hkeys hkeys']
  constructor
  · exact sorted_of_toJson_eq
  · intro he
    rw [← String.toList_inj, toList_toJson, toList_toJson, he]

end Header

/-! ## Decoded headers -/

theorem BinaryLayout.nodup_of_headerOf {layout : BinaryLayout} {dataSize : Slot} {version : Option Slot} {start : Nat}
    {bs : Bytes} {h : Header} (hh : layout.headerOf dataSize version start bs = .ok h) :
    (h.fields.map (·.1)).Nodup := by
  unfold headerOf at hh
  split at hh
  · cases hh
  · cases hh
    cases version <;> simp

/-- A decoded header has every key once. -/
theorem HeaderLayout.nodup_of_decode {layout : HeaderLayout} {data : Bytes} {start size : Nat} {h : Header}
    (hd : layout.decode data start = .ok (h, size)) : (h.fields.map (·.1)).Nodup := by
  cases layout with
  | text layout =>
    obtain ⟨f, fields, rest, hdata, hlines, hs, -⟩ := TextLayout.exists_written_of_decode hd
    have htells := (TextLayout.tells_of_decode hlines (TextLayout.Form.written_ne_nil hlines hs) hdata hd).2
    rw [htells.keys, ← OrderedMap.keys_ofEntries]
    exact OrderedMap.nodup_ofEntries fields
  | binary layout =>
    unfold HeaderLayout.decode BinaryLayout.decode at hd
    dsimp only at hd
    split_ifs at hd
    obtain ⟨dataSize, -, hd⟩ := except_bind_eq_ok.1 hd
    obtain ⟨version, -, hd⟩ := except_bind_eq_ok.1 hd
    split_ifs at hd
    obtain ⟨header, hheader, hd⟩ := except_bind_eq_ok.1 hd
    cases hd
    exact BinaryLayout.nodup_of_headerOf hheader

/-! ## Rearranged fields -/

namespace TextLayout

variable {fields fields' : List (String × String)}

/-- Where every key comes once, the order of the fields does not matter. -/
theorem lastValue?_congr (hperm : fields'.Perm fields) (hkeys : (fields.map (·.1)).Nodup) (key : String) :
    lastValue? fields' key = lastValue? fields key := by
  have hreverse : fields'.reverse.Perm fields.reverse :=
    (List.reverse_perm _).trans (hperm.trans (List.reverse_perm _).symm)
  have hnodup : (fields.reverse.map (·.1)).Nodup := by
    rw [List.map_reverse]
    exact List.nodup_reverse.2 hkeys
  exact (OrderedMap.perm_iff ((hreverse.map _).nodup_iff.2 hnodup) hnodup).1 hreverse key

theorem SizeReadable.congr (h : SizeReadable fields) (hvalues : ∀ key, lastValue? fields' key = lastValue? fields key) :
    SizeReadable fields' := by
  intro size hsize
  rw [hvalues] at hsize
  exact h size hsize

theorem Sufficient.congr (h : Sufficient fields) (hvalues : ∀ key, lastValue? fields' key = lastValue? fields key) :
    Sufficient fields' := by
  obtain ⟨hsize, hcompression⟩ := h
  refine ⟨?_, ?_⟩
  · rw [hvalues]
    exact hsize
  · rw [hvalues]
    exact hcompression

/-- A header that is read says what the fields tell that are written there, and they make it up, with a size that can
be read. -/
theorem tells_of_take {layout : TextLayout} {data : Bytes} {start size : Nat} {h : Header} {f : layout.Form}
    (hd : layout.decode data start = .ok (h, size)) (htake : (data.drop start).take size = f.written)
    (hlines : List.Forall₂ Line.Holds f.lines fields) : Sufficient fields ∧ SizeReadable fields ∧
      layout.Tells fields h := by
  obtain ⟨f₀, fields₀, rest, hdata, hlines₀, hs₀, -⟩ := exists_written_of_decode hd
  have hne := Form.written_ne_nil hlines₀ hs₀
  obtain ⟨rfl, -⟩ := tells_of_decode hlines₀ hne hdata hd
  -- both forms are written in the same bytes
  rw [hdata, List.take_left] at htake
  rw [htake] at hne hdata
  rw [decode_written hlines hne hdata] at hd
  cases hh : layout.headerOf (start + f.preamble.length) (OrderedMap.ofEntries fields) with
  | error e =>
    rw [hh] at hd
    cases hd
  | ok h' =>
    rw [hh] at hd
    obtain rfl := (Prod.mk.inj (Except.ok.inj hd)).1
    exact ⟨(headerOf_eq_ok.1 hh).1, sizeReadable_of_headerOf hh, tells_of_headerOf hh⟩

end TextLayout

namespace Header

open Json

/-- The JSON text of a decoded header is that of the object that has the fields as members, every key once and in
strictly increasing order, and it has no blank outside strings. Decoded headers have the same text exactly if their
fields are equal as maps. A line-oriented header whose keys differ can be written with its lines in another order and
in other pieces, and in another such layout, and is decoded to a header with the same text. -/
theorem toJson_canonical {layout : HeaderLayout} {data : Bytes} {start size : Nat} {h : Header}
    (hd : layout.decode data start = .ok (h, size)) :
    (∃ members : List (String × String), members.Perm h.fields ∧
      members.Pairwise (fun a b => codePoints a.1 < codePoints b.1) ∧
        (∀ j, IsText h.toJson.toList j ↔ j = .object (members.map fun e => (e.1, .text e.2))) ∧
          compact .outside h.toJson.toList = h.toJson.toList) ∧
    (∀ (layout' : HeaderLayout) (data' : Bytes) (start' size' : Nat) (h' : Header),
      layout'.decode data' start' = .ok (h', size') →
        (h.toJson = h'.toJson ↔ ∀ key, h.fields.get? key = h'.fields.get? key)) ∧
    ∀ (textual : TextLayout) (f : textual.Form) (fields : List (String × String)), layout = .text textual →
      (data.drop start).take size = f.written → List.Forall₂ TextLayout.Line.Holds f.lines fields →
      (fields.map (·.1)).Nodup → ∀ (other : TextLayout) (f' : other.Form) (fields' : List (String × String)),
        fields'.Perm fields → List.Forall₂ TextLayout.Line.Holds f'.lines fields' → ∀ before after : Bytes, ∃ h',
          other.decode (before ++ f'.written ++ after) before.length = .ok (h', f'.written.length) ∧
            h'.toJson = h.toJson := by
  have hkeys := HeaderLayout.nodup_of_decode hd
  refine ⟨⟨sorted h.fields, perm_sorted _, ?_, fun j => ⟨fun hj => hj.unique h.isText_toJson, ?_⟩, h.compact_toJson⟩,
    fun layout' data' start' size' h' hd' => toJson_eq_iff hkeys (HeaderLayout.nodup_of_decode hd'), ?_⟩
  · exact (pairwise_sorted hkeys).imp codePoints_lt
  · rintro rfl
    exact h.isText_toJson
  · rintro textual f fields rfl htake hlines hdistinct other f' fields' hperm hlines' before after
    obtain ⟨hs, hreadable, htells⟩ := TextLayout.tells_of_take hd htake hlines
    have hvalues := TextLayout.lastValue?_congr hperm hdistinct
    have hdata' : (before ++ f'.written ++ after).drop before.length = f'.written ++ after := by
      rw [List.append_assoc, List.drop_left]
    obtain ⟨h', hd', htells'⟩ :=
      TextLayout.exists_decode hlines' (hs.congr hvalues) (hreadable.congr hvalues) hdata'
    have hkeys' : (h'.fields.map (·.1)).Nodup := by
      rw [htells'.keys, ← OrderedMap.keys_ofEntries]
      exact OrderedMap.nodup_ofEntries fields'
    refine ⟨h', hd', (toJson_eq_iff hkeys' hkeys).2 fun key => ?_⟩
    rw [htells'.values, htells.values, hvalues]

/-- Two lines, and the same the other way round with one of them in two pieces. -/
theorem toJson_canonical_swapped : ∃ h h' : Header,
    HeaderLayout.decode (.text {}) ("WN\nn=\"\ndata_size=07\n\x04\x1a".toList.map fun c => c.toNat.toUInt8) 0 =
      .ok (h, 22) ∧
    HeaderLayout.decode (.text {}) ("WN\ndata_\\\nsize=07\nn=\"\n\x04\x1a".toList.map fun c => c.toNat.toUInt8) 0 =
      .ok (h', 24) ∧
    h.fields ≠ h'.fields ∧ h'.toJson = "\x7b\"data_size\":\"07\",\"n\":\"\\\"\"\x7d" ∧ h'.toJson = h.toJson := by
  generalize hdata : ("WN\nn=\"\ndata_size=07\n\x04\x1a".toList.map fun c => c.toNat.toUInt8) = data
  generalize hdata' : ("WN\ndata_\\\nsize=07\nn=\"\n\x04\x1a".toList.map fun c => c.toNat.toUInt8) = data'
  have hread : (HeaderLayout.decode (.text {}) data 0).toOption.map (fun r => (r.2, r.1.fields)) =
      some (22, [("n", "\""), ("data_size", "07")]) := by
    rw [← hdata]
    decide +kernel
  have hread' : (HeaderLayout.decode (.text {}) data' 0).toOption.map (fun r => (r.2, r.1.fields)) =
      some (24, [("data_size", "07"), ("n", "\"")]) := by
    rw [← hdata']
    decide +kernel
  obtain ⟨⟨h, size⟩, hd, hfound⟩ := Option.map_eq_some_iff.1 hread
  obtain ⟨⟨h', size'⟩, hd', hfound'⟩ := Option.map_eq_some_iff.1 hread'
  simp only [Prod.mk.injEq] at hfound hfound'
  obtain ⟨rfl, hfields⟩ := hfound
  obtain ⟨rfl, hfields'⟩ := hfound'
  rw [except_toOption_eq_some] at hd hd'
  obtain ⟨-, hequal, -⟩ := toJson_canonical hd'
  have hperm : h'.fields.Perm h.fields := by
    rw [hfields, hfields']
    exact .swap ..
  have hkeys : (h.fields.map (·.1)).Nodup := by
    rw [hfields]
    decide
  refine ⟨h, h', hd, hd', ?_, ?_, (hequal _ _ _ _ _ hd).2 ?_⟩
  · rw [hfields, hfields']
    decide
  · have hsorted : sorted [("data_size", "07"), ("n", "\"")] = [("data_size", "07"), ("n", "\"")] :=
      List.mergeSort_of_pairwise (by decide)
    rw [← String.toList_inj, toList_toJson, hfields', hsorted]
    decide
  · exact (OrderedMap.perm_iff ((hperm.map _).nodup_iff.2 hkeys) hkeys).1 hperm

end Header

end BinRecord
