/-
Which layout recognizes a header. A layout passes over headers whose magic it does not know; once it knows the
magic, whatever fault it finds is final. The first layout that does not pass a header over decides.
-/
import BinRecord.Header.Detect
import BinRecord.Proofs.Bytes.Search
import BinRecord.Proofs.Traversal

namespace BinRecord

/-! ## Failures -/

/-- An error is the failure with it, unless the numbers of its message are too long to be written. -/
theorem HeaderError.failure_cases (e : HeaderError) : e.failure = .error e ∨ e.failure = .escaped .unwritable := by
  unfold failure
  split
  · exact .inl rfl
  · exact .inr rfl

theorem HeaderError.eq_of_failure {e e' : HeaderError} (h : e.failure = .error e') : e' = e := by
  rcases e.failure_cases with he | he
  · rw [he] at h
    cases h
    rfl
  · rw [he] at h
    cases h

/-! ## Lines -/

namespace TextLayout

theorem fault_of_joinedLine {chunks : List Bytes} {offset : Nat} {bs : Bytes} {e : HeaderError}
    (h : joinedLine chunks offset bs = .error e) : e.fault = .unterminatedLine := by
  fun_induction joinedLine chunks offset bs with
  | case1 =>
    cases h
    rfl
  | case2 _ _ _ _ _ _ _ _ _ ih => exact ih h
  | case3 => cases h

theorem kind_of_entry {offset : Nat} {line : Bytes} {e : HeaderError} (h : entry offset line = .error e) :
    e.fault.kind ≠ .notRecognized := by
  unfold entry at h
  split at h
  · cases h
    simp [HeaderFault.kind]
  · split at h <;> cases h <;> simp [HeaderFault.kind]

theorem kind_of_fieldLines {separator : Bytes} {fields : OrderedMap String} {offset : Nat} {bs : Bytes}
    {e : HeaderError} (h : fieldLines separator fields offset bs = .error e) : e.fault.kind ≠ .notRecognized := by
  fun_induction fieldLines separator fields offset bs with
  | case1 => cases h
  | case2 =>
    cases h
    simp [HeaderFault.kind]
  | case3 _ _ _ _ _ _ hline =>
    cases h
    simp [fault_of_joinedLine hline, HeaderFault.kind]
  | case4 _ _ _ _ _ _ _ _ _ _ hentry =>
    cases h
    exact kind_of_entry hentry
  | case5 _ _ _ _ _ _ _ _ _ _ _ _ ih => exact ih h

/-- Fields that make up no header are at fault, or the data size has too many digits. -/
theorem headerOf_eq_error {layout : TextLayout} {magicAt : Nat} {fields : OrderedMap String} {x : HeaderFailure}
    (h : layout.headerOf magicAt fields = .error x) : (∃ n, x = .escaped (.unreadable n)) ∨
      ∃ e : HeaderError, x = .error e ∧ e.offset = magicAt ∧ (e.fault = .noDataSize ∨
        (∃ value, e.fault = .dataSizeNotDecimal value) ∨ ∃ name, e.fault = .unknownCompression name) := by
  unfold headerOf at h
  split at h
  · cases h
    exact .inr ⟨_, rfl, rfl, .inl rfl⟩
  · dsimp only at h
    split at h
    · cases h
      exact .inr ⟨_, rfl, rfl, .inr (.inl ⟨_, rfl⟩)⟩
    · split at h
      · cases h
        exact .inr ⟨_, rfl, rfl, .inr (.inr ⟨_, rfl⟩)⟩
      · rcases except_bind_eq_error.1 h with hdigits | ⟨n, -, h⟩
        · exact .inl ⟨_, (Text.readDecimal_eq_error.1 hdigits).2⟩
        · cases h

theorem kind_of_headerOf {layout : TextLayout} {magicAt : Nat} {fields : OrderedMap String} {e : HeaderError}
    (h : layout.headerOf magicAt fields = .error (.error e)) : e.fault.kind ≠ .notRecognized := by
  rcases headerOf_eq_error h with ⟨n, hn⟩ | ⟨e', he, -, hfault⟩
  · cases hn
  · cases he
    rcases hfault with hfault | ⟨value, hfault⟩ | ⟨name, hfault⟩ <;> simp [hfault, HeaderFault.kind]

end TextLayout

/-! ## Fixed offsets -/

namespace BinaryLayout

theorem slot_eq_error {f : IntegerField} {failure : HeaderFailure} (h : slot f = .error failure) :
    failure = .escaped .badFormat := by
  unfold slot at h
  split at h
  · cases h
  · cases h
    rfl

theorem slot?_eq_error {f : Option IntegerField} {failure : HeaderFailure} (h : slot? f = .error failure) :
    failure = .escaped .badFormat := by
  cases f with
  | none => cases h
  | some f =>
    change (slot f).map some = _ at h
    cases hs : slot f with
    | error failure' =>
      rw [hs] at h
      cases h
      exact slot_eq_error hs
    | ok s =>
      rw [hs] at h
      cases h

theorem kind_of_headerOf {layout : BinaryLayout} {dataSize : Slot} {version : Option Slot} {start : Nat}
    {bs : Bytes} {e : HeaderError} (h : layout.headerOf dataSize version start bs = .error (.error e)) :
    e.fault.kind ≠ .notRecognized := by
  unfold headerOf at h
  split at h
  · cases h
    simp [HeaderFault.kind]
  · cases h

end BinaryLayout

/-! ## All layouts -/

namespace HeaderLayout

variable {data : Bytes} {start : Nat}

/-- A layout passes over a header whose magic it does not know. -/
def PassesOver (layout : HeaderLayout) (data : Bytes) (start : Nat) : Prop :=
  ∃ fault offset, layout.decode data start = .error (.error ⟨.unknownMagic fault, offset⟩)

/-- A line-oriented layout passes a header over if its magic comes nowhere in the rest of the data. -/
theorem passesOver_text_iff {layout : TextLayout} (hstart : start < data.length) :
    (text layout).PassesOver data start ↔ ¬ layout.magic <:+: data.drop start := by
  have hne : data.drop start ≠ [] := by
    rw [ne_eq, List.drop_eq_nil_iff]
    omega
  rw [← Bytes.search?_eq_none_iff hne]
  unfold PassesOver decode TextLayout.decode
  dsimp only
  cases Bytes.search? layout.magic (data.drop start) with
  | none => simp
  | some k =>
    refine ⟨?_, nofun⟩
    rintro ⟨fault, offset, h⟩
    rcases except_bind_eq_error.1 h with hlines | ⟨found, -, h⟩
    · obtain ⟨e, hlines, he⟩ := except_mapError_eq_error.1 hlines
      cases he
      exact absurd rfl (TextLayout.kind_of_fieldLines hlines)
    · rcases except_bind_eq_error.1 h with hheader | ⟨header, -, h⟩
      · exact absurd rfl (TextLayout.kind_of_headerOf hheader)
      · cases h

/-- A layout with a magic at the start passes a header over if its first bytes do not begin the magic. -/
theorem passesOver_binary_iff {layout : BinaryLayout} : (binary layout).PassesOver data start ↔
    ¬ (data.drop start).take layout.magic.length <+: layout.magic := by
  unfold PassesOver decode BinaryLayout.decode
  dsimp only
  split
  · rw [← List.isPrefixOf_iff_prefix]
    split
    · rename_i hp
      simp [hp]
    · rename_i hp
      simp [hp]
  · rename_i hmagic
    rw [not_not] at hmagic
    rw [hmagic]
    refine ⟨?_, fun h => absurd List.prefix_rfl h⟩
    rintro ⟨fault, offset, h⟩
    rcases except_bind_eq_error.1 h with hs | ⟨dataSize, -, h⟩
    · cases BinaryLayout.slot_eq_error hs
    · rcases except_bind_eq_error.1 h with hs | ⟨version, -, h⟩
      · cases BinaryLayout.slot?_eq_error hs
      · split at h
        · exact nomatch HeaderError.eq_of_failure (Except.error.inj h)
        · rcases except_bind_eq_error.1 h with hheader | ⟨header, -, h⟩
          · exact absurd rfl (BinaryLayout.kind_of_headerOf hheader)
          · cases h

end HeaderLayout

namespace Header

variable {layouts : List HeaderLayout} {layout : HeaderLayout} {data : Bytes} {start : Nat}

theorem detectFrom_of_passesOver (h : layout.PassesOver data start) (passed : List LayoutMismatch)
    (layouts : List HeaderLayout) :
    ∃ mismatch, detectFrom passed data start (layout :: layouts) =
      detectFrom (mismatch :: passed) data start layouts := by
  obtain ⟨fault, offset, h⟩ := h
  exact ⟨⟨layout.name, fault⟩, by rw [detectFrom, h]⟩

theorem detectFrom_of_not_passesOver (h : ¬ layout.PassesOver data start) (passed : List LayoutMismatch) :
    detectFrom passed data start (layout :: layouts) = layout.decode data start := by
  rw [detectFrom]
  split
  · rename_i fault offset hd
    exact absurd ⟨fault, offset, hd⟩ h
  · rfl

theorem not_passesOver_of_decode {r : Header × Nat} (h : layout.decode data start = .ok r) :
    ¬ layout.PassesOver data start := by
  rintro ⟨fault, offset, he⟩
  rw [h] at he
  cases he

/-- A header that is found is read by the first layout that does not pass it over. -/
theorem exists_split_of_detectFrom {r : Header × Nat} {passed : List LayoutMismatch}
    (h : detectFrom passed data start layouts = .ok r) :
    ∃ before layout after, layouts = before ++ layout :: after ∧
      (∀ l ∈ before, l.PassesOver data start) ∧ layout.decode data start = .ok r := by
  induction layouts generalizing passed with
  | nil => cases h
  | cons layout layouts ih =>
    by_cases hp : layout.PassesOver data start
    · obtain ⟨mismatch, hd⟩ := detectFrom_of_passesOver hp passed layouts
      rw [hd] at h
      obtain ⟨before, l, after, rfl, hbefore, hl⟩ := ih h
      exact ⟨layout :: before, l, after, rfl, List.forall_mem_cons.2 ⟨hp, hbefore⟩, hl⟩
    · rw [detectFrom_of_not_passesOver hp] at h
      exact ⟨[], layout, layouts, rfl, nofun, h⟩

end Header

end BinRecord
