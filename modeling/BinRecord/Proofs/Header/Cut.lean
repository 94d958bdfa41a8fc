/-
Headers that end early. What is left of a header that was cut before its end is never read as one: it is reported as
cut off, or, of a line-oriented header that ends before its magic does, as not recognized.
-/
import BinRecord.Proofs.Header.BinaryForm
import BinRecord.Proofs.Header.Extension
import BinRecord.Proofs.Text.Integer

namespace BinRecord

/-! ## Lines -/

namespace TextLayout

theorem joinedLine_of_not_mem {bs : Bytes} (h : newline ∉ bs) (chunks : List Bytes) (offset : Nat) :
    joinedLine chunks offset bs = .error ⟨.unterminatedLine, offset⟩ := by
  refine joinedLine_of_nil (List.dropWhile_eq_nil_iff.2 fun b hb => ?_) chunks offset
  rw [decide_eq_true_eq]
  rintro rfl
  exact h hb

/-- A line that ends early is no line, wherever in its pieces it ends. -/
theorem exists_error_of_joinedLine_take (l : Line) {k : Nat} (hk : k < l.written.length) (chunks : List Bytes)
    (offset : Nat) : ∃ e, joinedLine chunks offset (l.written.take k) = .error e := by
  obtain ⟨joined, last, hjoined, hlast, hjoiner⟩ := l
  simp only [Line.written] at hk ⊢
  induction joined generalizing chunks offset k with
  | nil =>
    have hle : k ≤ last.length := by
      simp only [List.flatMap_nil, List.nil_append, List.length_append, List.length_singleton] at hk
      omega
    rw [List.flatMap_nil, List.nil_append, List.take_append_of_le_length hle]
    exact ⟨_, joinedLine_of_not_mem (fun hmem => hlast (List.mem_of_mem_take hmem)) chunks offset⟩
  | cons piece joined ih =>
    obtain ⟨hpiece, hrest⟩ := List.forall_mem_cons.1 hjoined
    simp only [List.flatMap_cons, List.append_assoc] at hk ih ⊢
    by_cases hle : k ≤ (piece ++ [joiner]).length
    · -- it ends in this piece, or between the joiner and the newline
      have hnewline : newline ∉ piece ++ [joiner] := by
        rw [List.mem_append, not_or]
        exact ⟨hpiece, by decide⟩
      have hcut : ∀ rest : Bytes, piece ++ ([joiner, newline] ++ rest) = (piece ++ [joiner]) ++ newline :: rest := by
        simp
      rw [hcut, List.take_append_of_le_length hle]
      exact ⟨_, joinedLine_of_not_mem (fun hmem => hnewline (List.mem_of_mem_take hmem)) chunks offset⟩
    · rw [List.length_append, List.length_singleton] at hle
      obtain ⟨j, rfl⟩ := Nat.exists_eq_add_of_le (show piece.length + 2 ≤ k by omega)
      have hcut : ∀ rest : Bytes, (piece ++ ([joiner, newline] ++ rest)).take (piece.length + 2 + j) =
          piece ++ [joiner, newline] ++ rest.take j := fun rest => by
        rw [← List.append_assoc, List.take_append, List.take_of_length_le (by simp)]
        simp
      rw [hcut, joinedLine_joined hpiece]
      refine ih _ _ hrest ?_
      simp only [List.length_append, List.length_cons, List.length_nil] at hk ⊢
      omega

/-- Lines that end early, or inside the separator, are reported as cut off. -/
theorem fieldLines_take {separator : Bytes} {lines : List Line} {entries : List (String × String)}
    (hsep : Separated separator lines) (hlines : List.Forall₂ Line.Holds lines entries) {k : Nat}
    (hk : k < (lines.flatMap Line.written ++ separator).length) (fields : OrderedMap String) (offset : Nat) :
    ∃ e, fieldLines separator fields offset ((lines.flatMap Line.written ++ separator).take k) = .error e ∧
      e.fault.kind = .truncatedHeader := by
  induction hlines generalizing fields offset k with
  | nil =>
    simp only [List.flatMap_nil, List.nil_append] at hk ⊢
    have hnot : ¬ separator.isPrefixOf (separator.take k) = true := fun h => by
      have := (List.isPrefixOf_iff_prefix.1 h).length_le
      rw [List.length_take] at this
      omega
    rw [fieldLines, if_neg hnot, if_pos (List.isPrefixOf_iff_prefix.2 (List.take_prefix ..))]
    exact ⟨_, rfl, rfl⟩
  | @cons l field lines entries hl _ ih =>
    obtain ⟨hhead, htail⟩ := separated_cons.1 hsep
    rw [List.flatMap_cons, List.append_assoc] at hk ⊢
    generalize hrest : lines.flatMap Line.written ++ separator = remaining at hhead hk ih ⊢
    have hnot : ¬ separator.isPrefixOf ((l.written ++ remaining).take k) = true := fun h =>
      hhead ((List.isPrefixOf_iff_prefix.1 h).trans (List.take_prefix ..))
    by_cases hend : ((l.written ++ remaining).take k).isPrefixOf separator = true
    · rw [fieldLines, if_neg hnot, if_pos hend]
      exact ⟨_, rfl, rfl⟩
    · rw [fieldLines_step hnot hend]
      by_cases hline : k < l.written.length
      · rw [List.take_append_of_le_length hline.le]
        obtain ⟨e, he⟩ := exists_error_of_joinedLine_take l hline [] offset
        rw [he]
        refine ⟨e, rfl, ?_⟩
        rw [fault_of_joinedLine he]
        rfl
      · -- the line is whole and what remains of the others ends early
        obtain ⟨j, rfl⟩ := Nat.exists_eq_add_of_le (Nat.le_of_not_lt hline)
        have hentry : entry offset ([].reverse.flatten ++ l.text) = .ok field := entry_eq_ok.2 hl
        rw [List.take_length_add_append, joinedLine_written]
        show ∃ e, (entry offset _ >>= _) = _ ∧ _
        rw [hentry]
        rw [List.length_append] at hk
        exact ih htail (by omega) _ _

variable {layout : TextLayout} {data : Bytes} {start : Nat}

/-- What is left of a header that is read is not recognized if it ends before its magic does, and else reported as
cut off. -/
theorem decode_take (hmagic : layout.magic ≠ []) {h : Header} {taken k : Nat}
    (hd : layout.decode data start = .ok (h, taken)) (hk : k < taken) :
    ∃ m e, Bytes.FirstAt layout.magic (data.drop start) m ∧
      layout.decode (data.take (start + k)) start = .error (.error e) ∧
        e.fault.kind = if m + layout.magic.length ≤ k then .truncatedHeader else .notRecognized := by
  obtain ⟨f, fields, rest, hdata, hlines, hs, -⟩ := exists_written_of_decode hd
  obtain ⟨rfl, -⟩ := tells_of_decode hlines (Form.written_ne_nil hlines hs) hdata hd
  have hfirst : Bytes.FirstAt layout.magic f.written f.preamble.length := by
    simp only [Form.written, List.append_assoc]
    rw [← List.append_assoc]
    exact (Bytes.firstAt_append (by simp) _).2 f.magic_first
  have hleft : (data.take (start + k)).drop start = f.written.take k := by
    rw [List.drop_take, Nat.add_sub_cancel_left, hdata, List.take_append_of_le_length hk.le]
  refine ⟨f.preamble.length, ?_⟩
  rw [hdata, Bytes.firstAt_append hfirst.inside]
  unfold decode
  simp only [hleft, Bytes.search?_take hmagic hfirst]
  by_cases hlong : f.preamble.length + layout.magic.length ≤ k
  · obtain ⟨j, rfl⟩ := Nat.exists_eq_add_of_le hlong
    have hbehind : (f.written.take (f.preamble.length + layout.magic.length + j)).drop
        (f.preamble.length + layout.magic.length) = (f.lines.flatMap Line.written ++ layout.separator).take j := by
      rw [List.drop_take, Nat.add_sub_cancel_left]
      simp only [Form.written]
      rw [List.append_assoc (f.preamble ++ layout.magic), List.drop_left' (List.length_append ..)]
    have hj : j < (f.lines.flatMap Line.written ++ layout.separator).length := by
      simp only [Form.written, List.length_append] at hk ⊢
      omega
    obtain ⟨e, he, hkind⟩ := fieldLines_take f.separated hlines hj []
      (start + (f.preamble.length + layout.magic.length))
    rw [if_pos hlong, if_pos hlong]
    simp only [hbehind, he]
    exact ⟨e, hfirst, rfl, hkind⟩
  · rw [if_neg hlong, if_neg hlong]
    exact ⟨_, hfirst, rfl, rfl⟩

end TextLayout

/-! ## Fixed offsets -/

namespace BinaryLayout

variable {layout : BinaryLayout} {data : Bytes} {start : Nat}

/-- The slots of a layout that reads a header are known. -/
theorem exists_hasSlots_of_decode {r : Header × Nat} (h : layout.decode data start = .ok r) :
    ∃ dataSize version, layout.HasSlots dataSize version := by
  unfold decode at h
  dsimp only at h
  split at h
  · split at h <;> cases h
  · obtain ⟨dataSize, hs, h⟩ := except_bind_eq_ok.1 h
    obtain ⟨version, hv, -⟩ := except_bind_eq_ok.1 h
    exact ⟨dataSize, version, slot_eq_ok.1 hs, slot?_eq_ok.1 hv⟩

/-- No byte of the magic differs in what is left of some data. -/
theorem MagicDiffers.of_take {n : Nat} (h : layout.MagicDiffers (data.take n) start) :
    layout.MagicDiffers data start := by
  obtain ⟨i, b, m, hb, hm, hne⟩ := h
  refine ⟨i, b, m, ?_, hm, hne⟩
  rw [List.getElem?_take] at hb
  split at hb
  · exact hb
  · cases hb

/-- What is left of a header that is read is reported as cut off, unless the data has so many bytes that their number
has too many digits. -/
theorem decode_take {h : Header} {taken k : Nat} (hd : layout.decode data start = .ok (h, taken)) (hk : k < taken) :
    Refused .truncatedHeader (layout.decode (data.take (start + k)) start) ∨
      10 ^ digitLimit ≤ data.length ∧ layout.decode (data.take (start + k)) start = .error (.escaped .unwritable) := by
  obtain ⟨dataSize, version, hslots⟩ := exists_hasSlots_of_decode hd
  have hwhole := decode_outcome hslots data start
  have hcut := decode_outcome hslots (data.take (start + k)) start
  rw [hd] at hwhole
  cases hwhole with
  | found hsame hwhole _ =>
    have hlen : (data.take (start + k)).length ≤ start + k := List.length_take_le ..
    have hneed : 10 ^ digitLimit ≤ data.length ∨
        layout.NeedWritable dataSize version (data.take (start + k)) start := by
      refine or_iff_not_imp_left.2 fun hle => ?_
      have hwritable : Text.isWritable data.length = true := Text.isWritable_iff.2 (Nat.not_le.1 hle)
      have hshorter : (data.take (start + k)).length ≤ data.length := List.length_take_le' ..
      exact ⟨Text.isWritable_of_le (by omega) hwritable, Text.isWritable_of_le (by omega) hwritable⟩
    generalize layout.decode (data.take (start + k)) start = result at hcut ⊢
    cases hcut with
    | differs hdiffers _ => exact absurd hdiffers.of_take hsame
    | short _ _ _ hkind => exact .inl (refused_error.2 hkind)
    | unwritable _ _ _ hunwritable => exact .inr ⟨hneed.resolve_right hunwritable, rfl⟩
    | negative _ henough => omega
    | found _ henough => omega

end BinaryLayout

/-! ## All layouts -/

namespace HeaderLayout

/-- The magic of a line-oriented layout does not end in the first bytes. -/
def MagicEndsAfter (layout : HeaderLayout) (bs : Bytes) (k : Nat) : Prop :=
  ∃ (t : TextLayout) (m : Nat), layout = .text t ∧ Bytes.FirstAt t.magic bs m ∧ k < m + t.magic.length

/-- What is left of a header that is read, cut anywhere before its end, is refused as cut off. Only if a line-oriented
header ends before its magic does it is not recognized. A number of bytes of more digits than can be written, which
no memory holds, would escape. -/
theorem decode_cut {layout : HeaderLayout} (hmagic : ∀ t, layout = .text t → t.magic ≠ []) {data : Bytes}
    {start : Nat} {h : Header} {taken k : Nat} (hd : layout.decode data start = .ok (h, taken)) (hk : k < taken) :
    (layout.MagicEndsAfter (data.drop start) k →
      Refused .notRecognized (layout.decode (data.take (start + k)) start)) ∧
    (¬ layout.MagicEndsAfter (data.drop start) k →
      Refused .truncatedHeader (layout.decode (data.take (start + k)) start) ∨
        10 ^ digitLimit ≤ data.length ∧
          layout.decode (data.take (start + k)) start = .error (.escaped .unwritable)) := by
  cases layout with
  | text layout =>
    obtain ⟨m, e, hfirst, he, hkind⟩ := TextLayout.decode_take (hmagic layout rfl) hd hk
    have hends : (text layout).MagicEndsAfter (data.drop start) k ↔ ¬ m + layout.magic.length ≤ k := by
      constructor
      · rintro ⟨t, m', ht, hfirst', hlt⟩
        cases ht
        rw [hfirst'.unique hfirst] at hlt
        omega
      · exact fun hlt => ⟨layout, m, rfl, hfirst, by omega⟩
    rw [hends, decode, he, refused_error, refused_error, hkind]
    exact ⟨fun hlt => if_neg hlt, fun hle => .inl (if_pos (not_not.1 hle))⟩
  | binary layout =>
    refine ⟨?_, fun _ => BinaryLayout.decode_take hd hk⟩
    rintro ⟨t, m, ht, -⟩
    cases ht

/-- A header with a joined line, between other bytes. -/
def joinedHeader : Bytes := "..WN\nk=a\\\nb\ndata_size=7\n\x04\x1a..".toList.map fun c => c.toNat.toUInt8

/-- Cuts inside the magic, between a joiner and its newline, and inside the separator. -/
theorem decode_cut_joined : Refused .notRecognized ((text {}).decode (joinedHeader.take (2 + 2)) 2) ∧
    Refused .truncatedHeader ((text {}).decode (joinedHeader.take (2 + 7)) 2) ∧
    Refused .truncatedHeader ((text {}).decode (joinedHeader.take (2 + 23)) 2) := by
  have hread : ((text {}).decode joinedHeader 2).toOption.map (·.2) = some 24 := by decide +kernel
  obtain ⟨⟨h, taken⟩, hd, htaken⟩ := Option.map_eq_some_iff.1 hread
  cases htaken
  rw [except_toOption_eq_some] at hd
  have hmagic : ∀ t, HeaderLayout.text {} = .text t → t.magic ≠ [] := fun t ht => by
    cases ht
    decide
  have hfirst : Bytes.FirstAt ({} : TextLayout).magic (joinedHeader.drop 2) 0 := Bytes.firstAt_zero (by decide)
  have hbehind : ∀ k, 3 ≤ k → ¬ (text {}).MagicEndsAfter (joinedHeader.drop 2) k := by
    rintro k hk ⟨t, m, ht, hm, hlt⟩
    cases ht
    rw [hm.unique hfirst] at hlt
    exact absurd hlt (Nat.not_lt.2 hk)
  have hwritable : Text.isWritable joinedHeader.length = true := by decide
  have hshort : ¬ 10 ^ digitLimit ≤ joinedHeader.length := Nat.not_le.2 (Text.isWritable_iff.1 hwritable)
  refine ⟨?_, ?_, ?_⟩
  · exact (decode_cut hmagic hd (by decide)).1 ⟨{}, 0, rfl, hfirst, by decide⟩
  · exact ((decode_cut hmagic hd (by decide)).2 (hbehind 7 (by decide))).resolve_right fun h => hshort h.1
  · exact ((decode_cut hmagic hd (by decide)).2 (hbehind 23 (by decide))).resolve_right fun h => hshort h.1

end HeaderLayout

end BinRecord
