/-
Where a field of a header is reported to be no UTF-8. The place of the first ill-formed byte within the key or the
value is added to the start of the line. So the error lies at this byte only if it is one of the key and no line
was joined before it; else it lies before, by what stands in front of the value and by two bytes for each
joined line.
-/
import BinRecord.Proofs.Header.Recognition
import BinRecord.Proofs.Header.TextForm
import BinRecord.Proofs.Text.Malformed

namespace BinRecord.TextLayout

/-! ## Places in joined lines -/

/-- Where a byte of joined pieces stands if every piece but the last is followed by a joiner and a newline. -/
def placeIn : List Bytes → Nat → Nat
  | [], i => i
  | piece :: joined, i => if i < piece.length then i else piece.length + 2 + placeIn joined (i - piece.length)

/-- Where a byte of a line stands in the pieces in which the line is written. -/
def Line.place (l : Line) (i : Nat) : Nat := placeIn l.joined i

theorem le_placeIn (joined : List Bytes) (i : Nat) : i ≤ placeIn joined i := by
  induction joined generalizing i with
  | nil => exact Nat.le_refl i
  | cons piece joined ih =>
    rw [placeIn]
    split
    · exact Nat.le_refl i
    · have := ih (i - piece.length)
      omega

/-- A byte stands where it would without joins if it is one of the first piece. -/
theorem placeIn_eq_self_iff {joined : List Bytes} {i : Nat} :
    placeIn joined i = i ↔ ∀ piece, joined.head? = some piece → i < piece.length := by
  cases joined with
  | nil => simp [placeIn]
  | cons piece joined =>
    have := le_placeIn joined (i - piece.length)
    simp only [placeIn, List.head?_cons, Option.some.injEq, forall_eq']
    constructor
    · intro h
      split at h <;> omega
    · exact fun h => if_pos h

theorem getElem?_placeIn {last rest : Bytes} {joined : List Bytes} {i : Nat}
    (hi : i < (joined.flatten ++ last).length) :
    (joined.flatMap (· ++ [joiner, newline]) ++ (last ++ rest))[placeIn joined i]? =
      (joined.flatten ++ last)[i]? := by
  induction joined generalizing i with
  | nil =>
    simp only [List.flatMap_nil, List.flatten_nil, List.nil_append, placeIn] at hi ⊢
    rw [List.getElem?_append_left hi]
  | cons piece joined ih =>
    simp only [List.flatMap_cons, List.flatten_cons, List.append_assoc, placeIn] at hi ⊢
    rw [List.length_append] at hi
    by_cases hpiece : i < piece.length
    · rw [if_pos hpiece, List.getElem?_append_left hpiece, List.getElem?_append_left hpiece]
    · -- the piece, the joiner and the newline stand before
      have hskip : ∀ (tail : Bytes) k, (piece ++ ([joiner, newline] ++ tail))[piece.length + 2 + k]? = tail[k]? :=
        fun tail k => by
          rw [Nat.add_assoc, List.getElem?_append_right (by omega), Nat.add_sub_cancel_left, Nat.add_comm 2]
          rfl
      rw [if_neg hpiece, hskip, ih (by omega), List.getElem?_append_right (Nat.le_of_not_lt hpiece)]

/-- The byte of a line is found at its place. -/
theorem Line.getElem?_place (l : Line) {i : Nat} (hi : i < l.text.length) (rest : Bytes) :
    (l.written ++ rest)[l.place i]? = l.text[i]? := by
  unfold written
  rw [List.append_assoc, List.append_assoc]
  exact getElem?_placeIn hi

theorem Line.eq_place_iff {l : Line} {skipped i : Nat} : i = l.place (skipped + i) ↔
    skipped = 0 ∧ ∀ piece, l.joined.head? = some piece → i < piece.length := by
  rw [← placeIn_eq_self_iff]
  have hle := le_placeIn l.joined (skipped + i)
  unfold place
  constructor
  · intro h
    obtain rfl : skipped = 0 := by omega
    rw [Nat.zero_add] at h
    exact ⟨rfl, h.symm⟩
  · rintro ⟨rfl, h⟩
    rw [Nat.zero_add, h]

/-! ## Ill-formed fields -/

/-- The part of a line to blame for a field that is no UTF-8, and how far into the line it starts: the value, or the
key of a value that is UTF-8. -/
inductive Line.Blamed (l : Line) : Nat → Bytes → Prop
  | value {key value : Bytes} : l.text = key ++ equals :: value → equals ∉ key → Blamed l (key.length + 1) value
  | key {key value : Bytes} {cs : List Char} : l.text = key ++ equals :: value → equals ∉ key →
      Text.Utf8.decode value = .ok cs → Blamed l 0 key

theorem Line.Blamed.getElem? {l : Line} {skipped i : Nat} {part : Bytes} (h : l.Blamed skipped part)
    (hi : i < part.length) : skipped + i < l.text.length ∧ l.text[skipped + i]? = part[i]? := by
  cases h with
  | @value key _ htext =>
    rw [htext, List.length_append, List.length_cons, List.getElem?_append_right (by omega)]
    have hskip : key.length + 1 + i - key.length = i + 1 := by omega
    rw [hskip, List.getElem?_cons_succ]
    exact ⟨by omega, rfl⟩
  | key htext =>
    rw [htext, Nat.zero_add, List.length_append, List.getElem?_append_left hi]
    exact ⟨by omega, rfl⟩

theorem entry_eq_notUtf8 {offset : Nat} {l : Line} {m : Text.Malformed} {o : Int}
    (h : entry offset l.text = .error ⟨.notUtf8 m, o⟩) : o = (offset + m.start : Nat) ∧
      ∃ skipped part, l.Blamed skipped part ∧ Text.ValidUpTo Text.Utf8.decode part m.start := by
  unfold entry at h
  split at h
  · cases h
  · rename_i b value hd
    obtain ⟨hcut, hequals⟩ := eq_append_of_dropWhile_ne hd
    split at h
    · rename_i hvalue
      cases h
      exact ⟨rfl, _, _, .value hcut hequals, Text.validUpTo_of_decodeWith Text.prompt_utf8 hvalue⟩
    · rename_i hkey hvalue
      cases h
      cases hv : Text.Utf8.decode value with
      | error m' => exact absurd hv (hvalue m')
      | ok cs => exact ⟨rfl, _, _, .key hcut hequals hv, Text.validUpTo_of_decodeWith Text.prompt_utf8 hkey⟩
    · cases h

/-- A field that is no UTF-8 is found in the first line that holds none. -/
theorem fieldLines_eq_notUtf8 {separator : Bytes} {fields : OrderedMap String} {offset : Nat} {bs : Bytes}
    {m : Text.Malformed} {o : Int} (h : fieldLines separator fields offset bs = .error ⟨.notUtf8 m, o⟩) :
    ∃ (lines : List Line) (l : Line) (rest : Bytes) (skipped : Nat) (part : Bytes),
      bs = lines.flatMap Line.written ++ (l.written ++ rest) ∧ (∃ entries, List.Forall₂ Line.Holds lines entries) ∧
      l.Blamed skipped part ∧ Text.ValidUpTo Text.Utf8.decode part m.start ∧
      o = (offset + (lines.flatMap Line.written).length + m.start : Nat) := by
  fun_induction fieldLines separator fields offset bs with
  | case1 => cases h
  | case2 => cases h
  | case3 _ _ _ _ _ e hline =>
    cases h
    cases fault_of_joinedLine hline
  | case4 fields offset bs _ _ text next rest hline e hentry =>
    cases h
    obtain ⟨l, rfl, rfl⟩ := exists_written_of_joinedLine hline
    obtain ⟨rfl, skipped, part, hpart, hvalid⟩ := entry_eq_notUtf8 hentry
    exact ⟨[], l, rest, skipped, part, rfl, ⟨[], .nil⟩, hpart, hvalid, rfl⟩
  | case5 fields offset bs _ _ text next rest hline key value hentry ih =>
    obtain ⟨l, rfl, rfl⟩ := exists_written_of_joinedLine hline
    rw [joinedLine_written] at hline
    cases hline
    obtain ⟨lines, l', rest, skipped, part, rfl, ⟨entries, hlines⟩, hpart, hvalid, rfl⟩ := ih h
    refine ⟨l :: lines, l', rest, skipped, part, by simp,
      ⟨(key, value) :: entries, .cons (entry_eq_ok.1 hentry) hlines⟩, hpart, hvalid, ?_⟩
    simp only [List.flatMap_cons, List.length_append]
    omega

theorem fault_of_headerOf {layout : TextLayout} {magicAt : Nat} {fields : OrderedMap String} {e : HeaderError}
    (h : layout.headerOf magicAt fields = .error (.error e)) (m : Text.Malformed) : e.fault ≠ .notUtf8 m := by
  rcases headerOf_eq_error h with ⟨n, hn⟩ | ⟨e', he, -, hfault⟩
  · cases hn
  · cases he
    rcases hfault with hfault | ⟨value, hfault⟩ | ⟨name, hfault⟩ <;> simp [hfault]

/-! ## Errors of headers -/

/-- An error at `reported` says that a field is no UTF-8. It is one of a line at `lineStart`, behind lines that hold
fields, and the key or the value to blame is valid up to a byte which stands at its place in this line. The error
lies as far behind the start of the line as the byte behind the start of the key or value. -/
structure ReportsNotUtf8 (layout : TextLayout) (data : Bytes) (start : Nat) (m : Text.Malformed) (reported : Int)
    (lines : List Line) (l : Line) (lineStart skipped : Nat) (part : Bytes) : Prop where
  written : ∃ preamble rest,
    data.drop start = preamble ++ layout.magic ++ lines.flatMap Line.written ++ l.written ++ rest ∧
    lineStart = start + (preamble ++ layout.magic ++ lines.flatMap Line.written).length
  fields : ∃ entries, List.Forall₂ Line.Holds lines entries
  blamed : l.Blamed skipped part
  valid : Text.ValidUpTo Text.Utf8.decode part m.start
  place : reported = (lineStart + m.start : Nat)
  byte : data[lineStart + l.place (skipped + m.start)]? = part[m.start]?
  exact_iff : reported = (lineStart + l.place (skipped + m.start) : Nat) ↔
    skipped = 0 ∧ ∀ piece, l.joined.head? = some piece → m.start < piece.length

/-- A field that is no UTF-8 is reported at the first ill-formed byte exactly if this is a byte of the key, with no
line joined before it. -/
theorem decode_reports_notUtf8 (layout : TextLayout) (data : Bytes) (start : Nat) (m : Text.Malformed) (o : Int)
    (h : layout.decode data start = .error (.error ⟨.notUtf8 m, o⟩)) :
    ∃ lines l lineStart skipped part, layout.ReportsNotUtf8 data start m o lines l lineStart skipped part := by
  unfold decode at h
  dsimp only at h
  split at h
  · cases h
  · rename_i k hk
    rcases except_bind_eq_error.1 h with h | ⟨⟨fields, stop⟩, -, h⟩
    · obtain ⟨e, h, he⟩ := except_mapError_eq_error.1 h
      cases he
      obtain ⟨preamble, after, hcut, rfl, hdrop⟩ := (Bytes.search?_eq_some_iff.1 hk).1.cut
      rw [hdrop] at h
      obtain ⟨lines, l, rest, skipped, part, rfl, hlines, hpart, hvalid, rfl⟩ := fieldLines_eq_notUtf8 h
      have hwritten : data.drop start =
          (preamble ++ layout.magic ++ lines.flatMap Line.written) ++ (l.written ++ rest) := by
        rw [hcut, List.append_assoc, List.append_assoc, List.append_assoc]
      have hstart : start + (preamble.length + layout.magic.length) + (lines.flatMap Line.written).length =
          start + (preamble ++ layout.magic ++ lines.flatMap Line.written).length := by
        simp only [List.length_append]
        omega
      obtain ⟨hin, hbyte⟩ := hpart.getElem? hvalid.inside
      rw [hstart]
      refine ⟨lines, l, _, skipped, part, ⟨preamble, rest, by rw [hwritten, List.append_assoc _ l.written], rfl⟩,
        hlines, hpart, hvalid, rfl, ?_, ?_⟩
      · rw [← hbyte, ← l.getElem?_place hin rest, Nat.add_assoc, ← List.getElem?_drop, hwritten,
          List.getElem?_append_right (by omega), Nat.add_sub_cancel_left]
      · rw [Nat.cast_inj, Nat.add_left_cancel_iff, Line.eq_place_iff]
    · rcases except_bind_eq_error.1 h with h | ⟨header, -, h⟩
      · exact absurd rfl (fault_of_headerOf h m)
      · cases h

/-- The fourth byte after the magic is reported as the first, for it is the first of the value. -/
theorem decode_reports_notUtf8_value : ∃ m o,
    decode {} [0x57, 0x4E, 0x0A, 0x6B, 0x6B, 0x3D, 0xFF, 0x0A, 0x04, 0x1A] 0 = .error (.error ⟨.notUtf8 m, o⟩) ∧ o = 3 ∧
    ∃ lines l lineStart skipped part, ReportsNotUtf8 {}
      [0x57, 0x4E, 0x0A, 0x6B, 0x6B, 0x3D, 0xFF, 0x0A, 0x04, 0x1A] 0 m o lines l lineStart skipped part := by
  have herror : decode {} [0x57, 0x4E, 0x0A, 0x6B, 0x6B, 0x3D, 0xFF, 0x0A, 0x04, 0x1A] 0 =
      .error (.error ⟨.notUtf8 ⟨"utf-8", 0, 1, 0xFF, "invalid start byte"⟩, 3⟩) := by decide +kernel
  exact ⟨_, _, herror, rfl, decode_reports_notUtf8 _ _ _ _ _ herror⟩

end BinRecord.TextLayout
