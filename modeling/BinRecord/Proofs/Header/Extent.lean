/-
The extent of headers: a header that any layout finds takes at least one byte and lies inside the data.
-/
import BinRecord.Proofs.Header.Recognition

namespace BinRecord

/-! ## Lines -/

namespace TextLayout

theorem length_takeWhile_add {p : UInt8 → Bool} {bs rest : Bytes} {b : UInt8} (h : bs.dropWhile p = b :: rest) :
    (bs.takeWhile p).length + 1 + rest.length = bs.length := by
  have := congrArg List.length (List.takeWhile_append_dropWhile (p := p) (l := bs))
  rw [List.length_append, h, List.length_cons] at this
  omega

/-- What follows a line stands right after it. -/
theorem joinedLine_extent {chunks : List Bytes} {offset next : Nat} {bs line rest : Bytes}
    (h : joinedLine chunks offset bs = .ok (line, next, rest)) :
    next + rest.length = offset + bs.length ∧ offset < next := by
  fun_induction joinedLine chunks offset bs with
  | case1 => cases h
  | case2 chunks offset bs b r hd chunk next' _ ih =>
    have hlen : chunk.length + 1 + r.length = bs.length := length_takeWhile_add hd
    have hnext : next' = offset + chunk.length + 1 := rfl
    have := ih h
    omega
  | case3 chunks offset bs b r hd chunk next' =>
    have hlen : chunk.length + 1 + r.length = bs.length := length_takeWhile_add hd
    have hnext : next' = offset + chunk.length + 1 := rfl
    simp only [Except.ok.injEq, Prod.mk.injEq] at h
    obtain ⟨-, rfl, rfl⟩ := h
    omega

/-- The lines of a header end inside the bytes; if there are none, no fields are added. -/
theorem fieldLines_extent {separator : Bytes} {fields fields' : OrderedMap String} {offset stop : Nat} {bs : Bytes}
    (h : fieldLines separator fields offset bs = .ok (fields', stop)) :
    offset ≤ stop ∧ stop ≤ offset + bs.length ∧ (fields' = fields ∨ offset < stop) := by
  fun_induction fieldLines separator fields offset bs with
  | case1 fields offset bs hsep =>
    cases h
    have := (List.isPrefixOf_iff_prefix.1 hsep).length_le
    exact ⟨by omega, by omega, .inl rfl⟩
  | case2 => cases h
  | case3 => cases h
  | case4 => cases h
  | case5 fields offset bs _ _ line next rest hline key value _ ih =>
    have := joinedLine_extent hline
    have := ih h
    exact ⟨by omega, by omega, .inr (by omega)⟩

theorem fields_ne_nil_of_headerOf {layout : TextLayout} {magicAt : Nat} {fields : OrderedMap String}
    {header : Header} (h : layout.headerOf magicAt fields = .ok header) : fields ≠ [] := by
  rintro rfl
  cases h

theorem decode_extent {layout : TextLayout} {data : Bytes} {start size : Nat} {header : Header}
    (h : layout.decode data start = .ok (header, size)) : 0 < size ∧ start + size ≤ data.length := by
  unfold decode at h
  dsimp only at h
  split at h
  · cases h
  · rename_i k hk
    obtain ⟨⟨fields, stop⟩, hlines, h₁⟩ := except_bind_eq_ok.1 h
    obtain ⟨header', hheader, h₂⟩ := except_bind_eq_ok.1 h₁
    obtain ⟨hin, hne⟩ := Bytes.inside_of_search? hk
    obtain ⟨hle, hstop, hfields⟩ := fieldLines_extent (except_mapError_eq_ok.1 hlines)
    have hlt := hfields.resolve_left (fields_ne_nil_of_headerOf hheader)
    cases h₂
    rw [List.length_drop, List.length_drop] at hstop
    rw [List.length_drop] at hin
    have : start < data.length := by
      by_contra hge
      exact hne (List.drop_eq_nil_of_le (by omega))
    omega

end TextLayout

/-! ## Fixed offsets -/

theorem IntegerWidth.bytes_pos (w : IntegerWidth) : 0 < w.bytes := by
  cases w <;> decide

namespace BinaryLayout

theorem headerSize_pos (layout : BinaryLayout) (dataSize : Slot) (version : Option Slot) :
    0 < layout.headerSize dataSize version := by
  have := dataSize.format.width.bytes_pos
  unfold headerSize Slot.stop
  omega

theorem decode_extent {layout : BinaryLayout} {data : Bytes} {start size : Nat} {header : Header}
    (h : layout.decode data start = .ok (header, size)) : 0 < size ∧ start + size ≤ data.length := by
  unfold decode at h
  dsimp only at h
  split at h
  · split at h <;> cases h
  · obtain ⟨dataSize, -, h₁⟩ := except_bind_eq_ok.1 h
    obtain ⟨version, -, h₂⟩ := except_bind_eq_ok.1 h₁
    have hpos := layout.headerSize_pos dataSize version
    split at h₂
    · cases h₂
    · obtain ⟨header', -, h₃⟩ := except_bind_eq_ok.1 h₂
      cases h₃
      omega

end BinaryLayout

/-! ## All layouts -/

theorem HeaderLayout.decode_extent {layout : HeaderLayout} {data : Bytes} {start size : Nat} {header : Header}
    (h : layout.decode data start = .ok (header, size)) : 0 < size ∧ start + size ≤ data.length := by
  cases layout with
  | text layout => exact TextLayout.decode_extent h
  | binary layout => exact BinaryLayout.decode_extent h

/-- A header takes at least one byte and lies inside the data. -/
theorem Header.detect_extent {layouts : List HeaderLayout} {data : Bytes} {start size : Nat} {header : Header}
    (h : detect layouts data start = .ok (header, size)) : 0 < size ∧ start + size ≤ data.length := by
  obtain ⟨-, layout, -, -, -, hd⟩ := exists_split_of_detectFrom h
  exact layout.decode_extent hd

end BinRecord
