/-
Headers with more bytes behind them. The layout that reads a header reads the same one from longer data, and
layouts with fields at fixed offsets pass the same headers over. A line-oriented layout looks for its magic
in all of the data: what it passes over, it passes over only until its magic comes.
-/
import BinRecord.Proofs.Header.Extent
import BinRecord.Proofs.Header.TextForm

namespace BinRecord

/-! ## Lines -/

namespace TextLayout

variable {layout : TextLayout} {data : Bytes} {start : Nat}

theorem decode_append {r : Header × Nat} (h : layout.decode data start = .ok r) (tail : Bytes) :
    layout.decode (data ++ tail) start = .ok r := by
  obtain ⟨header, size⟩ := r
  obtain ⟨f, fields, rest, hdata, hlines, hs, -⟩ := exists_written_of_decode h
  have hne := Form.written_ne_nil hlines hs
  have hle := add_length_le hne hdata
  have hlonger : (data ++ tail).drop start = f.written ++ (rest ++ tail) := by
    rw [List.drop_append_of_le_length (by omega), hdata, List.append_assoc]
  rw [decode_written hlines hne hlonger, ← decode_written hlines hne hdata, h]

/-- A header that is read holds the magic. -/
theorem magic_infix_of_decode {header : Header} {size : Nat} (h : layout.decode data start = .ok (header, size)) :
    layout.magic <:+: (data.drop start).take size := by
  obtain ⟨f, fields, rest, hdata, hlines, hs, -⟩ := exists_written_of_decode h
  obtain ⟨rfl, -⟩ := tells_of_decode hlines (Form.written_ne_nil hlines hs) hdata h
  rw [hdata, List.take_left]
  exact ⟨f.preamble, f.lines.flatMap Line.written ++ layout.separator, by simp [Form.written]⟩

end TextLayout

/-! ## Fixed offsets -/

theorem IntegerFormat.read_append (f : IntegerFormat) {offset : Nat} {bs : Bytes}
    (h : offset + f.width.bytes ≤ bs.length) (tail : Bytes) : f.read offset (bs ++ tail) = f.read offset bs := by
  unfold read
  rw [List.drop_append_of_le_length (by omega), List.take_append_of_le_length]
  rw [List.length_drop]
  omega

namespace BinaryLayout

theorem headerOf_append (layout : BinaryLayout) {dataSize : Slot} {version : Option Slot} {bs : Bytes}
    (h : layout.headerSize dataSize version ≤ bs.length) (start : Nat) (tail : Bytes) :
    layout.headerOf dataSize version start (bs ++ tail) = layout.headerOf dataSize version start bs := by
  have hsize : dataSize.offset + dataSize.format.width.bytes ≤ bs.length := by
    unfold headerSize Slot.stop at h
    omega
  have hversion : version.map (fun v => v.format.read v.offset (bs ++ tail)) =
      version.map fun v => v.format.read v.offset bs := by
    cases version with
    | none => rfl
    | some v =>
      have hv : v.offset + v.format.width.bytes ≤ bs.length := by
        simp only [headerSize, Slot.stop, Option.map_some, Option.getD_some] at h
        omega
      rw [Option.map_some, Option.map_some, v.format.read_append hv]
  unfold headerOf
  rw [dataSize.format.read_append hsize, hversion]

theorem decode_append {layout : BinaryLayout} {data : Bytes} {start : Nat} {r : Header × Nat}
    (h : layout.decode data start = .ok r) (tail : Bytes) : layout.decode (data ++ tail) start = .ok r := by
  obtain ⟨header, size⟩ := r
  obtain ⟨-, hle⟩ := decode_extent h
  unfold decode at h ⊢
  rw [List.drop_append_of_le_length (by omega)]
  dsimp only at h ⊢
  split at h
  · split at h <;> cases h
  · rename_i hmagic
    rw [not_not] at hmagic
    have hlen : layout.magic.length ≤ (data.drop start).length := by
      rw [← hmagic, List.length_take]
      omega
    rw [List.take_append_of_le_length hlen, if_neg (not_not.2 hmagic)]
    obtain ⟨dataSize, hs, h₁⟩ := except_bind_eq_ok.1 h
    obtain ⟨version, hv, h₂⟩ := except_bind_eq_ok.1 h₁
    refine except_bind_eq_ok.2 ⟨dataSize, hs, except_bind_eq_ok.2 ⟨version, hv, ?_⟩⟩
    split at h₂
    · cases h₂
    · rename_i henough
      have hbs : layout.headerSize dataSize version ≤ (data.drop start).length := by
        rw [List.length_drop]
        omega
      rw [headerOf_append layout hbs, if_neg (by rw [List.length_append]; omega)]
      exact h₂

end BinaryLayout

/-! ## All layouts -/

namespace HeaderLayout

variable {data : Bytes} {start : Nat}

theorem decode_append {layout : HeaderLayout} {r : Header × Nat} (h : layout.decode data start = .ok r)
    (tail : Bytes) : layout.decode (data ++ tail) start = .ok r := by
  cases layout with
  | text layout => exact TextLayout.decode_append h tail
  | binary layout => exact BinaryLayout.decode_append h tail

/-- Bytes that do not begin the magic still do not when more come after them. -/
theorem PassesOver.append {layout : BinaryLayout} (h : (binary layout).PassesOver data start)
    (hstart : start ≤ data.length) (tail : Bytes) : (binary layout).PassesOver (data ++ tail) start := by
  rw [passesOver_binary_iff] at h ⊢
  refine fun hp => h (List.IsPrefix.trans ?_ hp)
  rw [List.drop_append_of_le_length hstart]
  exact (List.prefix_append ..).take _

end HeaderLayout

namespace Header

variable {layouts : List HeaderLayout} {layout : HeaderLayout} {data : Bytes} {start : Nat}

/-- With more data the same header is found, unless the magic of a line-oriented layout that was passed over
comes in it. -/
theorem detectFrom_append_iff {before after : List HeaderLayout} {r : Header × Nat}
    (hbefore : ∀ l ∈ before, l.PassesOver data start) (hd : layout.decode data start = .ok r) (tail : Bytes)
    (passed : List LayoutMismatch) :
    detectFrom passed (data ++ tail) start (before ++ layout :: after) = .ok r ↔
      ∀ t, .text t ∈ before → ¬ t.magic <:+: (data ++ tail).drop start := by
  obtain ⟨header, size⟩ := r
  obtain ⟨hsize, hle⟩ := layout.decode_extent hd
  have hstart : start < (data ++ tail).length := by
    rw [List.length_append]
    omega
  induction before generalizing passed with
  | nil =>
    have hlonger := HeaderLayout.decode_append hd tail
    rw [List.nil_append, detectFrom_of_not_passesOver (not_passesOver_of_decode hlonger), hlonger]
    exact ⟨fun _ => nofun, fun _ => rfl⟩
  | cons l before ih =>
    obtain ⟨hl, hrest⟩ := List.forall_mem_cons.1 hbefore
    cases l with
    | binary l =>
      obtain ⟨mismatch, hskip⟩ :=
        detectFrom_of_passesOver (hl.append (by omega) tail) passed (before ++ layout :: after)
      rw [List.cons_append, hskip]
      refine (ih hrest (mismatch :: passed)).trans ?_
      simp
    | text t =>
      by_cases hp : (HeaderLayout.text t).PassesOver (data ++ tail) start
      · obtain ⟨mismatch, hskip⟩ := detectFrom_of_passesOver hp passed (before ++ layout :: after)
        have ht := (HeaderLayout.passesOver_text_iff hstart).1 hp
        rw [List.cons_append, hskip]
        refine (ih hrest (mismatch :: passed)).trans ?_
        simp [ht]
      · -- the magic comes only in the new bytes, so a header that is read ends there
        have hmagic := mt (HeaderLayout.passesOver_text_iff hstart).2 hp
        rw [List.cons_append, detectFrom_of_not_passesOver hp]
        refine ⟨fun h => absurd ?_ ((HeaderLayout.passesOver_text_iff (by omega)).1 hl),
          fun h => absurd (h t (List.mem_cons_self ..)) hmagic⟩
        have hheld := TextLayout.magic_infix_of_decode h
        rw [List.drop_append_of_le_length (by omega),
          List.take_append_of_le_length (by rw [List.length_drop]; omega)] at hheld
        exact hheld.trans (List.take_prefix ..).isInfix

/-- A header that is found is read by the first layout that does not pass it over. With more bytes behind it
the same header is found exactly if no line-oriented layout before finds its magic now: such a layout looks
for it in all of the data, and comes first. -/
theorem detect_append_iff {r : Header × Nat} (h : detect layouts data start = .ok r) :
    ∃ before layout after, layouts = before ++ layout :: after ∧
      (∀ l ∈ before, l.PassesOver data start) ∧ layout.decode data start = .ok r ∧
      ∀ tail, detect layouts (data ++ tail) start = .ok r ↔
        ∀ t, .text t ∈ before → ¬ t.magic <:+: (data ++ tail).drop start := by
  obtain ⟨before, layout, after, rfl, hbefore, hd⟩ := exists_split_of_detectFrom h
  exact ⟨before, layout, after, rfl, hbefore, hd, fun tail => detectFrom_append_iff hbefore hd tail []⟩

/-- The default layout, and then one with a magic and the size of the payload in two bytes each. -/
def textFirst : List HeaderLayout :=
  [.text {}, .binary { magic := [0x52, 0x52], dataSize := ⟨2, some ⟨.two, false, .big⟩⟩ }]

/-- Bytes without the magic of the default layout do not change which header is found. -/
theorem detect_append_iff_textFirst : ∃ r, detect textFirst [0x52, 0x52, 0, 1] 0 = .ok r ∧
    detect textFirst ([0x52, 0x52, 0, 1] ++ [0x57, 0x4e]) 0 = .ok r := by
  have hfound : detect textFirst [0x52, 0x52, 0, 1] 0 =
      .ok (⟨"binary", 1, [("data_size", "1")], [0x52, 0x52], none⟩, 4) := by
    decide +kernel
  obtain ⟨before, layout, after, hsplit, -, -, hiff⟩ := detect_append_iff hfound
  refine ⟨_, hfound, (hiff _).2 fun t ht => ?_⟩
  have hmem : HeaderLayout.text t ∈ textFirst := by
    rw [hsplit, List.mem_append]
    exact .inl ht
  simp only [textFirst, List.mem_cons, HeaderLayout.text.injEq, reduceCtorEq, List.not_mem_nil, or_self,
    or_false] at hmem
  subst hmem
  decide

/-- Which header is found can hinge on bytes behind it: a whole text header there is found first. -/
theorem not_detect_append : ¬ ∀ (layouts : List HeaderLayout) (data tail : Bytes) (start : Nat) (r : Header × Nat),
    layouts ≠ [] → (∀ l, .binary l ∈ layouts → l.dataSize.format.isSome = true ∧
      ∀ v, l.version = some v → v.format.isSome = true) →
    detect layouts data start = .ok r → detect layouts (data ++ tail) start = .ok r := by
  intro h
  have hbinary : detect textFirst [0x52, 0x52, 0, 0] 0 =
      .ok (⟨"binary", 0, [("data_size", "0")], [0x52, 0x52], none⟩, 4) := by
    decide +kernel
  have htext : detect textFirst
      ([0x52, 0x52, 0, 0] ++ "WN\ndata_size=0\n\x04\x1a".toList.map fun c => c.toNat.toUInt8) 0 =
        .ok (⟨"text", 0, [("data_size", "0")], [0x57, 0x4e, 0x0a], none⟩, 21) := by
    decide +kernel
  have hformats : ∀ l, HeaderLayout.binary l ∈ textFirst → l.dataSize.format.isSome = true ∧
      ∀ v, l.version = some v → v.format.isSome = true := fun l hl => by
    simp only [textFirst, List.mem_cons, HeaderLayout.binary.injEq, reduceCtorEq, List.not_mem_nil, or_false,
      false_or] at hl
    subst hl
    exact ⟨rfl, nofun⟩
  have hsame := htext.symm.trans (h textFirst _ _ 0 _ (by decide) hformats hbinary)
  simp at hsame

end Header

end BinRecord
