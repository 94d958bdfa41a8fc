/-
Headers are read the same wherever they stand: after other bytes a header is found as it is without them,
and a fault lies so many bytes further on as stand before.
-/
import BinRecord.Proofs.Header.BinaryForm
import BinRecord.Proofs.Header.TextForm

namespace BinRecord

/-- The same error `d` bytes further on. -/
def HeaderError.move (d : Nat) (e : HeaderError) : HeaderError := ⟨e.fault, e.offset + d⟩

variable {d : Nat}

theorem HeaderError.move_mk (fault : HeaderFault) (offset : Nat) :
    (⟨fault, ((offset + d : Nat) : Int)⟩ : HeaderError) = HeaderError.move d ⟨fault, offset⟩ := by
  simp [move]

/-- Whether an error can be shown does not depend on its place. -/
theorem HeaderError.failure_move (e : HeaderError) :
    (e.move d).failure = e.failure.map (HeaderError.move d) := by
  unfold failure
  rw [apply_ite (Failure.map (HeaderError.move d))]
  rfl

/-- The bytes from a place on do not change with what stands before. -/
theorem drop_length_add_append (before data : Bytes) (start : Nat) :
    (before ++ data).drop (start + before.length) = data.drop start := by
  rw [Nat.add_comm, ← List.drop_drop, List.drop_left]

namespace TextLayout

/-! ## Lines -/

theorem joinedLine_move (chunks : List Bytes) (offset : Nat) (bs : Bytes) :
    joinedLine chunks (offset + d) bs =
      relocate (HeaderError.move d) (fun r => (r.1, r.2.1 + d, r.2.2)) (joinedLine chunks offset bs) := by
  have hnext : ∀ n offset : Nat, offset + d + n + 1 = offset + n + 1 + d := fun n offset => by omega
  fun_induction joinedLine chunks offset bs with
  | case1 chunks offset bs hd =>
    rw [joinedLine_of_nil hd, HeaderError.move_mk]
    rfl
  | case2 chunks offset bs b r hd chunk next hjoiner ih =>
    rw [joinedLine_of_cons hd, ← ih]
    dsimp only
    rw [if_pos hjoiner, hnext]
  | case3 chunks offset bs b r hd chunk next hjoiner =>
    rw [joinedLine_of_cons hd]
    dsimp only
    rw [if_neg hjoiner, hnext]
    rfl

theorem entry_move (offset : Nat) (line : Bytes) :
    entry (offset + d) line = relocate (HeaderError.move d) id (entry offset line) := by
  unfold entry
  have hplace : ∀ n : Nat, offset + d + n = offset + n + d := fun n => by omega
  split
  · rw [HeaderError.move_mk]
    rfl
  · split
    · rw [hplace, HeaderError.move_mk]
      rfl
    · rw [hplace, HeaderError.move_mk]
      rfl
    · rfl

theorem fieldLines_move (separator : Bytes) (fields : OrderedMap String) (offset : Nat) (bs : Bytes) :
    fieldLines separator fields (offset + d) bs =
      relocate (HeaderError.move d) (fun r => (r.1, r.2 + d)) (fieldLines separator fields offset bs) := by
  fun_induction fieldLines separator fields offset bs with
  | case1 fields offset bs hsep =>
    rw [fieldLines, if_pos hsep]
    show Except.ok (fields, offset + d + separator.length) = Except.ok (fields, offset + separator.length + d)
    rw [Nat.add_right_comm]
  | case2 fields offset bs hsep hend =>
    rw [fieldLines, if_neg hsep, if_pos hend, HeaderError.move_mk]
    rfl
  | case3 fields offset bs hsep hend e hline =>
    have hmoved := joinedLine_move (d := d) [] offset bs
    rw [hline] at hmoved
    rw [fieldLines_step hsep hend, hmoved]
    rfl
  | case4 fields offset bs hsep hend line next rest hline e hentry =>
    have hmoved := joinedLine_move (d := d) [] offset bs
    rw [hline] at hmoved
    rw [fieldLines_step hsep hend, hmoved]
    show entry (offset + d) line >>= _ = _
    rw [entry_move, hentry]
    rfl
  | case5 fields offset bs hsep hend line next rest hline key value hentry ih =>
    have hmoved := joinedLine_move (d := d) [] offset bs
    rw [hline] at hmoved
    rw [fieldLines_step hsep hend, hmoved]
    show entry (offset + d) line >>= _ = _
    rw [entry_move, hentry]
    exact ih

/-! ## Headers -/

theorem headerOf_move (layout : TextLayout) (magicAt : Nat) (fields : OrderedMap String) :
    layout.headerOf (magicAt + d) fields =
      relocate (Failure.map (HeaderError.move d)) id (layout.headerOf magicAt fields) := by
  unfold headerOf
  split
  · rw [HeaderError.move_mk]
    rfl
  · rename_i size _
    dsimp only
    split
    · rw [HeaderError.move_mk]
      rfl
    · split
      · rw [HeaderError.move_mk]
        rfl
      · refine relocate_bind (?_ : _ = relocate _ id (Text.readDecimal size.toList)) fun n => rfl
        unfold Text.readDecimal
        split <;> rfl

theorem decode_move (layout : TextLayout) (before data : Bytes) (start : Nat) :
    layout.decode (before ++ data) (start + before.length) =
      relocate (Failure.map (HeaderError.move before.length)) id (layout.decode data start) := by
  unfold decode
  rw [drop_length_add_append]
  dsimp only
  split
  · rw [HeaderError.move_mk]
    rfl
  · rename_i k _
    rw [Nat.add_right_comm start _ k, Nat.add_right_comm start _ (k + layout.magic.length), fieldLines_move]
    have hlines : ∀ x : Except HeaderError (OrderedMap String × Nat),
        (relocate (HeaderError.move before.length) (fun r => (r.1, r.2 + before.length)) x).mapError Failure.error =
          relocate (Failure.map (HeaderError.move before.length)) (fun r => (r.1, r.2 + before.length))
            (x.mapError Failure.error) := fun x => by
      cases x <;> rfl
    refine relocate_bind (hlines _) fun r => ?_
    refine relocate_bind (headerOf_move ..) fun h => ?_
    show Except.ok (h, r.2 + before.length - (start + before.length)) = Except.ok (h, r.2 - start)
    rw [Nat.add_sub_add_right]

end TextLayout

/-! ## Fixed offsets -/

namespace BinaryLayout

theorem slot_move (f : IntegerField) : slot f = relocate (Failure.map (HeaderError.move d)) id (slot f) := by
  unfold slot
  split <;> rfl

theorem slot?_move (f : Option IntegerField) : slot? f = relocate (Failure.map (HeaderError.move d)) id (slot? f) := by
  cases f with
  | none => rfl
  | some f =>
    show (slot f).map some = relocate _ id ((slot f).map some)
    unfold slot
    split <;> rfl

theorem headerOf_move (layout : BinaryLayout) (dataSize : Slot) (version : Option Slot) (start : Nat) (bs : Bytes) :
    layout.headerOf dataSize version (start + d) bs =
      relocate (Failure.map (HeaderError.move d)) id (layout.headerOf dataSize version start bs) := by
  unfold headerOf
  split
  · rw [Nat.add_right_comm, HeaderError.move_mk]
    rfl
  · rfl

theorem decode_move (layout : BinaryLayout) (before data : Bytes) (start : Nat) :
    layout.decode (before ++ data) (start + before.length) =
      relocate (Failure.map (HeaderError.move before.length)) id (layout.decode data start) := by
  unfold decode
  rw [drop_length_add_append]
  have havailable : (((before ++ data).length : Nat) : Int) - (start + before.length : Nat) = data.length - start := by
    rw [List.length_append]
    omega
  dsimp only
  split
  · split
    · rw [Nat.add_right_comm, HeaderError.move_mk]
      rfl
    · rw [HeaderError.move_mk]
      rfl
  · refine relocate_bind (slot_move _) fun dataSize => ?_
    refine relocate_bind (slot?_move _) fun version => ?_
    dsimp only [id]
    rw [havailable]
    split
    · rw [List.length_append, Nat.add_comm before.length, HeaderError.move_mk, HeaderError.failure_move]
      rfl
    · exact relocate_bind (headerOf_move ..) fun h => rfl

end BinaryLayout

/-! ## All layouts -/

theorem HeaderLayout.decode_move (layout : HeaderLayout) (before data : Bytes) (start : Nat) :
    layout.decode (before ++ data) (start + before.length) =
      relocate (Failure.map (HeaderError.move before.length)) id (layout.decode data start) := by
  cases layout with
  | text layout => exact layout.decode_move before data start
  | binary layout => exact layout.decode_move before data start

namespace Header

theorem detectFrom_move (before data : Bytes) (start : Nat) :
    ∀ (layouts : List HeaderLayout) (passed : List LayoutMismatch),
      detectFrom passed (before ++ data) (start + before.length) layouts =
        relocate (Failure.map (HeaderError.move before.length)) id (detectFrom passed data start layouts)
  | [], passed => by
    unfold detectFrom
    rw [HeaderError.move_mk]
    rfl
  | layout :: layouts, passed => by
    have hrest := detectFrom_move before data start layouts
    unfold detectFrom
    rw [layout.decode_move]
    cases layout.decode data start with
    | ok result => rfl
    | error failure =>
      cases failure with
      | escaped x => rfl
      | error e =>
        obtain ⟨fault, offset⟩ := e
        cases fault with
        | unknownMagic fault => exact hrest (⟨layout.name, fault⟩ :: passed)
        | _ => rfl

/-- What is found at a place does not change with the bytes before it, but for where a fault lies. -/
theorem detect_move (layouts : List HeaderLayout) (before data : Bytes) (start : Nat) :
    detect layouts (before ++ data) (start + before.length) =
      relocate (Failure.map (HeaderError.move before.length)) id (detect layouts data start) :=
  detectFrom_move before data start layouts []

end Header

/-! ## Layouts in known formats -/

section

variable {data : Bytes} {start : Nat}

/-- The formats of all integer fields of a layout are known. -/
def HeaderLayout.FormatsKnown (layout : HeaderLayout) : Prop :=
  ∀ b, layout = .binary b → ∃ dataSize version, b.HasSlots dataSize version

theorem HeaderLayout.escape_of_decode {layout : HeaderLayout} (h : layout.FormatsKnown) {x : Escape}
    (hd : layout.decode data start = .error (.escaped x)) : x = .unwritable ∨ ∃ n, x = .unreadable n := by
  cases layout with
  | text layout =>
    obtain ⟨-, -, -, -, -, -, size, -, -, rfl⟩ := TextLayout.decode_eq_escaped.1 hd
    exact .inr ⟨_, rfl⟩
  | binary layout =>
    obtain ⟨dataSize, version, hslots⟩ := h layout rfl
    exact .inl ((BinaryLayout.decode_outcome hslots data start).escape_eq hd)

theorem Header.escape_of_detectFrom {layouts : List HeaderLayout} (h : ∀ l ∈ layouts, l.FormatsKnown) {x : Escape}
    {passed : List LayoutMismatch} (hd : detectFrom passed data start layouts = .error (.escaped x)) :
    x = .unwritable ∨ ∃ n, x = .unreadable n := by
  induction layouts generalizing passed with
  | nil => cases hd
  | cons layout layouts ih =>
    obtain ⟨hlayout, hrest⟩ := List.forall_mem_cons.1 h
    by_cases hp : layout.PassesOver data start
    · obtain ⟨mismatch, hskip⟩ := detectFrom_of_passesOver hp passed layouts
      exact ih hrest (hskip.symm.trans hd)
    · rw [detectFrom_of_not_passesOver hp] at hd
      exact HeaderLayout.escape_of_decode hlayout hd

end

namespace Header

/-- With layouts in known formats the bytes before a header do not matter: either the same header is found, in as many
bytes, or the same fault, as many bytes further on as stand before. Or else a number has too many digits to be read or
to be shown, in both. -/
theorem detect_anywhere {layouts : List HeaderLayout} (hknown : ∀ l ∈ layouts, l.FormatsKnown)
    (before data : Bytes) (start : Nat) :
    (∃ h taken, detect layouts data start = .ok (h, taken) ∧
      detect layouts (before ++ data) (before.length + start) = .ok (h, taken)) ∨
    (∃ e e', detect layouts data start = .error (.error e) ∧
      detect layouts (before ++ data) (before.length + start) = .error (.error e') ∧
        e'.fault = e.fault ∧ e'.offset = e.offset + before.length) ∨
    ∃ x, detect layouts data start = .error (.escaped x) ∧
      detect layouts (before ++ data) (before.length + start) = .error (.escaped x) ∧
        (x = .unwritable ∨ ∃ n, x = .unreadable n) := by
  have hmoved := detect_move layouts before data start
  rw [Nat.add_comm] at hmoved
  cases hd : detect layouts data start with
  | ok r =>
    obtain ⟨h, taken⟩ := r
    rw [hd] at hmoved
    exact .inl ⟨h, taken, rfl, hmoved⟩
  | error failure =>
    rw [hd] at hmoved
    cases failure with
    | error e => exact .inr (.inl ⟨e, _, rfl, hmoved, rfl, rfl⟩)
    | escaped x => exact .inr (.inr ⟨x, rfl, hmoved, escape_of_detectFrom hknown hd⟩)

/-- A header that neither layout recognizes, after bytes that begin as one of them does. -/
theorem detect_anywhere_unrecognized :
    ∃ e, detect [.text {}, .binary BinaryLayout.signedLayout] ([0x57, 0x52] ++ [0x52, 0x53]) 2 = .error (.error e) ∧
      e.fault = .noLayout [⟨"text", .absent [0x57, 0x4e, 0x0a]⟩, ⟨"binary", .different [0x52, 0x52] [0x52, 0x53]⟩] ∧
      e.offset = 2 := by
  have hknown : ∀ l ∈ [.text {}, .binary BinaryLayout.signedLayout], HeaderLayout.FormatsKnown l := by
    simp only [List.forall_mem_cons, List.not_mem_nil, false_implies, implies_true, and_true]
    refine ⟨nofun, fun b hb => ?_⟩
    cases hb
    exact ⟨⟨6, ⟨.four, true, .little⟩⟩, some ⟨2, ⟨.two, false, .big⟩⟩, rfl, rfl⟩
  have herror : detect [.text {}, .binary BinaryLayout.signedLayout] [0x52, 0x53] 0 = .error (.error
      ⟨.noLayout [⟨"text", .absent [0x57, 0x4e, 0x0a]⟩, ⟨"binary", .different [0x52, 0x52] [0x52, 0x53]⟩], 0⟩) := by
    decide +kernel
  rcases detect_anywhere hknown [0x57, 0x52] [0x52, 0x53] 0 with ⟨h, taken, hd, -⟩ |
    ⟨e, e', hd, hd', hfault, hoffset⟩ | ⟨x, hd, -⟩
  · rw [herror] at hd
    cases hd
  · rw [herror] at hd
    cases hd
    exact ⟨e', hd', hfault, hoffset⟩
  · rw [herror] at hd
    cases hd

end Header

end BinRecord
