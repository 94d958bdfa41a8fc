/-
Line-oriented headers. After an optional preamble comes a magic line, then lines of the form
`key=value`, then a separator. A backslash right before a newline joins the next line to the current
one. A key that comes twice keeps its first place and its last value.
-/
import BinRecord.Header.Basic
import BinRecord.Header.Error
import BinRecord.Text.Utf8

namespace BinRecord

/-- A line-oriented layout. -/
structure TextLayout where
  name : String := "text"
  magic : Bytes := [0x57, 0x4e, 0x0a]
  separator : Bytes := [0x04, 0x1a]
  deriving DecidableEq, Repr

namespace TextLayout

/-! ## Lines -/

/-- The byte that ends a line. -/
def newline : UInt8 := 0x0a

/-- The byte that joins the next line when it ends one. -/
def joiner : UInt8 := 0x5c

/-- The byte between a key and its value. -/
def equals : UInt8 := 0x3d

theorem rest_lt_of_dropWhile {p : UInt8 → Bool} {bs rest : Bytes} {b : UInt8}
    (h : bs.dropWhile p = b :: rest) : rest.length < bs.length := by
  have := (List.dropWhile_sublist p (l := bs)).length_le
  simp only [h, List.length_cons] at this
  omega

/-- Reads a line with the lines joined to it. `chunks` holds what it consists of so far, the latest
first; `offset` is where the bytes stand. Gives the line, the offset after it and what follows. -/
def joinedLine (chunks : List Bytes) (offset : Nat) (bs : Bytes) :
    Except HeaderError (Bytes × Nat × Bytes) :=
  match _h : bs.dropWhile (· ≠ newline) with
  | [] => .error ⟨.unterminatedLine, offset⟩
  | _ :: rest =>
    let chunk := bs.takeWhile (· ≠ newline)
    let next := offset + chunk.length + 1
    if chunk.getLast? = some joiner then joinedLine (chunk.dropLast :: chunks) next rest
    else .ok ((chunk :: chunks).reverse.flatten, next, rest)
termination_by bs.length
decreasing_by exact rest_lt_of_dropWhile _h

theorem joinedLine_of_nil {bs : Bytes} (h : bs.dropWhile (· ≠ newline) = []) (chunks : List Bytes) (offset : Nat) :
    joinedLine chunks offset bs = .error ⟨.unterminatedLine, offset⟩ := by
  rw [joinedLine]
  split
  · rfl
  · rename_i h'
    rw [h] at h'
    cases h'

theorem joinedLine_of_cons {b : UInt8} {bs rest : Bytes} (h : bs.dropWhile (· ≠ newline) = b :: rest)
    (chunks : List Bytes) (offset : Nat) : joinedLine chunks offset bs =
      let chunk := bs.takeWhile (· ≠ newline)
      if chunk.getLast? = some joiner then
        joinedLine (chunk.dropLast :: chunks) (offset + chunk.length + 1) rest
      else .ok ((chunk :: chunks).reverse.flatten, offset + chunk.length + 1, rest) := by
  rw [joinedLine]
  split
  · rename_i h'
    rw [h] at h'
    cases h'
  · rename_i h'
    rw [h] at h'
    cases h'
    rfl

theorem joinedLine_lt {chunks : List Bytes} {offset next : Nat} {bs line rest : Bytes}
    (h : joinedLine chunks offset bs = .ok (line, next, rest)) : rest.length < bs.length := by
  fun_induction joinedLine chunks offset bs with
  | case1 => cases h
  | case2 chunks offset bs b r hd _ _ _ ih =>
    have := rest_lt_of_dropWhile hd
    have := ih h
    omega
  | case3 chunks offset bs b r hd =>
    have := rest_lt_of_dropWhile hd
    simp only [Except.ok.injEq, Prod.mk.injEq] at h
    obtain ⟨_, _, rfl⟩ := h
    exact this

/-- Splits a line that starts at `offset` into its key and value. Of an ill-formed key or value the
place within it is added to `offset`; the value is looked at first. -/
def entry (offset : Nat) (line : Bytes) : Except HeaderError (String × String) :=
  match line.dropWhile (· ≠ equals) with
  | [] => .error ⟨.noEquals line, offset⟩
  | _ :: value =>
    match Text.Utf8.decode value, Text.Utf8.decode (line.takeWhile (· ≠ equals)) with
    | .error m, _ => .error ⟨.notUtf8 m, (offset + m.start : Nat)⟩
    | _, .error m => .error ⟨.notUtf8 m, (offset + m.start : Nat)⟩
    | .ok v, .ok k => .ok (String.ofList k, String.ofList v)

/-- Reads lines up to the separator. Gives the fields and the offset after the separator. -/
def fieldLines (separator : Bytes) (fields : OrderedMap String) (offset : Nat) (bs : Bytes) :
    Except HeaderError (OrderedMap String × Nat) :=
  if separator.isPrefixOf bs then .ok (fields, offset + separator.length)
  else if bs.isPrefixOf separator then .error ⟨.endBeforeSeparator, offset⟩
  else
    match _h : joinedLine [] offset bs with
    | .error e => .error e
    | .ok (line, next, rest) =>
      match entry offset line with
      | .error e => .error e
      | .ok (key, value) => fieldLines separator (fields.insert key value) next rest
termination_by bs.length
decreasing_by exact joinedLine_lt _h

/-- Where neither the separator stands nor the bytes end inside it, a line is read. -/
theorem fieldLines_step {separator bs : Bytes} (hsep : ¬ separator.isPrefixOf bs = true)
    (hend : ¬ bs.isPrefixOf separator = true) (fields : OrderedMap String) (offset : Nat) :
    fieldLines separator fields offset bs =
      (joinedLine [] offset bs >>= fun line =>
        entry offset line.1 >>= fun e =>
          fieldLines separator (fields.insert e.1 e.2) line.2.1 line.2.2) := by
  rw [fieldLines, if_neg hsep, if_neg hend]
  split
  · rename_i e h
    rw [h]
    rfl
  · rename_i line next rest h
    rw [h]
    show _ = entry offset line >>= _
    cases entry offset line <;> rfl

/-! ## Headers -/

/-- The header that some fields make up; faults are reported at the magic line. The digits of the
data size are read last. -/
def headerOf (layout : TextLayout) (magicAt : Nat) (fields : OrderedMap String) :
    Except HeaderFailure Header :=
  match fields.get? "data_size" with
  | none => .error (.error ⟨.noDataSize, magicAt⟩)
  | some size =>
    let digits := size.toList
    if digits.isEmpty || !digits.all Char.isDigit then
      .error (.error ⟨.dataSizeNotDecimal size, magicAt⟩)
    else
      match (fields.get? "compress_type").filter fun name =>
        (CompressionMethod.ofName? name).isNone with
      | some name => .error (.error ⟨.unknownCompression name, magicAt⟩)
      | none => do
        let dataSize ← Text.readDecimal digits
        .ok ⟨layout.name, dataSize, fields, layout.magic, none⟩

/-- Decodes the header that starts at `start` in `data`, and says how many bytes it takes. -/
def decode (layout : TextLayout) (data : Bytes) (start : Nat) :
    Except HeaderFailure (Header × Nat) := do
  let bs := data.drop start
  match Bytes.search? layout.magic bs with
  | none => .error (.error ⟨.unknownMagic (.absent layout.magic), start⟩)
  | some k =>
    let skipped := k + layout.magic.length
    let lines := fieldLines layout.separator [] (start + skipped) (bs.drop skipped)
    let (fields, stop) ← lines.mapError .error
    let header ← layout.headerOf (start + k) fields
    .ok (header, stop - start)

end TextLayout

end BinRecord
