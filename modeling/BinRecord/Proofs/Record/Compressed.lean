/-
Compressed records read as plain ones: a record whose payload is compressed has the value of the record that
holds what it expands to, or the same fault at the same place of it. Expanding is tried only if all of the
compressed bytes are there, and what stands behind them plays no part.
-/
import BinRecord.Proofs.Header.TextForm
import BinRecord.Proofs.Payload.Translation
import BinRecord.Proofs.Record.Concatenation

namespace BinRecord

/-- A written header that announces a payload of `size` bytes, compressed by `method?` or plain, to readers with
some options; `text` is the schema that they decode it with. -/
structure PayloadHeader (o : ReaderOptions) (text : String) (method? : Option CompressionMethod) (size : Nat) where
  layout : TextLayout
  others : List HeaderLayout
  layouts_eq : o.layouts = .text layout :: others
  form : layout.Form
  fields : List (String × String)
  holds : List.Forall₂ TextLayout.Line.Holds form.lines fields
  digits : String
  digits_eq : TextLayout.lastValue? fields "data_size" = some digits
  digits_ne : digits ≠ ""
  isDigit : ∀ c ∈ digits.toList, c.isDigit = true
  readable : Text.Readable digits.toList
  size_eq : Text.decimalValue digits.toList = size
  method_eq : TextLayout.lastValue? fields "compress_type" = method?.map (·.name)
  text_eq : o.schemaText.or (TextLayout.lastValue? fields "format") = some text

namespace PayloadHeader

variable {o : ReaderOptions} {text : String} {method? : Option CompressionMethod} {size : Nat}

/-- The bytes of the header. -/
def written (t : PayloadHeader o text method? size) : Bytes := t.form.written

theorem sufficient (t : PayloadHeader o text method? size) : TextLayout.Sufficient t.fields where
  dataSize := ⟨t.digits, t.digits_eq, t.digits_ne, t.isDigit⟩
  compression name h := by
    rw [t.method_eq, Option.map_eq_some_iff] at h
    obtain ⟨method, -, rfl⟩ := h
    cases method with
    | gzip => exact .inl rfl
    | bzip2 => exact .inr rfl

theorem sizeReadable (t : PayloadHeader o text method? size) : TextLayout.SizeReadable t.fields := by
  intro digits h
  rw [t.digits_eq] at h
  cases h
  exact t.readable

/-- What the header says, whatever follows it. -/
theorem headerAt_eq (t : PayloadHeader o text method? size) : ∃ header : Header,
    header.dataSize = size ∧ header.compression? = method? ∧ o.schemaText.or header.schemaText? = some text ∧
      ∀ body, o.headerAt (t.written ++ body) 0 = .ok (header, t.written.length) := by
  obtain ⟨header, hheader⟩ :
      ∃ h, t.layout.headerOf t.form.preamble.length (OrderedMap.ofEntries t.fields) = .ok h :=
    TextLayout.exists_headerOf t.sufficient t.sizeReadable _
  obtain ⟨-, digits, hdigits, -, heq⟩ := TextLayout.headerOf_eq_ok.1 hheader
  rw [t.digits_eq] at hdigits
  cases hdigits
  have hget : ∀ key, header.fields.get? key = TextLayout.lastValue? t.fields key :=
    (TextLayout.tells_of_headerOf hheader).values
  refine ⟨header, by rw [heq]; exact t.size_eq, ?_, ?_, fun body => ?_⟩
  · unfold Header.compression? Header.compressionName?
    rw [hget, t.method_eq]
    cases method? with
    | none => rfl
    | some method => exact method.ofName?_name
  · unfold Header.schemaText?
    rw [hget, t.text_eq]
  · have hdecode : t.layout.decode (t.written ++ body) 0 = (t.layout.headerOf (0 + t.form.preamble.length)
        (OrderedMap.ofEntries t.fields)).map (·, t.form.written.length) :=
      TextLayout.decode_written t.holds (TextLayout.Form.written_ne_nil t.holds t.sufficient) rfl
    rw [Nat.zero_add, hheader] at hdecode
    unfold ReaderOptions.headerAt Header.detect
    rw [t.layouts_eq, Header.detectFrom, HeaderLayout.decode, hdecode]
    rfl

/-- The record behind the header has the value of what follows the header. -/
theorem recordOn_eq [Codecs] {s : Schema} (t : PayloadHeader o text method? size)
    (hs : Schema.compile text o.root = .ok s) (hbody : o.readBody = true) : ∃ header : Header,
      header.dataSize = size ∧ header.compression? = method? ∧
      ∀ body, o.recordOn (t.written ++ body) 0 =
        (o.valueOf (t.written ++ body) header s t.written.length).map
          fun v => ⟨header, s, text, some v, 0, t.written.length⟩ := by
  obtain ⟨header, hsize, hmethod, htext, hat⟩ := t.headerAt_eq
  refine ⟨header, hsize, hmethod, fun body => ?_⟩
  rw [ReaderOptions.recordOn_eq, hat]
  show (o.schemaTextOf header 0 >>= _) = _
  unfold ReaderOptions.schemaTextOf
  rw [htext]
  show ((SchemaCache.compile [] text o.root).1.mapError _ >>= _) = _
  unfold SchemaCache.compile
  rw [List.lookup_nil, hs]
  show o.recordOf (t.written ++ body) header s text 0 (0 + t.written.length) = _
  unfold ReaderOptions.recordOf
  rw [if_pos hbody, Nat.zero_add]
  cases o.valueOf (t.written ++ body) header s t.written.length <;> rfl

/-- Every header that is read has this form. -/
theorem exists_of_decode {layout : TextLayout} {others : List HeaderLayout} {bytes : Bytes} {header : Header}
    (hlayouts : o.layouts = .text layout :: others) (hd : layout.decode bytes 0 = .ok (header, bytes.length))
    (hmethod : header.compressionName? = method?.map (·.name)) (htext : o.schemaText.or header.schemaText? = some text) :
    ∃ t : PayloadHeader o text method? header.dataSize, t.written = bytes := by
  obtain ⟨f, fields, rest, hbytes, hholds, hsuff, hreadable⟩ := TextLayout.exists_written_of_decode hd
  obtain ⟨hlen, htells⟩ := TextLayout.tells_of_decode hholds (TextLayout.Form.written_ne_nil hholds hsuff) hbytes hd
  rw [List.drop_zero] at hbytes
  obtain rfl : rest = [] := by
    have := congrArg List.length hbytes
    rw [List.length_append] at this
    exact List.length_eq_zero_iff.1 (by omega)
  obtain ⟨digits, hdigits, hsize⟩ := htells.dataSize
  obtain ⟨digits', hdigits', hne, hall⟩ := hsuff.dataSize
  rw [hdigits] at hdigits'
  cases hdigits'
  unfold Header.compressionName? at hmethod
  unfold Header.schemaText? at htext
  rw [htells.values] at hmethod htext
  refine ⟨⟨layout, others, hlayouts, f, fields, hholds, digits, hdigits, hne, hall, hreadable digits hdigits, ?_,
    hmethod, htext⟩, ?_⟩
  · rw [TextLayout.decimalValue_eq_ofDigits, hsize]
  · rw [hbytes, List.append_nil]
    rfl

end PayloadHeader

/-! ## Payloads -/

namespace ReaderOptions

variable [Codecs] {o : ReaderOptions} {header : Header} {s : Schema} {method : CompressionMethod}
  {front body tail : Bytes}

theorem valueOf_plain (hmethod : header.compression? = none) (hsize : o.ignoreDataSize = false) :
    o.valueOf (front ++ (body ++ tail)) header s front.length =
      (s.decode (front ++ body ++ tail) front.length (some header.dataSize)).mapError (Failure.map .ofPayload) := by
  unfold valueOf
  rw [hmethod, ← List.append_assoc]
  unfold plainValue
  simp only [hsize, Bool.false_eq_true, if_false]
  cases s.decode (front ++ body ++ tail) front.length (some (header.dataSize : Int)) <;> rfl

/-- A compressed payload is expanded from the bytes that the header counts, and decoded by itself. -/
theorem valueOf_compressed (hmethod : header.compression? = some method) (hsize : o.ignoreDataSize = false)
    (hlen : header.dataSize = body.length) : o.valueOf (front ++ (body ++ tail)) header s front.length =
      match method.expand body with
      | .error fault => .error (.error (.decode ⟨.corrupt method body.length fault, front.length⟩))
      | .ok expanded => (s.decode expanded 0 none).mapError (Failure.map .ofPayload) := by
  have hraw : ((front ++ (body ++ tail)).drop front.length).take header.dataSize = body := by
    rw [List.drop_left, hlen, List.take_left]
  have henough : ¬ (front ++ (body ++ tail)).length - front.length < header.dataSize := by
    simp only [List.length_append]
    omega
  unfold valueOf
  rw [hmethod]
  dsimp only
  unfold expandedValue
  simp only [hsize, Bool.not_false, Bool.true_and, decide_eq_true_eq, henough, if_false, Bool.false_eq_true, hraw]
  cases method.expand body with
  | error fault => rfl
  | ok expanded =>
    dsimp only
    cases s.decode expanded 0 none <;> rfl

/-- Nothing is expanded if bytes are missing. -/
theorem valueOf_missing (hmethod : header.compression? = some method) (hsize : o.ignoreDataSize = false)
    (hlen : body.length < header.dataSize) : o.valueOf (front ++ body) header s front.length =
      .error (.error (.header ⟨.missingBytes header.dataSize body.length, (front ++ body).length⟩)) := by
  have havailable : (front ++ body).length - front.length = body.length := by simp
  unfold valueOf
  rw [hmethod]
  dsimp only
  unfold expandedValue
  simp only [havailable, hsize, Bool.not_false, Bool.true_and, decide_eq_true_eq, hlen, if_true]

end ReaderOptions

/-! ## Records -/

namespace Reader

section

variable [Codecs]

/-- A reader, used in whatever way before, has options and sees data. -/
structure Sees (r : Reader) (o : ReaderOptions) (data : Bytes) : Prop where
  reachable : ∃ whole, Reachable whole r
  options : r.options = o
  visible : r.visible = data

theorem Sees.read_zero {r : Reader} {o : ReaderOptions} {data : Bytes} (h : r.Sees o data) :
    (r.read 0).1 = o.recordOn data 0 := by
  obtain ⟨whole, hr⟩ := h.reachable
  have := read_fst hr.sound.2 0
  rw [h.options, h.visible] at this
  exact this

variable {o : ReaderOptions} {text : String} {s : Schema}

/-- A record whose payload is compressed is read to the value of the plain record that holds what the payload
expands to, or to the same fault, placed in what it expands to, or the same escapes from both. If bytes are missing,
they are reported whatever the others are; if they do not expand, this is reported at the payload. -/
theorem read_compressed (hs : Schema.compile text o.root = .ok s) (hbody : o.readBody = true)
    (hsize : o.ignoreDataSize = false) (method : CompressionMethod) :
    (∀ (compressed body tail tail' : Bytes) (zipped : PayloadHeader o text (some method) compressed.length)
      (plain : PayloadHeader o text none body.length) (r r' : Reader), method.expand compressed = .ok body →
      r.Sees o (zipped.written ++ (compressed ++ tail)) → r'.Sees o (plain.written ++ (body ++ tail')) →
        (∃ record record' v, (r.read 0).1 = .ok record ∧ (r'.read 0).1 = .ok record' ∧ record.value = some v ∧
          record'.value = some v) ∨
        (∃ e e', (r.read 0).1 = .error (.error (.decode e)) ∧ (r'.read 0).1 = .error (.error (.decode e')) ∧
          e'.fault = e.fault ∧ e'.offset = e.offset + plain.written.length) ∨
        ∃ x, (r.read 0).1 = .error (.escaped x) ∧ (r'.read 0).1 = .error (.escaped x)) ∧
    (∀ (size : Nat) (body : Bytes) (zipped : PayloadHeader o text (some method) size) (r : Reader),
      body.length < size → r.Sees o (zipped.written ++ body) → (r.read 0).1 =
        .error (.error (.header ⟨.missingBytes size body.length, (zipped.written ++ body).length⟩))) ∧
    ∀ (compressed tail : Bytes) (fault : CompressionFault)
      (zipped : PayloadHeader o text (some method) compressed.length) (r : Reader),
      method.expand compressed = .error fault → r.Sees o (zipped.written ++ (compressed ++ tail)) → (r.read 0).1 =
        .error (.error (.decode ⟨.corrupt method compressed.length fault, zipped.written.length⟩)) := by
  refine ⟨?_, ?_, ?_⟩
  · intro compressed body tail tail' zipped plain r r' hexpand hr hr'
    obtain ⟨header, hlen, hmethod, hrecord⟩ := zipped.recordOn_eq hs hbody
    obtain ⟨header', hlen', hmethod', hrecord'⟩ := plain.recordOn_eq hs hbody
    rw [hr.read_zero, hr'.read_zero, hrecord, hrecord', ReaderOptions.valueOf_compressed hmethod hsize hlen, hexpand,
      ReaderOptions.valueOf_plain hmethod' hsize, hlen']
    rcases (s.decode_between plain.written body tail').1 with ⟨v, hv, hv'⟩ |
      ⟨e, e', he', he, hfault, hoffset⟩ | ⟨x, hx', hx⟩
    · refine .inl ⟨⟨header, s, text, some v, 0, zipped.written.length⟩,
        ⟨header', s, text, some v, 0, plain.written.length⟩, v, ?_, ?_, rfl, rfl⟩
      · dsimp only
        rw [hv']
        rfl
      · rw [hv]
        rfl
    · refine .inr (.inl ⟨e, e', ?_, ?_, hfault, hoffset⟩)
      · dsimp only
        rw [he]
        rfl
      · rw [he']
        rfl
    · refine .inr (.inr ⟨x, ?_, ?_⟩)
      · dsimp only
        rw [hx]
        rfl
      · rw [hx']
        rfl
  · intro size body zipped r hlt hr
    obtain ⟨header, hlen, hmethod, hrecord⟩ := zipped.recordOn_eq hs hbody
    rw [hr.read_zero, hrecord, ReaderOptions.valueOf_missing hmethod hsize (by omega), hlen]
    rfl
  · intro compressed tail fault zipped r hexpand hr
    obtain ⟨header, hlen, hmethod, hrecord⟩ := zipped.recordOn_eq hs hbody
    rw [hr.read_zero, hrecord, ReaderOptions.valueOf_compressed hmethod hsize hlen, hexpand]
    rfl

end

/-- A record with a gzip stream of one stored byte, and the plain record with this byte. -/
theorem read_compressed_stored : ∃ record record' v,
    (read { data := ("WN\nformat=struct R { a: U8 }\ncompress_type=gzip\ndata_size=24\n\x04\x1a".toList.map
        fun c => c.toNat.toUInt8) ++
      [31, 139, 8, 0, 0, 0, 0, 0, 0, 255, 1, 1, 0, 254, 255, 5, 2, 27, 104, 162, 1, 0, 0, 0, 7] } 0).1 = .ok record ∧
    (read { data := ("WN\nformat=struct R { a: U8 }\ndata_size=1\n\x04\x1a".toList.map
        fun c => c.toNat.toUInt8) ++ [5] } 0).1 = .ok record' ∧ record.value = some v ∧ record'.value = some v := by
  generalize hzip : ("WN\nformat=struct R { a: U8 }\ncompress_type=gzip\ndata_size=24\n\x04\x1a".toList.map
    fun c => c.toNat.toUInt8) = zip
  generalize hflat : ("WN\nformat=struct R { a: U8 }\ndata_size=1\n\x04\x1a".toList.map
    fun c => c.toNat.toUInt8) = flat
  have hdecode : (TextLayout.decode {} zip 0).toOption.map (fun r => (r.2, r.1.dataSize, r.1.compressionName?,
      r.1.schemaText?)) = some (zip.length, 24, some "gzip", some "struct R { a: U8 }") := by
    rw [← hzip]
    decide +kernel
  have hdecode' : (TextLayout.decode {} flat 0).toOption.map (fun r => (r.2, r.1.dataSize, r.1.compressionName?,
      r.1.schemaText?)) = some (flat.length, 1, none, some "struct R { a: U8 }") := by
    rw [← hflat]
    decide +kernel
  have hcompile : (Schema.compile "struct R { a: U8 }" none).toOption.isSome = true := by decide +kernel
  have hread' : (read { data := flat ++ [5] } 0).1.toOption.isSome = true := by
    rw [← hflat]
    decide +kernel
  obtain ⟨s, hs⟩ := Option.isSome_iff_exists.1 hcompile
  rw [except_toOption_eq_some] at hs
  obtain ⟨⟨header, n⟩, hd, heq⟩ := Option.map_eq_some_iff.1 hdecode
  obtain ⟨⟨header', n'⟩, hd', heq'⟩ := Option.map_eq_some_iff.1 hdecode'
  rw [except_toOption_eq_some] at hd hd'
  simp only [Prod.mk.injEq] at heq heq'
  obtain ⟨rfl, hsize, hmethod, htext⟩ := heq
  obtain ⟨rfl, hsize', hmethod', htext'⟩ := heq'
  -- the stream is a name from here on, so that its length is not computed again
  obtain ⟨z, hz, hlen, hexpand⟩ : ∃ z : Bytes,
      [31, 139, 8, 0, 0, 0, 0, 0, 0, 255, 1, 1, 0, 254, 255, 5, 2, 27, 104, 162, 1, 0, 0, 0, 7] = z ++ [7] ∧
        z.length = 24 ∧ CompressionMethod.gzip.expand z = .ok [5] :=
    ⟨[31, 139, 8, 0, 0, 0, 0, 0, 0, 255, 1, 1, 0, 254, 255, 5, 2, 27, 104, 162, 1, 0, 0, 0], rfl, rfl,
      except_toOption_eq_some.1 (by decide +kernel)⟩
  obtain ⟨zipped, rfl⟩ : ∃ t : PayloadHeader {} "struct R { a: U8 }" (some .gzip) z.length, t.written = zip :=
    hlen ▸ hsize ▸ PayloadHeader.exists_of_decode rfl hd hmethod htext
  obtain ⟨plain, rfl⟩ : ∃ t : PayloadHeader {} "struct R { a: U8 }" none 1, t.written = flat :=
    hsize' ▸ PayloadHeader.exists_of_decode rfl hd' hmethod' htext'
  have hsees : ∀ data, ({ data } : Reader).Sees {} data := fun data =>
    ⟨⟨data, .fresh {}⟩, rfl, Bytes.slice_zero_none data⟩
  have hends := (read_compressed (o := {}) hs rfl rfl .gzip).1 z [5] [7] [] zipped plain _ _ hexpand (hsees _) (hsees _)
  rw [List.append_nil] at hends
  rw [hz]
  rcases hends with h | ⟨e, e', -, he', -⟩ | ⟨x, -, hx⟩
  · exact h
  · rw [he'] at hread'
    cases hread'
  · rw [hx] at hread'
    cases hread'

end Reader

end BinRecord
