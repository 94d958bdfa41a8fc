/-
The written form of line-oriented headers, and that exactly what has it is read. A line is written in
pieces (`Line`); a header is a preamble, the magic, lines and the separator (`Form`), and what it says is
told from the fields that its lines hold (`Tells`).
-/
import BinRecord.Header.TextLayout
import BinRecord.Proofs.Bytes.Search
import BinRecord.Proofs.Text.Utf8
import BinRecord.Proofs.Traversal
import Mathlib.Data.List.TakeWhile

namespace BinRecord

/-! ## Cutting at a byte -/

section

variable {b : UInt8} {piece : Bytes}

theorem takeWhile_ne (h : b ∉ piece) (rest : Bytes) : (piece ++ b :: rest).takeWhile (· ≠ b) = piece := by
  have hall : ∀ x ∈ piece, decide (x ≠ b) = true := fun x hx => by
    rw [decide_eq_true_eq]
    rintro rfl
    exact h hx
  rw [List.takeWhile_append_of_pos hall]
  simp

theorem dropWhile_ne (h : b ∉ piece) (rest : Bytes) :
    (piece ++ b :: rest).dropWhile (· ≠ b) = b :: rest := by
  have hall : ∀ x ∈ piece, decide (x ≠ b) = true := fun x hx => by
    rw [decide_eq_true_eq]
    rintro rfl
    exact h hx
  rw [List.dropWhile_append_of_pos hall]
  simp

/-- Bytes that hold a byte are cut before its first place. -/
theorem eq_append_of_dropWhile_ne {bs rest : Bytes} {c : UInt8} (h : bs.dropWhile (· ≠ b) = c :: rest) :
    bs = bs.takeWhile (· ≠ b) ++ b :: rest ∧ b ∉ bs.takeWhile (· ≠ b) := by
  have hne : bs.dropWhile (· ≠ b) ≠ [] := by rw [h]; simp
  have hhead := List.head_dropWhile_not (fun x => decide (x ≠ b)) hne
  simp only [h, List.head_cons, decide_eq_false_iff_not, not_not] at hhead
  subst hhead
  refine ⟨?_, fun hmem => ?_⟩
  · rw [← h, List.takeWhile_append_dropWhile]
  · simpa using List.mem_takeWhile_imp hmem

theorem firstAt_byte (h : b ∉ piece) (rest : Bytes) : Bytes.FirstAt [b] (piece ++ b :: rest) piece.length := by
  refine ⟨?_, by simp, fun j hj hp => h ?_⟩
  · rw [List.drop_left]
    exact List.prefix_append [b] rest
  · rw [List.drop_append_of_le_length hj.le, List.drop_eq_getElem_cons hj, List.cons_append, List.cons_prefix_cons] at hp
    rw [hp.1]
    exact List.getElem_mem hj

/-- A byte is found where the bytes that differ from it end. -/
theorem search?_byte (bs : Bytes) : Bytes.search? [b] bs =
    if bs.dropWhile (· ≠ b) = [] then none else some (bs.takeWhile (· ≠ b)).length := by
  have hbyte : [b] ≠ [] := by simp
  cases hd : bs.dropWhile (· ≠ b) with
  | nil =>
    rw [if_pos rfl, Option.eq_none_iff_forall_ne_some]
    intro k hk
    have hmem : b ∈ bs := List.mem_of_mem_drop (((Bytes.search?_eq_some hbyte).1 hk).here.subset (by simp))
    simpa using List.dropWhile_eq_nil_iff.1 hd b hmem
  | cons c rest =>
    obtain ⟨hcut, hnot⟩ := eq_append_of_dropWhile_ne hd
    rw [if_neg (by simp), Bytes.search?_eq_some hbyte]
    have hfirst := firstAt_byte hnot rest
    rwa [← hcut] at hfirst

end

namespace TextLayout

/-! ## Lines -/

/-- A line ends at the newline that the search finds, and is unterminated if it finds none. -/
theorem joinedLine_eq_search (chunks : List Bytes) (offset : Nat) (bs : Bytes) : joinedLine chunks offset bs =
    (Bytes.search? [newline] bs).elim (.error ⟨.unterminatedLine, offset⟩) fun k =>
      if (bs.take k).getLast? = some joiner then
        joinedLine ((bs.take k).dropLast :: chunks) (offset + k + 1) (bs.drop (k + 1))
      else .ok ((bs.take k :: chunks).reverse.flatten, offset + k + 1, bs.drop (k + 1)) := by
  rw [search?_byte]
  cases hd : bs.dropWhile (· ≠ newline) with
  | nil =>
    rw [if_pos rfl, joinedLine_of_nil hd]
    rfl
  | cons c rest =>
    obtain ⟨hcut, -⟩ := eq_append_of_dropWhile_ne hd
    generalize hpiece : bs.takeWhile (· ≠ newline) = piece at hcut
    have htake : bs.take piece.length = piece := by rw [hcut, List.take_left]
    have hdrop : bs.drop (piece.length + 1) = rest := by
      rw [hcut, List.drop_length_add_append]
      rfl
    rw [if_neg (by simp), joinedLine_of_cons hd, hpiece]
    simp only [Option.elim_some, htake, hdrop]

/-- A line in the pieces in which it is written; a joiner ends every piece but the last. -/
structure Line where
  joined : List Bytes
  last : Bytes
  joined_newline : ∀ piece ∈ joined, newline ∉ piece
  last_newline : newline ∉ last
  last_joiner : last.getLast? ≠ some joiner

namespace Line

/-- How a line is written. -/
def written (l : Line) : Bytes := l.joined.flatMap (· ++ [joiner, newline]) ++ l.last ++ [newline]

/-- The line that its pieces make up. -/
def text (l : Line) : Bytes := l.joined.flatten ++ l.last

/-- A line holds a field if it is the key, an equals sign, the first of the line, and the value in UTF-8. -/
def Holds (l : Line) (field : String × String) : Prop :=
  '=' ∉ field.1.toList ∧
    l.text = Text.Utf8.encode field.1.toList ++ equals :: Text.Utf8.encode field.2.toList

theorem length_written_pos (l : Line) : 0 < l.written.length := by
  simp [written]

end Line

theorem joinedLine_last {last : Bytes} (hnewline : newline ∉ last) (hjoiner : last.getLast? ≠ some joiner)
    (chunks : List Bytes) (offset : Nat) (rest : Bytes) :
    joinedLine chunks offset (last ++ newline :: rest) =
      .ok ((last :: chunks).reverse.flatten, offset + last.length + 1, rest) := by
  rw [joinedLine_of_cons (dropWhile_ne hnewline rest)]
  simp only [takeWhile_ne hnewline]
  rw [if_neg hjoiner]

theorem joinedLine_joined {piece : Bytes} (hnewline : newline ∉ piece) (chunks : List Bytes) (offset : Nat)
    (rest : Bytes) : joinedLine chunks offset (piece ++ [joiner, newline] ++ rest) =
      joinedLine (piece :: chunks) (offset + piece.length + 2) rest := by
  have hnewline' : newline ∉ piece ++ [joiner] := by
    rw [List.mem_append, not_or]
    exact ⟨hnewline, by decide⟩
  have hcut : piece ++ [joiner, newline] ++ rest = (piece ++ [joiner]) ++ newline :: rest := by simp
  rw [hcut, joinedLine_of_cons (dropWhile_ne hnewline' rest)]
  simp only [takeWhile_ne hnewline']
  rw [if_pos (by simp), List.dropLast_concat]
  simp [Nat.add_assoc]

/-- A line that is written is read, and what follows it is left. -/
theorem joinedLine_written (l : Line) (chunks : List Bytes) (offset : Nat) (rest : Bytes) :
    joinedLine chunks offset (l.written ++ rest) =
      .ok (chunks.reverse.flatten ++ l.text, offset + l.written.length, rest) := by
  obtain ⟨joined, last, hjoined, hlast, hjoiner⟩ := l
  simp only [Line.written, Line.text]
  induction joined generalizing chunks offset with
  | nil =>
    have h := joinedLine_last hlast hjoiner chunks offset rest
    simpa [Nat.add_assoc] using h
  | cons piece joined ih =>
    obtain ⟨hpiece, hrest⟩ := List.forall_mem_cons.1 hjoined
    have h := joinedLine_joined hpiece chunks offset (joined.flatMap (· ++ [joiner, newline]) ++ last ++ [newline] ++ rest)
    rw [ih _ _ hrest] at h
    simp only [List.flatMap_cons, List.append_assoc] at h ⊢
    rw [h]
    simp
    omega

/-- What is read as a line is written as one. -/
theorem exists_written_of_joinedLine {chunks : List Bytes} {offset next : Nat} {bs text rest : Bytes}
    (h : joinedLine chunks offset bs = .ok (text, next, rest)) :
    ∃ l : Line, bs = l.written ++ rest ∧ text = chunks.reverse.flatten ++ l.text := by
  fun_induction joinedLine chunks offset bs with
  | case1 => cases h
  | case2 chunks offset bs b r hd chunk next' hjoiner ih =>
    obtain ⟨hcut, hnewline⟩ := eq_append_of_dropWhile_ne hd
    obtain ⟨l, rfl, htext⟩ := ih h
    obtain ⟨piece, hpiece⟩ := List.getLast?_eq_some_iff.1 hjoiner
    change bs.takeWhile (· ≠ newline) = _ at hpiece
    rw [hpiece] at hcut hnewline
    rw [List.mem_append, not_or] at hnewline
    refine ⟨⟨piece :: l.joined, l.last, List.forall_mem_cons.2 ⟨hnewline.1, l.joined_newline⟩, l.last_newline,
      l.last_joiner⟩, ?_, ?_⟩
    · rw [hcut]
      simp [Line.written]
    · rw [htext, show chunk = _ from hpiece]
      simp [Line.text]
  | case3 chunks offset bs b r hd chunk next' hjoiner =>
    obtain ⟨hcut, hnewline⟩ := eq_append_of_dropWhile_ne hd
    simp only [Except.ok.injEq, Prod.mk.injEq] at h
    obtain ⟨rfl, -, rfl⟩ := h
    refine ⟨⟨[], chunk, by simp, hnewline, hjoiner⟩, ?_, ?_⟩
    · rw [hcut]
      simp [Line.written, chunk]
    · simp [Line.text]

theorem equals_mem_encode_iff {cs : List Char} : equals ∈ Text.Utf8.encode cs ↔ '=' ∈ cs :=
  Text.Utf8.mem_encode_iff (b := equals) (by decide)

theorem entry_eq_ok {offset : Nat} {l : Line} {field : String × String} :
    entry offset l.text = .ok field ↔ l.Holds field := by
  obtain ⟨key, value⟩ := field
  unfold Line.Holds
  constructor
  · intro h
    unfold entry at h
    split at h
    · cases h
    · rename_i b rest hd
      obtain ⟨hcut, hequals⟩ := eq_append_of_dropWhile_ne hd
      split at h
      · cases h
      · cases h
      · rename_i v k hv hk
        cases h
        rw [Text.Utf8.decode_eq_ok] at hv hk
        rw [hk] at hcut hequals
        rw [hv] at hcut
        simp only [String.toList_ofList]
        exact ⟨fun h => hequals (equals_mem_encode_iff.2 h), hcut⟩
  · rintro ⟨hequals, htext⟩
    replace hequals := fun h => hequals (equals_mem_encode_iff.1 h)
    unfold entry
    rw [htext, dropWhile_ne hequals, takeWhile_ne hequals]
    dsimp only
    rw [Text.Utf8.decode_eq_ok.2 rfl, Text.Utf8.decode_eq_ok.2 rfl]
    simp

/-! ## Fields -/

/-- The separator does not stand where a line starts, so that it ends the lines. -/
def Separated (separator : Bytes) (lines : List Line) : Prop :=
  ∀ later, later <:+ lines → later ≠ [] → ¬ separator <+: later.flatMap Line.written ++ separator

theorem separated_cons {separator : Bytes} {l : Line} {lines : List Line} : Separated separator (l :: lines) ↔
    ¬ separator <+: l.written ++ (lines.flatMap Line.written ++ separator) ∧ Separated separator lines := by
  unfold Separated
  constructor
  · intro h
    refine ⟨?_, fun later hlater => h later (hlater.trans (List.suffix_cons ..))⟩
    simpa using h (l :: lines) List.suffix_rfl (by simp)
  · rintro ⟨hhead, htail⟩ later hlater hne
    rcases List.suffix_cons_iff.1 hlater with rfl | hlater
    · simpa using hhead
    · exact htail later hlater hne

/-- Lines that are written are read up to the separator. -/
theorem fieldLines_written {separator : Bytes} {lines : List Line} {entries : List (String × String)}
    (hsep : Separated separator lines) (hlines : List.Forall₂ Line.Holds lines entries)
    (fields : OrderedMap String) (offset : Nat) (rest : Bytes) :
    fieldLines separator fields offset (lines.flatMap Line.written ++ separator ++ rest) =
      .ok (entries.foldl (fun m e => OrderedMap.insert e.1 e.2 m) fields,
        offset + (lines.flatMap Line.written ++ separator).length) := by
  induction hlines generalizing fields offset with
  | nil =>
    rw [fieldLines, if_pos (by simp)]
    simp
  | @cons l field lines entries hl _ ih =>
    obtain ⟨hhead, htail⟩ := separated_cons.1 hsep
    generalize hrest : lines.flatMap Line.written ++ separator = remaining at hhead ih
    have hcut : (l :: lines).flatMap Line.written ++ separator ++ rest = l.written ++ (remaining ++ rest) := by
      rw [← hrest]
      simp
    have hlen : separator.length ≤ remaining.length := by
      rw [← hrest, List.length_append]
      omega
    have hpos := l.length_written_pos
    -- neither does the separator stand here, nor are the bytes its beginning
    have hnot : separator.isPrefixOf (l.written ++ (remaining ++ rest)) ≠ true := fun h => by
      refine hhead (List.prefix_of_prefix_length_le (List.isPrefixOf_iff_prefix.1 h) ?_ ?_)
      · rw [← List.append_assoc]
        exact List.prefix_append ..
      · rw [List.length_append]
        omega
    have hlong : (l.written ++ (remaining ++ rest)).isPrefixOf separator ≠ true := fun h => by
      have := (List.isPrefixOf_iff_prefix.1 h).length_le
      rw [List.length_append, List.length_append] at this
      omega
    have hentry : entry offset ([].reverse.flatten ++ l.text) = .ok field := entry_eq_ok.2 hl
    rw [hcut, fieldLines_step hnot hlong, joinedLine_written]
    show entry offset _ >>= _ = _
    rw [hentry]
    show fieldLines _ _ _ _ = _
    rw [ih htail]
    simp [← hrest, Nat.add_assoc]

/-- What is read as lines is written as lines. -/
theorem exists_written_of_fieldLines {separator : Bytes} {fields fields' : OrderedMap String} {offset stop : Nat}
    {bs : Bytes} (h : fieldLines separator fields offset bs = .ok (fields', stop)) :
    ∃ (lines : List Line) (entries : List (String × String)) (rest : Bytes),
      bs = lines.flatMap Line.written ++ separator ++ rest ∧ Separated separator lines ∧
        List.Forall₂ Line.Holds lines entries := by
  fun_induction fieldLines separator fields offset bs with
  | case1 fields offset bs hsep =>
    obtain ⟨rest, rfl⟩ := List.isPrefixOf_iff_prefix.1 hsep
    exact ⟨[], [], rest, by simp, by simp [Separated], .nil⟩
  | case2 => cases h
  | case3 => cases h
  | case4 => cases h
  | case5 fields offset bs hsep _ text next rest hline key value hentry ih =>
    obtain ⟨l, rfl, rfl⟩ := exists_written_of_joinedLine hline
    obtain ⟨lines, entries, rest, rfl, hseparated, hlines⟩ := ih h
    refine ⟨l :: lines, (key, value) :: entries, rest, by simp, separated_cons.2 ⟨fun hp => ?_, hseparated⟩,
      .cons (entry_eq_ok.1 hentry) hlines⟩
    refine hsep (List.isPrefixOf_iff_prefix.2 (hp.trans ?_))
    exact (List.prefix_append_right_inj _).2 (List.prefix_append ..)

/-! ## What fields tell -/

/-- The value that a key has in the last of the fields with this key. -/
def lastValue? (fields : List (String × String)) (key : String) : Option String := fields.reverse.lookup key

/-- Fields make up a header if they give the size of the payload in digits, and no unknown way of
compressing it. -/
structure Sufficient (fields : List (String × String)) : Prop where
  dataSize : ∃ size, lastValue? fields "data_size" = some size ∧ size ≠ "" ∧ ∀ c ∈ size.toList, c.isDigit = true
  compression : ∀ name, lastValue? fields "compress_type" = some name → name = "gzip" ∨ name = "bzip2"

/-- The size of the payload has few enough digits to be read. -/
def SizeReadable (fields : List (String × String)) : Prop :=
  ∀ size, lastValue? fields "data_size" = some size → Text.Readable size.toList

/-- What fields tell of a header: each key stands at its first place with its last value, and the size is
the number that the digits write. -/
structure Tells (layout : TextLayout) (fields : List (String × String)) (h : Header) : Prop where
  name : h.layout = layout.name
  magic : h.magic = layout.magic
  version : h.version = none
  keys : h.fields.map (·.1) = (fields.map (·.1)).eraseDups
  values : ∀ key, h.fields.get? key = lastValue? fields key
  dataSize : ∃ size, lastValue? fields "data_size" = some size ∧
    h.dataSize = Nat.ofDigits 10 (size.toList.reverse.map fun c => c.toNat - '0'.toNat)

theorem Sufficient.ne_nil {fields : List (String × String)} (h : Sufficient fields) : fields ≠ [] := by
  rintro rfl
  obtain ⟨size, hsize, -⟩ := h.dataSize
  cases hsize

theorem decimalValue_eq_ofDigits (cs : List Char) :
    Text.decimalValue cs = Nat.ofDigits 10 (cs.reverse.map fun c => c.toNat - '0'.toNat) := by
  unfold Text.decimalValue
  rw [← List.foldr_reverse]
  induction cs.reverse with
  | nil => rfl
  | cons c cs ih =>
    rw [List.foldr_cons, ih, List.map_cons, Nat.ofDigits_cons]
    omega

theorem isSome_ofName?_iff {name : String} :
    (CompressionMethod.ofName? name).isSome = true ↔ name = "gzip" ∨ name = "bzip2" := by
  unfold CompressionMethod.ofName?
  by_cases hgzip : name = "gzip"
  · simp [hgzip]
  · by_cases hbzip2 : name = "bzip2" <;> simp [hgzip, hbzip2]

section

variable {layout : TextLayout} {magicAt : Nat} {fields : List (String × String)} {h : Header}

/-- Of fields that make up a header only the digits of the size are left to be read. -/
theorem Sufficient.headerOf_eq (hs : Sufficient fields) (layout : TextLayout) (magicAt : Nat) :
    ∃ size, lastValue? fields "data_size" = some size ∧ layout.headerOf magicAt (OrderedMap.ofEntries fields) =
      (Text.readDecimal size.toList).map fun n =>
        ⟨layout.name, n, OrderedMap.ofEntries fields, layout.magic, none⟩ := by
  obtain ⟨size, hsize, hne, hdigits⟩ := hs.dataSize
  have hdecimal : (size.toList.isEmpty || !size.toList.all Char.isDigit) = false := by
    simpa only [Bool.or_eq_false_iff, Bool.not_eq_false', List.isEmpty_eq_false_iff, List.all_eq_true, ne_eq,
      String.toList_eq_nil_iff] using And.intro hne hdigits
  have hknown : (lastValue? fields "compress_type").filter
      (fun name => (CompressionMethod.ofName? name).isNone) = none := by
    rw [Option.filter_eq_none_iff]
    intro name hname
    rw [Option.isNone_iff_eq_none, ← ne_eq, Option.ne_none_iff_isSome]
    exact isSome_ofName?_iff.2 (hs.compression name hname)
  refine ⟨size, hsize, ?_⟩
  have hget : ∀ key, OrderedMap.get? (OrderedMap.ofEntries fields) key = lastValue? fields key :=
    OrderedMap.get?_ofEntries fields
  unfold headerOf
  simp only [hget, hsize, hdecimal, hknown, Bool.false_eq_true, if_false]
  rfl

/-- Fields that no fault is found in make up a header. -/
theorem sufficient_of_headerOf (h : ∀ e, layout.headerOf magicAt (OrderedMap.ofEntries fields) ≠ .error (.error e)) :
    Sufficient fields := by
  have hget : ∀ key, OrderedMap.get? (OrderedMap.ofEntries fields) key = lastValue? fields key :=
    OrderedMap.get?_ofEntries fields
  unfold headerOf at h
  simp only [hget] at h
  cases hsize : lastValue? fields "data_size" with
  | none => exact absurd (by rw [hsize]) (h ⟨.noDataSize, magicAt⟩)
  | some size =>
    rw [hsize] at h
    dsimp only at h
    split at h
    · exact absurd rfl (h _)
    · rename_i hdecimal
      split at h
      · exact absurd rfl (h _)
      · rename_i hknown
        simp only [Bool.or_eq_true, Bool.not_eq_true', not_or, Bool.not_eq_true, Bool.not_eq_false,
          List.isEmpty_eq_false_iff, List.all_eq_true, ne_eq, String.toList_eq_nil_iff] at hdecimal
        refine ⟨⟨size, hsize, hdecimal⟩, fun name hname => isSome_ofName?_iff.1 ?_⟩
        rw [Option.filter_eq_none_iff] at hknown
        simpa [Option.isSome_iff_ne_none] using hknown name hname

/-- Fields are taken for a header exactly if they make one up and their size can be read. -/
theorem headerOf_eq_ok : layout.headerOf magicAt (OrderedMap.ofEntries fields) = .ok h ↔
    Sufficient fields ∧ ∃ size, lastValue? fields "data_size" = some size ∧ Text.Readable size.toList ∧
      h = ⟨layout.name, Text.decimalValue size.toList, OrderedMap.ofEntries fields, layout.magic, none⟩ := by
  constructor
  · intro hh
    have hs : Sufficient fields := sufficient_of_headerOf fun e he => by
      rw [he] at hh
      cases hh
    obtain ⟨size, hsize, heq⟩ := hs.headerOf_eq layout magicAt
    obtain ⟨n, hn, rfl⟩ := except_map_eq_ok.1 (heq.symm.trans hh)
    obtain ⟨hreadable, rfl⟩ := Text.readDecimal_eq_ok.1 hn
    exact ⟨hs, size, hsize, hreadable, rfl⟩
  · rintro ⟨hs, size, hsize, hreadable, rfl⟩
    obtain ⟨size', hsize', heq⟩ := hs.headerOf_eq layout magicAt
    cases hsize.symm.trans hsize'
    rw [heq, Text.readDecimal_eq_ok.2 ⟨hreadable, rfl⟩]
    rfl

/-- Fields that make up a header are not taken for one exactly if their size has too many digits. -/
theorem headerOf_eq_escaped {x : Escape} :
    layout.headerOf magicAt (OrderedMap.ofEntries fields) = .error (.escaped x) ↔
      Sufficient fields ∧ ∃ size, lastValue? fields "data_size" = some size ∧ ¬ Text.Readable size.toList ∧
        x = .unreadable size.length := by
  constructor
  · intro hx
    have hs : Sufficient fields := sufficient_of_headerOf fun e he => by
      rw [he] at hx
      cases hx
    obtain ⟨size, hsize, heq⟩ := hs.headerOf_eq layout magicAt
    obtain ⟨hunreadable, hescape⟩ := Text.readDecimal_eq_error.1 (except_map_eq_error.1 (heq.symm.trans hx))
    cases hescape
    exact ⟨hs, size, hsize, hunreadable, by rw [String.length_toList]⟩
  · rintro ⟨hs, size, hsize, hunreadable, rfl⟩
    obtain ⟨size', hsize', heq⟩ := hs.headerOf_eq layout magicAt
    cases hsize.symm.trans hsize'
    rw [heq, except_map_eq_error, Text.readDecimal_eq_error, String.length_toList]
    exact ⟨hunreadable, rfl⟩

theorem exists_headerOf (hs : Sufficient fields) (hreadable : SizeReadable fields) (magicAt : Nat) :
    ∃ h, layout.headerOf magicAt (OrderedMap.ofEntries fields) = .ok h := by
  obtain ⟨size, hsize, -⟩ := hs.dataSize
  exact ⟨_, headerOf_eq_ok.2 ⟨hs, size, hsize, hreadable size hsize, rfl⟩⟩

theorem sizeReadable_of_headerOf (hh : layout.headerOf magicAt (OrderedMap.ofEntries fields) = .ok h) :
    SizeReadable fields := by
  obtain ⟨-, size, hsize, hreadable, -⟩ := headerOf_eq_ok.1 hh
  intro size' hsize'
  cases hsize.symm.trans hsize'
  exact hreadable

theorem tells_of_headerOf (hh : layout.headerOf magicAt (OrderedMap.ofEntries fields) = .ok h) :
    layout.Tells fields h := by
  obtain ⟨-, size, hsize, -, rfl⟩ := headerOf_eq_ok.1 hh
  exact ⟨rfl, rfl, rfl, OrderedMap.keys_ofEntries fields, OrderedMap.get?_ofEntries fields, size, hsize,
    decimalValue_eq_ofDigits _⟩

end

/-! ## Headers -/

/-- A header as it is written: after a preamble comes the magic, which stands nowhere before, then lines,
and the separator ends them. -/
structure Form (layout : TextLayout) where
  preamble : Bytes
  lines : List Line
  magic_first : Bytes.FirstAt layout.magic (preamble ++ layout.magic) preamble.length
  separated : Separated layout.separator lines

/-- The bytes of a written header. -/
def Form.written {layout : TextLayout} (f : layout.Form) : Bytes :=
  f.preamble ++ layout.magic ++ f.lines.flatMap Line.written ++ layout.separator

section

variable {layout : TextLayout} {data rest : Bytes} {start : Nat}

theorem Form.written_ne_nil {f : layout.Form} {fields : List (String × String)}
    (hlines : List.Forall₂ Line.Holds f.lines fields) (hs : Sufficient fields) : f.written ≠ [] := by
  unfold written
  generalize f.lines = lines at hlines
  cases hlines with
  | nil => exact absurd rfl hs.ne_nil
  | @cons l field lines fields =>
    have := l.length_written_pos
    intro h
    simp only [List.flatMap_cons, List.append_eq_nil_iff] at h
    rw [h.1.2.1] at this
    exact absurd this (Nat.lt_irrefl 0)

/-- A header that is written is read to the fields of its lines. -/
theorem decode_written {f : layout.Form} {fields : List (String × String)}
    (hlines : List.Forall₂ Line.Holds f.lines fields) (hne : f.written ≠ [])
    (hdata : data.drop start = f.written ++ rest) : layout.decode data start =
      (layout.headerOf (start + f.preamble.length) (OrderedMap.ofEntries fields)).map (·, f.written.length) := by
  have hsearch : Bytes.search? layout.magic (f.written ++ rest) = some f.preamble.length := by
    refine Bytes.search?_eq_some_iff.2 ⟨?_, by simp [hne]⟩
    have hcut : f.written ++ rest =
        (f.preamble ++ layout.magic) ++ (f.lines.flatMap Line.written ++ layout.separator ++ rest) := by
      simp [Form.written]
    rw [hcut]
    exact (Bytes.firstAt_append (by simp) _).2 f.magic_first
  have hdrop : (f.written ++ rest).drop (f.preamble.length + layout.magic.length) =
      f.lines.flatMap Line.written ++ layout.separator ++ rest := by
    rw [← List.length_append]
    simp only [Form.written, List.append_assoc]
    rw [← List.append_assoc, List.drop_left]
  unfold decode
  simp only [hdata, hsearch, hdrop]
  rw [fieldLines_written f.separated hlines]
  cases hh : layout.headerOf (start + f.preamble.length) (OrderedMap.ofEntries fields) with
  | error e =>
    show (layout.headerOf _ (OrderedMap.ofEntries fields) >>= _) = _
    rw [hh]
    rfl
  | ok h =>
    show (layout.headerOf _ (OrderedMap.ofEntries fields) >>= _) = _
    rw [hh]
    show Except.ok _ = Except.ok _
    have hlen : start + (f.preamble.length + layout.magic.length) +
        (f.lines.flatMap Line.written ++ layout.separator).length - start = f.written.length := by
      simp only [Form.written, List.length_append]
      omega
    rw [hlen]

/-- A header that is written is read if its fields make it up and their size can be read. -/
theorem exists_decode {f : layout.Form} {fields : List (String × String)}
    (hlines : List.Forall₂ Line.Holds f.lines fields) (hs : Sufficient fields) (hreadable : SizeReadable fields)
    (hdata : data.drop start = f.written ++ rest) :
    ∃ h, layout.decode data start = .ok (h, f.written.length) ∧ layout.Tells fields h := by
  obtain ⟨h, hh⟩ := exists_headerOf hs hreadable (start + f.preamble.length)
  refine ⟨h, ?_, tells_of_headerOf hh⟩
  rw [decode_written hlines (Form.written_ne_nil hlines hs) hdata, hh]
  rfl

/-- Where no fault is found, a header is written. -/
theorem exists_written (hd : ∀ e, layout.decode data start ≠ .error (.error e)) :
    ∃ (f : layout.Form) (fields : List (String × String)) (rest : Bytes), data.drop start = f.written ++ rest ∧
      List.Forall₂ Line.Holds f.lines fields ∧ Sufficient fields := by
  unfold decode at hd
  dsimp only at hd
  generalize data.drop start = bs at hd ⊢
  split at hd
  · exact absurd rfl (hd _)
  · rename_i k hk
    obtain ⟨hfirst, -⟩ := Bytes.search?_eq_some_iff.1 hk
    obtain ⟨preamble, after, rfl, rfl, hdrop⟩ := hfirst.cut
    rw [hdrop] at hd
    cases hread : fieldLines layout.separator [] (start + (preamble.length + layout.magic.length)) after with
    | error e =>
      rw [hread] at hd
      exact absurd rfl (hd e)
    | ok told =>
      obtain ⟨told, stop⟩ := told
      obtain ⟨lines, fields, rest, rfl, hseparated, hholds⟩ := exists_written_of_fieldLines hread
      rw [fieldLines_written hseparated hholds] at hread hd
      have hmagic : Bytes.FirstAt layout.magic (preamble ++ layout.magic) preamble.length :=
        (Bytes.firstAt_append (by simp) _).1 hfirst
      have hheader : ∀ e, layout.headerOf (start + preamble.length) (OrderedMap.ofEntries fields) ≠ .error (.error e) :=
        fun e he => hd e (except_bind_eq_error.2 (.inr ⟨_, rfl, except_bind_eq_error.2 (.inl he)⟩))
      refine ⟨⟨preamble, lines, hmagic, hseparated⟩, fields, rest, ?_, hholds, sufficient_of_headerOf hheader⟩
      simp only [Form.written, List.append_assoc]

/-- Only a header that is written is read. -/
theorem exists_written_of_decode {h : Header} {size : Nat} (hd : layout.decode data start = .ok (h, size)) :
    ∃ (f : layout.Form) (fields : List (String × String)) (rest : Bytes), data.drop start = f.written ++ rest ∧
      List.Forall₂ Line.Holds f.lines fields ∧ Sufficient fields ∧ SizeReadable fields := by
  obtain ⟨f, fields, rest, hdata, hlines, hs⟩ := exists_written fun e he => by
    rw [he] at hd
    cases hd
  refine ⟨f, fields, rest, hdata, hlines, hs, ?_⟩
  rw [decode_written hlines (Form.written_ne_nil hlines hs) hdata] at hd
  obtain ⟨header, hheader, -⟩ := except_map_eq_ok.1 hd
  exact sizeReadable_of_headerOf hheader

/-- Reading a header stops without a fault exactly if one is written whose fields make it up, but whose size has
too many digits. -/
theorem decode_eq_escaped {x : Escape} : layout.decode data start = .error (.escaped x) ↔
    ∃ (f : layout.Form) (fields : List (String × String)) (rest : Bytes), data.drop start = f.written ++ rest ∧
      List.Forall₂ Line.Holds f.lines fields ∧ Sufficient fields ∧
        ∃ size, lastValue? fields "data_size" = some size ∧ ¬ Text.Readable size.toList ∧
          x = .unreadable size.length := by
  constructor
  · intro hx
    obtain ⟨f, fields, rest, hdata, hlines, hs⟩ := exists_written fun e he => by
      rw [he] at hx
      cases hx
    rw [decode_written hlines (Form.written_ne_nil hlines hs) hdata] at hx
    exact ⟨f, fields, rest, hdata, hlines, headerOf_eq_escaped.1 (except_map_eq_error.1 hx)⟩
  · rintro ⟨f, fields, rest, hdata, hlines, hs, hx⟩
    rw [decode_written hlines (Form.written_ne_nil hlines hs) hdata]
    exact except_map_eq_error.2 (headerOf_eq_escaped.2 ⟨hs, hx⟩)

/-- What is read takes as many bytes as it is written in, and its fields are told. -/
theorem tells_of_decode {f : layout.Form} {fields : List (String × String)} {h : Header} {size : Nat}
    (hlines : List.Forall₂ Line.Holds f.lines fields) (hne : f.written ≠ [])
    (hdata : data.drop start = f.written ++ rest) (hd : layout.decode data start = .ok (h, size)) :
    size = f.written.length ∧ layout.Tells fields h := by
  rw [decode_written hlines hne hdata] at hd
  cases hh : layout.headerOf (start + f.preamble.length) (OrderedMap.ofEntries fields) with
  | error e => rw [hh] at hd; cases hd
  | ok h' =>
    rw [hh] at hd
    cases hd
    exact ⟨rfl, tells_of_headerOf hh⟩

theorem add_length_le {f : layout.Form} (hne : f.written ≠ []) (hdata : data.drop start = f.written ++ rest) :
    start + f.written.length ≤ data.length := by
  have hlen := congrArg List.length hdata
  rw [List.length_drop, List.length_append] at hlen
  have := List.length_pos_iff.2 hne
  omega

end

end TextLayout

end BinRecord
