/-
Where decoding finds ill-formed bytes: at the end of the longest beginning of the bytes that is valid. Only
where a signed text has its mark is the place counted from the end of the mark.

A codec looks at no more bytes than those of the character that it finds (`Prompt`). So a character is found
whatever follows it, and an ill-formed place stays ill-formed when bytes are cut off behind it.
-/
import BinRecord.Proofs.Text.Utf8
import BinRecord.Proofs.Traversal
import BinRecord.Text.StandardCodecs

namespace BinRecord

namespace Text

/-! ## Codecs -/

/-- A codec finds a character by its own bytes alone. -/
def Codec.Prompt (codec : Codec) : Prop :=
  ∀ b bs c k, codec b bs = .char c k → k ≤ bs.length ∧ ∀ rest, codec b (bs.take k ++ rest) = .char c k

theorem Codec.Prompt.of_take {codec : Codec} (hc : codec.Prompt) {b : UInt8} {bs : Bytes} {c : Char} {j k : Nat}
    (h : codec b (bs.take j) = .char c k) : codec b bs = .char c k := by
  obtain ⟨hle, hfound⟩ := hc _ _ _ _ h
  rw [List.length_take] at hle
  have hrest := hfound (bs.drop k)
  rwa [List.take_take, Nat.min_eq_left (by omega), List.take_append_drop] at hrest

theorem Codec.Prompt.take {codec : Codec} (hc : codec.Prompt) {b : UInt8} {bs : Bytes} {c : Char} {k : Nat}
    (h : codec b bs = .char c k) (j : Nat) : codec b (bs.take (k + j)) = .char c k := by
  have hcut : bs.take (k + j) = bs.take k ++ (bs.drop k).take j := List.take_add
  rw [hcut]
  exact (hc _ _ _ _ h).2 _

theorem prompt_utf8 : Utf8.codec.Prompt := by
  intro b bs c k h
  obtain ⟨hle, hspelled⟩ := Utf8.encodeChar_of_codec h
  refine ⟨hle, fun rest => ?_⟩
  obtain ⟨lead, more, hspelled', hread⟩ := Utf8.codec_encodeChar c rest
  rw [hspelled, List.cons.injEq] at hspelled'
  obtain ⟨rfl, rfl⟩ := hspelled'
  rwa [List.length_take, Nat.min_eq_left hle] at hread

theorem prompt_utf16 (order : ByteOrder) : (Utf16.codec order).Prompt := by
  intro a bs c k
  fun_cases Utf16.codec order a bs with
  | case2 b bs unit hunit =>
    rintro ⟨⟩
    exact ⟨by simp, fun rest => if_pos hunit⟩
  | case4 b unit hunit hlead d e bs second hsecond =>
    intro h
    rw [Step.char.injEq] at h
    obtain ⟨rfl, rfl⟩ := h
    refine ⟨by simp, fun rest => ?_⟩
    simp only [List.take_succ_cons, List.take_zero, List.cons_append, List.nil_append, Utf16.codec]
    rw [if_neg hunit, if_neg hlead, if_pos hsecond]
  | _ => rintro ⟨⟩

theorem prompt_utf32 (order : ByteOrder) : (Utf32.codec order).Prompt := by
  intro a bs c k
  fun_cases Utf32.codec order a bs with
  | case3 b d e bs unit hsurrogate hrange =>
    rintro ⟨⟩
    refine ⟨by simp, fun rest => ?_⟩
    simp only [List.take_succ_cons, List.take_zero, List.cons_append, List.nil_append, Utf32.codec]
    rw [if_neg hsurrogate, if_neg hrange]
  | _ => rintro ⟨⟩

theorem prompt_table (char? : UInt8 → Option Char) : (tableCodec char?).Prompt := by
  intro b bs c k h
  unfold tableCodec at h
  split at h
  · rename_i c' hc'
    cases h
    refine ⟨Nat.zero_le _, fun rest => ?_⟩
    unfold tableCodec
    rw [hc']
  · cases h

theorem prompt_ascii : Ascii.codec.Prompt := by
  intro b bs c k h
  unfold Ascii.codec at h
  split at h
  · rename_i hb
    cases h
    exact ⟨Nat.zero_le _, fun rest => if_pos hb⟩
  · cases h

/-! ## The first ill-formed place -/

/-- Bytes are valid up to a place: those before it decode, and with any of the next ones they do not. -/
structure ValidUpTo (decode : Bytes → Except Malformed (List Char)) (bs : Bytes) (k : Nat) : Prop where
  inside : k < bs.length
  valid : ∃ cs, decode (bs.take k) = .ok cs
  longest : ∀ j, k < j → ∀ cs, decode (bs.take j) ≠ .ok cs

/-- No other beginning is the longest that decodes. -/
theorem ValidUpTo.unique {decode : Bytes → Except Malformed (List Char)} {bs : Bytes} {k l : Nat}
    (hk : ValidUpTo decode bs k) (hl : ValidUpTo decode bs l) : k = l := by
  obtain ⟨cs, hcs⟩ := hk.valid
  obtain ⟨ds, hds⟩ := hl.valid
  rcases Nat.lt_trichotomy k l with h | h | h
  · exact absurd hds (hk.longest l h ds)
  · exact h
  · exact absurd hcs (hl.longest k h cs)

theorem decodeFrom_cons_char {name : String} {codec : Codec} {b : UInt8} {bs : Bytes} {c : Char} {k : Nat}
    (h : codec b bs = .char c k) (i : Nat) (done : List Char) : decodeFrom name codec i done (b :: bs) =
      decodeFrom name codec (i + 1 + k) (c :: done) (bs.drop k) := by
  rw [decodeFrom, h]

theorem decodeFrom_cons_bad {name reason : String} {codec : Codec} {b : UInt8} {bs : Bytes} {size : Nat}
    (h : codec b bs = .bad size reason) (i : Nat) (done : List Char) :
    decodeFrom name codec i done (b :: bs) = .error ⟨name, i, size, b, reason⟩ := by
  rw [decodeFrom, h]

/-- Decoding fails at the end of the longest beginning that is valid. -/
theorem validUpTo_of_decodeFrom {name : String} {codec : Codec} (hc : codec.Prompt) {i : Nat} {done : List Char}
    {bs : Bytes} {m : Malformed} (h : decodeFrom name codec i done bs = .error m) :
    ∃ k, m.start = i + k ∧ ValidUpTo (decodeFrom name codec i done) bs k := by
  fun_induction decodeFrom name codec i done bs with
  | case1 => cases h
  | case2 i done b bs c further hread ih =>
    obtain ⟨k, hstart, hin, hvalid, hlongest⟩ := ih h
    -- what is left of a beginning after its first character is a beginning of what is left of all
    have hstep : ∀ j, decodeFrom name codec i done ((b :: bs).take (1 + further + j)) =
        decodeFrom name codec (i + 1 + further) (c :: done) ((bs.drop further).take j) := fun j => by
      have hcut : (b :: bs).take (1 + further + j) = b :: bs.take (further + j) := by
        rw [Nat.add_assoc, Nat.add_comm 1, List.take_succ_cons]
      rw [hcut, decodeFrom_cons_char (hc.take hread j), List.drop_take, Nat.add_sub_cancel_left]
    rw [List.length_drop] at hin
    refine ⟨1 + further + k, by omega, by rw [List.length_cons]; omega, ?_, fun j hj cs => ?_⟩
    · rw [hstep]
      exact hvalid
    · obtain ⟨j', rfl⟩ := Nat.exists_eq_add_of_le (Nat.le_of_lt hj)
      rw [Nat.add_assoc, hstep]
      exact hlongest (k + j') (by omega) cs
  | case3 i done b bs size reason hread =>
    cases h
    refine ⟨0, rfl, by simp, ⟨done.reverse, by rw [List.take_zero, decodeFrom]⟩, fun j hj cs hok => ?_⟩
    obtain ⟨j, rfl⟩ := Nat.exists_eq_succ_of_ne_zero (by omega : j ≠ 0)
    rw [List.take_succ_cons] at hok
    cases hcut : codec b (bs.take j) with
    | char c k =>
      rw [hc.of_take hcut] at hread
      cases hread
    | bad size' reason' =>
      rw [decodeFrom_cons_bad hcut] at hok
      cases hok

theorem validUpTo_of_decodeWith {name : String} {codec : Codec} (hc : codec.Prompt) {bs : Bytes} {m : Malformed}
    (h : decodeWith name codec bs = .error m) : ValidUpTo (decodeWith name codec) bs m.start := by
  obtain ⟨k, hstart, hk⟩ := validUpTo_of_decodeFrom hc h
  rw [hstart, Nat.zero_add]
  exact hk

/-- What decodes after a mark is valid as far as what stands after the mark. -/
theorem ValidUpTo.after {decode decode' : Bytes → Except Malformed (List Char)} {bs : Bytes} {n k : Nat}
    (hn : n ≤ bs.length) (h : ValidUpTo decode' (bs.drop n) k)
    (hsame : ∀ j, decode (bs.take (n + j)) = decode' ((bs.drop n).take j)) : ValidUpTo decode bs (n + k) := by
  obtain ⟨hin, hvalid, hlongest⟩ := h
  rw [List.length_drop] at hin
  refine ⟨by omega, by rw [hsame]; exact hvalid, fun j hj cs => ?_⟩
  obtain ⟨j', rfl⟩ := Nat.exists_eq_add_of_le (Nat.le_of_lt hj)
  rw [Nat.add_assoc, hsame]
  exact hlongest (k + j') (by omega) cs

theorem isPrefixOf_take {mark bs : Bytes} (h : mark <+: bs) (j : Nat) :
    mark.isPrefixOf (bs.take (mark.length + j)) = true := by
  rw [List.isPrefixOf_iff_prefix, List.prefix_take_iff]
  exact ⟨h, by omega⟩

theorem not_isPrefixOf_take {mark bs : Bytes} (h : ¬ mark.isPrefixOf bs = true) (j : Nat) :
    ¬ mark.isPrefixOf (bs.take j) = true := by
  rw [List.isPrefixOf_iff_prefix] at h ⊢
  exact fun hp => h (hp.trans (List.take_prefix ..))

theorem validUpTo_of_decodeMarked {name : String} {codec : ByteOrder → Codec} {marks : ByteOrder → Bytes}
    (hc : ∀ order, (codec order).Prompt) {bs : Bytes} {m : Malformed}
    (h : decodeMarked name codec marks bs = .error m) : ValidUpTo (decodeMarked name codec marks) bs m.start := by
  unfold decodeMarked at h
  dsimp only at h
  split at h
  · rename_i hlittle
    have hmark := List.isPrefixOf_iff_prefix.1 hlittle
    obtain ⟨k, hstart, hk⟩ := validUpTo_of_decodeFrom (hc _) h
    rw [hstart]
    refine hk.after hmark.length_le fun j => ?_
    unfold decodeMarked
    dsimp only
    rw [if_pos (isPrefixOf_take hmark j), List.drop_take, Nat.add_sub_cancel_left]
  · rename_i hlittle
    split at h
    · rename_i hbig
      have hmark := List.isPrefixOf_iff_prefix.1 hbig
      obtain ⟨k, hstart, hk⟩ := validUpTo_of_decodeFrom (hc _) h
      rw [hstart]
      refine hk.after hmark.length_le fun j => ?_
      unfold decodeMarked
      dsimp only
      rw [if_neg (not_isPrefixOf_take hlittle _), if_pos (isPrefixOf_take hmark j), List.drop_take,
        Nat.add_sub_cancel_left]
    · rename_i hbig
      obtain ⟨k, hstart, hk⟩ := validUpTo_of_decodeFrom (hc _) h
      rw [hstart]
      refine hk.after (Nat.zero_le _) fun j => ?_
      unfold decodeMarked
      dsimp only
      rw [if_neg (not_isPrefixOf_take hlittle _), if_neg (not_isPrefixOf_take hbig _), List.drop_zero,
        List.drop_zero, Nat.zero_add]

end Text

/-! ## Encodings -/

namespace StandardEncoding

/-- The length of the mark that is dropped and not counted when ill-formed bytes are reported: only signed
texts have one. -/
def uncounted (e : StandardEncoding) (bs : Bytes) : Nat :=
  if e = .utf8Signed ∧ Text.Utf8.signature <+: bs then Text.Utf8.signature.length else 0

theorem validUpTo_utf8Signed {bs : Bytes} {m : Text.Malformed} (h : Text.Utf8.decodeSigned bs = .error m) :
    Text.ValidUpTo Text.Utf8.decodeSigned bs (m.start + uncounted .utf8Signed bs) := by
  unfold Text.Utf8.decodeSigned at h
  split at h
  · rename_i hmark
    rw [List.isPrefixOf_iff_prefix] at hmark
    rw [uncounted, if_pos ⟨rfl, hmark⟩, Nat.add_comm]
    refine (Text.validUpTo_of_decodeWith Text.prompt_utf8 h).after hmark.length_le fun j => ?_
    unfold Text.Utf8.decodeSigned
    rw [if_pos (Text.isPrefixOf_take hmark j), List.drop_take, Nat.add_sub_cancel_left]
    rfl
  · rename_i hmark
    have hnone : ¬ Text.Utf8.signature <+: bs := fun hp => hmark (List.isPrefixOf_iff_prefix.2 hp)
    rw [uncounted, if_neg (fun hp => hnone hp.2), Nat.add_zero]
    have hk := Text.validUpTo_of_decodeWith Text.prompt_utf8 h
    have hsame : ∀ j, Text.Utf8.decodeSigned (bs.take j) =
        Text.decodeWith "utf-8" Text.Utf8.codec (bs.take j) := fun j => by
      unfold Text.Utf8.decodeSigned
      rw [if_neg (Text.not_isPrefixOf_take hmark j)]
      rfl
    refine ⟨hk.inside, ?_, fun j hj cs => ?_⟩
    · rw [hsame]
      exact hk.valid
    · rw [hsame]
      exact hk.longest j hj cs

/-- Ill-formed bytes are reported at the end of the longest beginning that is valid, less the mark of a signed
text. -/
theorem validUpTo_of_decode {e : StandardEncoding} {bs : Bytes} {m : Text.Malformed} (h : e.decode bs = .error m) :
    Text.ValidUpTo e.decode bs (m.start + e.uncounted bs) := by
  have hcounted : e ≠ .utf8Signed → m.start + e.uncounted bs = m.start := fun hne => by
    rw [uncounted, if_neg (fun hp => hne hp.1), Nat.add_zero]
  cases e with
  | utf8Signed => exact validUpTo_utf8Signed h
  | latin1 => cases h
  | ascii =>
    rw [hcounted (by decide)]
    exact Text.validUpTo_of_decodeWith Text.prompt_ascii h
  | utf8 =>
    rw [hcounted (by decide)]
    exact Text.validUpTo_of_decodeWith Text.prompt_utf8 h
  | latin9 | windows1252 =>
    rw [hcounted (by decide)]
    exact Text.validUpTo_of_decodeWith (Text.prompt_table _) h
  | utf16 order =>
    rw [hcounted nofun]
    cases order with
    | none => exact Text.validUpTo_of_decodeMarked Text.prompt_utf16 h
    | some order => exact Text.validUpTo_of_decodeWith (Text.prompt_utf16 order) h
  | utf32 order =>
    rw [hcounted nofun]
    cases order with
    | none => exact Text.validUpTo_of_decodeMarked Text.prompt_utf32 h
    | some order => exact Text.validUpTo_of_decodeWith (Text.prompt_utf32 order) h

theorem ofName?_name (e : StandardEncoding) : ofName? e.name = some e := by
  rcases e with _ | _ | _ | _ | _ | _ | (_ | (_ | _)) | (_ | (_ | _)) <;> decide +kernel

end StandardEncoding

/-! ## Laws of codecs -/

/-- Where some bytes are reported to be ill-formed, the place is that of one of them. -/
class Codecs.Located [Codecs] : Prop where
  start_lt : ∀ {e : Encoding} {bs : Bytes} {m : Text.Malformed}, e.decode bs = .error (.error m) → bs ≠ [] →
    m.start < bs.length

/-- The standard encodings are decoded as they are by the standard codecs. -/
class Codecs.KnowsStandard [Codecs] : Prop where
  decode_eq : ∀ (known : StandardEncoding) (bs : Bytes),
    Encoding.decode ⟨known.name⟩ bs = (known.decode bs).mapError .error

instance : Codecs.Located where
  start_lt {e bs m} h hbs := by
    simp only [Encoding.decode, Codecs.decode] at h
    split at h
    · obtain ⟨m', hm', hm⟩ := except_mapError_eq_error.1 h
      cases hm
      have := (StandardEncoding.validUpTo_of_decode hm').inside
      omega
    · split at h <;> cases h

instance : Codecs.KnowsStandard where
  decode_eq known bs := by
    simp only [Encoding.decode, Codecs.decode, StandardEncoding.ofName?_name]

end BinRecord
