/-
Where a text of a payload is reported to be ill-formed: at the end of the longest beginning of its bytes that is
valid, counted from the start of its bytes. Only in a signed text with its mark the place is counted from the
end of the mark, but from the start of the bytes on, so it lies before the ill-formed byte by the length of the
mark.
-/
import BinRecord.Proofs.Payload.Blame

namespace BinRecord.Schema

variable {s : Schema}

/-- An error says that the text which stands at some steps is not valid in its encoding. If this is a standard one, its
bytes are valid up to one of them, and the error lies there, but for the mark of a signed text. -/
structure LocatesText (s : Schema) (m : Nat) (data : Bytes) (offset : Nat) (e : DecodeError)
    (steps : List PathStep) (o : Nat) (w : Width) (encoding : Encoding) : Prop where
  leads : s.Leads m s.rootType steps o ⟨.primitive (.text w encoding), .single⟩
  fault : ∃ malformed, e.fault = .notText (s.pathOf steps) encoding malformed
  place : ∀ known : StandardEncoding, encoding = ⟨known.name⟩ → ∃ k,
    Text.ValidUpTo known.decode ((data.drop (offset + o)).take w.1) k ∧
      e.offset + known.uncounted ((data.drop (offset + o)).take w.1) = (offset + o + k : Nat)

/-- A text that is reported to be ill-formed is valid as far as the error says, counted from the end of its mark. -/
theorem decode_locates_text [Codecs] [Codecs.Located] [Codecs.KnowsStandard] {text : String} {root : Option String}
    (h : compile text root = .ok s) (data : Bytes) (offset stop : Nat) (size : Option Int)
    (hstop : payloadEnd data offset size = stop) (hle : offset ≤ stop) (hlen : stop ≤ data.length) (e : DecodeError)
    (he : s.decode data offset size = .error (.error (.decode e))) (hkind : e.fault.kind = .invalidEncoding) :
    ∃ m steps o w encoding, s.Counts m (stop - offset) (s.Tail s.rootType) 0 ∧ offset + o + w.1 ≤ stop ∧
      s.LocatesText m data offset e steps o w encoding := by
  have hs := wellFormed_of_compile h
  obtain ⟨before, l, after, hls, -, hfails⟩ := hs.first_fails hstop hle hlen he rfl
  obtain ⟨m, hm, hmem⟩ := hs.leavesPlaced ((data.drop offset).take (stop - offset)).length
  obtain ⟨steps, o, t, kind, hlead, hleaf, rfl⟩ := (hmem l).1 (hls ▸ by simp)
  rw [length_region hlen] at hm
  cases hfails with
  | tooShort => cases hkind
  | @badText w encoding malformed hk hin hm' _ =>
    obtain rfl : kind = .value (.text w encoding) := hk
    cases hleaf with
    | value =>
      rw [length_region hlen] at hin
      change o + w.1 ≤ _ at hin
      have hslice : (((data.drop offset).take (stop - offset)).drop o).take w.1 =
          (data.drop (offset + o)).take w.1 := by
        rw [List.drop_take, List.take_take, List.drop_drop, Nat.min_eq_left (by omega)]
      rw [hslice] at hm'
      refine ⟨m, steps, o, w, encoding, hm, by omega, hlead, ⟨malformed, rfl⟩, ?_⟩
      rintro known rfl
      rw [Codecs.KnowsStandard.decode_eq, except_mapError_eq_error] at hm'
      obtain ⟨malformed', hm', hsame⟩ := hm'
      obtain rfl := Failure.error.inj hsame
      refine ⟨_, StandardEncoding.validUpTo_of_decode hm', ?_⟩
      show (offset : Int) + o + malformed'.start + _ = _
      push_cast
      omega
  | partialPiece hunit =>
    exfalso
    cases hleaf <;> cases hkind

/-- A signed text: its bytes are valid up to the fourth, which is reported as the first. -/
theorem decode_locates_text_signed : ∃ s e,
    compile "struct R { t: NSTR<4, utf-8-sig> }" none = .ok s ∧
    s.decode [0xEF, 0xBB, 0xBF, 0xFF] 0 none = .error (.error (.decode e)) ∧ e.offset = 0 ∧
    ∃ m steps o w encoding, s.Counts m (4 - 0) (s.Tail s.rootType) 0 ∧ 0 + o + w.1 ≤ 4 ∧
      s.LocatesText m [0xEF, 0xBB, 0xBF, 0xFF] 0 e steps o w encoding := by
  have hall : (compile "struct R { t: NSTR<4, utf-8-sig> }" none).toOption.any (fun s =>
      (s.decode [0xEF, 0xBB, 0xBF, 0xFF] 0 none).map (fun _ => ()) = .error (.error (.decode ⟨.notText
        ⟨"R", [.field "t"]⟩ ⟨"utf-8-sig"⟩ ⟨"utf-8", 0, 1, 0xFF, "invalid start byte"⟩, 0⟩))) = true := by
    decide +kernel
  obtain ⟨s, hs, he⟩ := (Option.any_eq_true ..).1 hall
  have he := except_map_eq_error.1 (of_decide_eq_true he)
  rw [except_toOption_eq_some] at hs
  exact ⟨s, _, hs, he, rfl,
    decode_locates_text hs [0xEF, 0xBB, 0xBF, 0xFF] 0 4 none rfl (by decide) (by decide) _ he rfl⟩

end BinRecord.Schema
