/-
UTF-8 is read exactly as it is written: bytes decode to some characters if and only if they spell them.
-/
import BinRecord.Text.Utf8
import Mathlib.Tactic

namespace BinRecord.Text.Utf8

/-! ## Bytes as numbers -/

theorem toNat_toUInt8 {n : Nat} (h : n < 256) : n.toUInt8.toNat = n := by
  rw [Nat.toUInt8_eq, UInt8.toNat_ofNat', Nat.mod_eq_of_lt (by simpa using h)]

theorem toUInt8_eq {n : Nat} {b : UInt8} (h : n = b.toNat) : n.toUInt8 = b := by
  subst h
  simp

theorem isTail_iff {b : UInt8} : isTail b = true ↔ 0x80 ≤ b.toNat ∧ b.toNat ≤ 0xbf := by
  simp [isTail, UInt8.le_iff_toNat_le]

theorem isSecond_iff {lead b : UInt8} : isSecond lead b = true ↔ (0x80 ≤ b.toNat ∧ b.toNat ≤ 0xbf) ∧
    (lead.toNat = 0xe0 → 0xa0 ≤ b.toNat) ∧ (lead.toNat = 0xed → b.toNat < 0xa0) ∧
    (lead.toNat = 0xf0 → 0x90 ≤ b.toNat) ∧ (lead.toNat = 0xf4 → b.toNat < 0x90) := by
  unfold isSecond
  rw [Bool.and_eq_true, isTail_iff]
  simp only [← UInt8.toNat_inj, UInt8.reduceToNat]
  split_ifs <;> simp [UInt8.le_iff_toNat_le, UInt8.lt_iff_toNat_lt] <;> omega

theorem toNat_ofNat {n : Nat} (h : n < 0xd800 ∨ 0xdfff < n ∧ n < 0x110000) : (Char.ofNat n).toNat = n := by
  rw [Char.ofNat, dif_pos h]
  rfl

theorem toNat_valid (c : Char) : c.toNat < 0xd800 ∨ 0xdfff < c.toNat ∧ c.toNat < 0x110000 := c.valid

/-! ## One character -/

section

variable {lead b d e : UInt8}

theorem codec_one (h : lead.toNat < 0x80) (bs : Bytes) : codec lead bs = .char (Char.ofNat lead.toNat) 0 := by
  simp only [codec, UInt8.lt_iff_toNat_lt, UInt8.reduceToNat]
  rw [if_pos h]

/-- Two bytes of which the first leads and the second continues are read, and so are three and four. -/
theorem codec_two (hlow : 0xc2 ≤ lead.toNat) (hhigh : lead.toNat < 0xe0) (hb : isTail b = true) (bs : Bytes) :
    codec lead (b :: bs) = .char (Char.ofNat (lead.toNat % 32 * 64 + low b)) 1 := by
  simp only [codec, UInt8.lt_iff_toNat_lt, UInt8.reduceToNat, hb, if_true]
  rw [if_neg (by omega), if_neg (by omega), if_pos hhigh]

theorem codec_three (hlow : 0xe0 ≤ lead.toNat) (hhigh : lead.toNat < 0xf0) (hb : isSecond lead b = true)
    (hd : isTail d = true) (bs : Bytes) :
    codec lead (b :: d :: bs) = .char (Char.ofNat ((lead.toNat % 16 * 64 + low b) * 64 + low d)) 2 := by
  simp only [codec, UInt8.lt_iff_toNat_lt, UInt8.reduceToNat, hb, hd, Bool.not_true, Bool.false_eq_true, if_false]
  rw [if_neg (by omega), if_neg (by omega), if_neg (by omega), if_pos hhigh]

theorem codec_four (hlow : 0xf0 ≤ lead.toNat) (hhigh : lead.toNat < 0xf5) (hb : isSecond lead b = true)
    (hd : isTail d = true) (he : isTail e = true) (bs : Bytes) : codec lead (b :: d :: e :: bs) =
      .char (Char.ofNat (((lead.toNat % 8 * 64 + low b) * 64 + low d) * 64 + low e)) 3 := by
  simp only [codec, UInt8.lt_iff_toNat_lt, UInt8.reduceToNat, hb, hd, he, Bool.not_true, Bool.false_eq_true, if_false]
  rw [if_neg (by omega), if_neg (by omega), if_neg (by omega), if_neg (by omega), if_pos hhigh]

/-- One byte spells the character that it is read as. -/
theorem encodeChar_one (h : lead.toNat < 0x80) : encodeChar (Char.ofNat lead.toNat) = [lead] := by
  have hc := toNat_ofNat (n := lead.toNat) (by omega)
  simp only [encodeChar, hc]
  rw [if_pos h, toUInt8_eq rfl]

/-- Two bytes spell the character that they are read as, and so do three and four. -/
theorem encodeChar_two (hlow : 0xc2 ≤ lead.toNat) (hhigh : lead.toNat < 0xe0)
    (hb : isTail b = true) : encodeChar (Char.ofNat (lead.toNat % 32 * 64 + low b)) = [lead, b] := by
  rw [isTail_iff] at hb
  have hc := toNat_ofNat (n := lead.toNat % 32 * 64 + low b) (by unfold low; omega)
  simp only [encodeChar, hc]
  unfold low
  rw [if_neg (by omega), if_pos (by omega)]
  rw [toUInt8_eq (b := lead) (by omega), toUInt8_eq (b := b) (by omega)]

theorem encodeChar_three (hlow : 0xe0 ≤ lead.toNat) (hhigh : lead.toNat < 0xf0)
    (hb : isSecond lead b = true) (hd : isTail d = true) :
    encodeChar (Char.ofNat ((lead.toNat % 16 * 64 + low b) * 64 + low d)) = [lead, b, d] := by
  rw [isSecond_iff] at hb
  rw [isTail_iff] at hd
  have hc := toNat_ofNat (n := (lead.toNat % 16 * 64 + low b) * 64 + low d) (by unfold low; omega)
  simp only [encodeChar, hc]
  unfold low
  rw [if_neg (by omega), if_neg (by omega), if_pos (by omega)]
  rw [toUInt8_eq (b := lead) (by omega), toUInt8_eq (b := b) (by omega), toUInt8_eq (b := d) (by omega)]

theorem encodeChar_four (hlow : 0xf0 ≤ lead.toNat) (hhigh : lead.toNat < 0xf5)
    (hb : isSecond lead b = true) (hd : isTail d = true) (he : isTail e = true) :
    encodeChar (Char.ofNat (((lead.toNat % 8 * 64 + low b) * 64 + low d) * 64 + low e)) = [lead, b, d, e] := by
  rw [isSecond_iff] at hb
  rw [isTail_iff] at hd he
  have hc := toNat_ofNat (n := ((lead.toNat % 8 * 64 + low b) * 64 + low d) * 64 + low e) (by unfold low; omega)
  simp only [encodeChar, hc]
  unfold low
  rw [if_neg (by omega), if_neg (by omega), if_neg (by omega)]
  rw [toUInt8_eq (b := lead) (by omega), toUInt8_eq (b := b) (by omega), toUInt8_eq (b := d) (by omega),
    toUInt8_eq (b := e) (by omega)]

end

/-- What a character is spelled with is read as it. -/
theorem codec_encodeChar (c : Char) (rest : Bytes) : ∃ lead more, encodeChar c = lead :: more ∧
    codec lead (more ++ rest) = .char c more.length := by
  have hvalid := toNat_valid c
  have hc : ∀ n, n = c.toNat → Char.ofNat n = c := fun n h => by rw [h, Char.ofNat_toNat]
  unfold encodeChar
  generalize c.toNat = n at hvalid hc ⊢
  dsimp only
  -- the two low digits of the number to the base 64 are those of its last bytes
  have hlow : (0x80 + n % 64).toUInt8.toNat = 0x80 + n % 64 := toNat_toUInt8 (by omega)
  have hnext : (0x80 + n / 64 % 64).toUInt8.toNat = 0x80 + n / 64 % 64 := toNat_toUInt8 (by omega)
  have hlowTail : isTail (0x80 + n % 64).toUInt8 = true := isTail_iff.2 (by omega)
  have hnextTail : isTail (0x80 + n / 64 % 64).toUInt8 = true := isTail_iff.2 (by omega)
  split_ifs with h₁ h₂ h₃
  · have hlead : n.toUInt8.toNat = n := toNat_toUInt8 (by omega)
    refine ⟨_, [], rfl, ?_⟩
    rw [codec_one (by omega), hlead, hc n rfl]
    rfl
  · have hlead : (0xc0 + n / 64).toUInt8.toNat = 0xc0 + n / 64 := toNat_toUInt8 (by omega)
    refine ⟨_, _, rfl, ?_⟩
    rw [List.cons_append, codec_two (by omega) (by omega) hlowTail]
    rw [hc _ (by rw [low]; omega)]
    rfl
  · have hlead : (0xe0 + n / 4096).toUInt8.toNat = 0xe0 + n / 4096 := toNat_toUInt8 (by omega)
    have hsecond : isSecond (0xe0 + n / 4096).toUInt8 (0x80 + n / 64 % 64).toUInt8 = true :=
      isSecond_iff.2 (by rw [hlead, hnext]; omega)
    refine ⟨_, _, rfl, ?_⟩
    rw [List.cons_append, List.cons_append, codec_three (by omega) (by omega) hsecond hlowTail]
    rw [hc _ (by rw [low, low]; omega)]
    rfl
  · have hlead : (0xf0 + n / 262144).toUInt8.toNat = 0xf0 + n / 262144 := toNat_toUInt8 (by omega)
    have hthird : (0x80 + n / 4096 % 64).toUInt8.toNat = 0x80 + n / 4096 % 64 := toNat_toUInt8 (by omega)
    have hsecond : isSecond (0xf0 + n / 262144).toUInt8 (0x80 + n / 4096 % 64).toUInt8 = true :=
      isSecond_iff.2 (by rw [hlead, hthird]; omega)
    refine ⟨_, _, rfl, ?_⟩
    rw [List.cons_append, List.cons_append, List.cons_append,
      codec_four (by omega) (by omega) hsecond hnextTail hlowTail]
    rw [hc _ (by rw [low, low, low]; omega)]
    rfl

/-- What is read as a character is what spells it. -/
theorem encodeChar_of_codec {lead : UInt8} {bs : Bytes} {c : Char} {k : Nat} (h : codec lead bs = .char c k) :
    k ≤ bs.length ∧ encodeChar c = lead :: bs.take k := by
  revert h
  -- the only cases in which a character is read are those of one, two, three and four bytes
  fun_cases codec lead bs with
  | case1 bs n hascii =>
    rintro ⟨⟩
    exact ⟨Nat.zero_le _, encodeChar_one (UInt8.lt_iff_toNat_lt.1 hascii)⟩
  | case4 n _ hlow hhigh b bs hb =>
    rintro ⟨⟩
    exact ⟨by simp, encodeChar_two (UInt8.not_lt.1 hlow) (UInt8.lt_iff_toNat_lt.1 hhigh) hb⟩
  | case11 n _ _ hlow hhigh b d bs hb hd =>
    rintro ⟨⟩
    exact ⟨by simp, encodeChar_three (UInt8.not_lt.1 hlow) (UInt8.lt_iff_toNat_lt.1 hhigh) (by simpa using hb)
      (by simpa using hd)⟩
  | case21 n _ _ _ hlow hhigh b d e bs hb hd he =>
    rintro ⟨⟩
    exact ⟨by simp, encodeChar_four (UInt8.not_lt.1 hlow) (UInt8.lt_iff_toNat_lt.1 hhigh) (by simpa using hb)
      (by simpa using hd) (by simpa using he)⟩
  | _ => rintro ⟨⟩

/-! ## Texts -/

theorem decodeFrom_encode (cs : List Char) (i : Nat) (done : List Char) :
    decodeFrom "utf-8" codec i done (encode cs) = .ok (done.reverse ++ cs) := by
  induction cs generalizing i done with
  | nil => simp [encode, decodeFrom]
  | cons c cs ih =>
    have hcut : encode (c :: cs) = encodeChar c ++ encode cs := by simp [encode]
    obtain ⟨lead, more, hspelled, hread⟩ := codec_encodeChar c (encode cs)
    rw [hcut, hspelled, List.cons_append, decodeFrom, hread]
    dsimp only
    rw [List.drop_left, ih]
    simp

theorem encode_of_decodeFrom {i : Nat} {done cs : List Char} {bs : Bytes}
    (h : decodeFrom "utf-8" codec i done bs = .ok cs) : ∃ cs', cs = done.reverse ++ cs' ∧ bs = encode cs' := by
  fun_induction decodeFrom "utf-8" codec i done bs with
  | case1 i done =>
    cases h
    exact ⟨[], by simp, rfl⟩
  | case2 i done b bs c further hread ih =>
    obtain ⟨cs', rfl, hrest⟩ := ih h
    obtain ⟨-, hspelled⟩ := encodeChar_of_codec hread
    refine ⟨c :: cs', by simp, ?_⟩
    have hcut : encode (c :: cs') = encodeChar c ++ encode cs' := by simp [encode]
    rw [hcut, hspelled, ← hrest, List.cons_append, List.take_append_drop]
  | case3 => cases h

/-- Bytes decode to characters exactly if they spell them. -/
theorem decode_eq_ok {bs : Bytes} {cs : List Char} : decode bs = .ok cs ↔ bs = encode cs := by
  unfold decode decodeWith
  constructor
  · intro h
    obtain ⟨cs', rfl, hbs⟩ := encode_of_decodeFrom h
    exact hbs
  · rintro rfl
    exact decodeFrom_encode cs 0 []

theorem le_of_mem_encodeChar {c : Char} (hc : 0x80 ≤ c.toNat) : ∀ b ∈ encodeChar c, 0x80 ≤ b.toNat := by
  have hvalid := toNat_valid c
  unfold encodeChar
  generalize c.toNat = n at hc hvalid ⊢
  dsimp only
  split_ifs with h₁ h₂ h₃ <;> simp only [List.forall_mem_cons, List.not_mem_nil, false_imp_iff, implies_true, and_true]
  · omega
  · rw [toNat_toUInt8 (by omega), toNat_toUInt8 (by omega)]
    omega
  · rw [toNat_toUInt8 (by omega), toNat_toUInt8 (by omega), toNat_toUInt8 (by omega)]
    omega
  · rw [toNat_toUInt8 (by omega), toNat_toUInt8 (by omega), toNat_toUInt8 (by omega), toNat_toUInt8 (by omega)]
    omega

/-- A byte below 80 spells a character of its own and is no part of any other. -/
theorem mem_encode_iff {b : UInt8} (hb : b.toNat < 0x80) {cs : List Char} :
    b ∈ encode cs ↔ Char.ofNat b.toNat ∈ cs := by
  have hchar : ∀ c : Char, b ∈ encodeChar c ↔ Char.ofNat b.toNat = c := fun c => by
    rw [← Char.toNat_inj, toNat_ofNat (by omega)]
    by_cases hc : c.toNat < 0x80
    · simp only [encodeChar, hc, if_true, List.mem_singleton]
      rw [← UInt8.toNat_inj, toNat_toUInt8 (by omega)]
    · refine ⟨fun h => ?_, fun h => by omega⟩
      have := le_of_mem_encodeChar (by omega) b h
      omega
  simp only [encode, List.mem_flatMap, hchar]
  constructor
  · rintro ⟨c, hc, rfl⟩
    exact hc
  · intro h
    exact ⟨_, h, rfl⟩

end BinRecord.Text.Utf8
