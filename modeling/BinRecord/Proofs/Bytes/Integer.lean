/-
Integers stored in bytes and read back. Every number that `width` bytes can tell apart is read back as it
was stored, in either byte order and in two's complement, and what is read is stored in the same bytes.
-/
import BinRecord.Bytes
import Mathlib.Tactic

namespace BinRecord.Bytes

/-- The bytes that store a number in `width` bytes, most significant first. -/
def bigEndian : (width n : Nat) → Bytes
  | 0, _ => []
  | width + 1, n => bigEndian width (n / 256) ++ [UInt8.ofNat n]

/-- The bytes that store a number in `width` bytes. -/
def ofNat (order : ByteOrder) (width n : Nat) : Bytes :=
  match order with
  | .big => bigEndian width n
  | .little => (bigEndian width n).reverse

/-- The bytes that store an integer in `width` bytes, in two's complement. -/
def ofInt (order : ByteOrder) (width : Nat) (n : Int) : Bytes := ofNat order width (n % 256 ^ width).toNat

/-! ## Most significant first -/

theorem length_bigEndian (width n : Nat) : (bigEndian width n).length = width := by
  induction width generalizing n with
  | zero => rfl
  | succ width ih => simp [bigEndian, ih]

theorem ofBigEndian_concat (bs : Bytes) (b : UInt8) : ofBigEndian (bs ++ [b]) = ofBigEndian bs * 256 + b.toNat := by
  simp [ofBigEndian]

theorem ofBigEndian_bigEndian {width n : Nat} (h : n < 256 ^ width) : ofBigEndian (bigEndian width n) = n := by
  induction width generalizing n with
  | zero =>
    obtain rfl : n = 0 := by simpa using h
    rfl
  | succ width ih =>
    have hhigh : n / 256 < 256 ^ width := by
      rw [Nat.div_lt_iff_lt_mul (by decide), ← Nat.pow_succ]
      exact h
    rw [bigEndian, ofBigEndian_concat, ih hhigh, UInt8.toNat_ofNat']
    exact Nat.div_add_mod' n 256

theorem bigEndian_ofBigEndian (bs : Bytes) : bigEndian bs.length (ofBigEndian bs) = bs := by
  induction bs using List.reverseRecOn with
  | nil => rfl
  | append_singleton bs b ih =>
    have hlow : b.toNat < 256 := b.toNat_lt
    have hhigh : (ofBigEndian bs * 256 + b.toNat) / 256 = ofBigEndian bs := by omega
    have hlast : UInt8.ofNat (ofBigEndian bs * 256 + b.toNat) = b := by
      rw [← UInt8.toNat_inj, UInt8.toNat_ofNat']
      omega
    rw [ofBigEndian_concat, List.length_append, List.length_singleton, bigEndian, hhigh, hlast, ih]

theorem ofBigEndian_lt (bs : Bytes) : ofBigEndian bs < 256 ^ bs.length := by
  induction bs using List.reverseRecOn with
  | nil => simp [ofBigEndian]
  | append_singleton bs b ih =>
    have hlow : b.toNat < 256 := b.toNat_lt
    rw [ofBigEndian_concat, List.length_append, List.length_singleton, Nat.pow_succ]
    omega

/-! ## Either order -/

variable (order : ByteOrder)

theorem length_ofNat (width n : Nat) : (ofNat order width n).length = width := by
  cases order <;> simp [ofNat, length_bigEndian]

theorem toNat_ofNat {width n : Nat} (h : n < 256 ^ width) : toNat order (ofNat order width n) = n := by
  cases order <;> simp [toNat, ofNat, ofBigEndian_bigEndian h]

theorem ofNat_toNat (bs : Bytes) : ofNat order bs.length (toNat order bs) = bs := by
  cases order with
  | big => exact bigEndian_ofBigEndian bs
  | little =>
    have h := bigEndian_ofBigEndian bs.reverse
    rw [List.length_reverse] at h
    simp [toNat, ofNat, h]

theorem toNat_lt (bs : Bytes) : toNat order bs < 256 ^ bs.length := by
  cases order with
  | big => exact ofBigEndian_lt bs
  | little =>
    have h := ofBigEndian_lt bs.reverse
    rwa [List.length_reverse] at h

/-! ## Two's complement -/

theorem length_ofInt (width : Nat) (n : Int) : (ofInt order width n).length = width := length_ofNat order width _

/-- An integer is told apart from the others by its remainder, if it lies in the middle of their range. -/
theorem toInt_ofInt {width : Nat} {n : Int} (hlow : -(256 ^ width) ≤ 2 * n) (hhigh : 2 * n < 256 ^ width) :
    toInt order (ofInt order width n) = n := by
  have hpos : (0 : Int) < 256 ^ width := by positivity
  have hmod := Int.emod_lt_of_pos n hpos
  have hnonneg := Int.emod_nonneg n hpos.ne'
  have hstored : (n % 256 ^ width).toNat < 256 ^ width := by
    zify
    omega
  unfold toInt
  rw [length_ofInt, ofInt, toNat_ofNat order hstored]
  simp only [Nat.pow_eq, Nat.cast_pow, Nat.cast_ofNat]
  zify
  rw [Int.toNat_of_nonneg hnonneg]
  -- a negative integer is stored as the number one modulus above it
  rcases lt_or_ge n 0 with hn | hn
  · have : n % 256 ^ width = n + 256 ^ width := by
      rw [← Int.add_emod_right, Int.emod_eq_of_lt] <;> omega
    rw [if_neg] <;> omega
  · have : n % 256 ^ width = n := Int.emod_eq_of_lt hn (by omega)
    rw [if_pos] <;> omega

theorem ofInt_toInt (bs : Bytes) : ofInt order bs.length (toInt order bs) = bs := by
  have hlt : (toNat order bs : Int) < 256 ^ bs.length := by exact_mod_cast toNat_lt order bs
  have hrem : toInt order bs % 256 ^ bs.length = toNat order bs := by
    unfold toInt
    dsimp only
    split
    · exact Int.emod_eq_of_lt (by omega) hlt
    · rw [Nat.pow_eq, Nat.cast_pow, Nat.cast_ofNat, Int.sub_emod_right]
      exact Int.emod_eq_of_lt (by omega) hlt
  rw [ofInt, hrem, Int.toNat_natCast, ofNat_toNat]

theorem toInt_range (bs : Bytes) :
    -(256 ^ bs.length) ≤ 2 * toInt order bs ∧ 2 * toInt order bs < 256 ^ bs.length := by
  have hlt : (toNat order bs : Int) < 256 ^ bs.length := by exact_mod_cast toNat_lt order bs
  unfold toInt
  simp only [Nat.pow_eq, Nat.cast_pow, Nat.cast_ofNat]
  zify
  split <;> constructor <;> omega

/-! ## The integer that some bytes store -/

variable {bs : Bytes} {width : Nat} {n : Int}

/-- Bytes store one unsigned integer. -/
theorem natCast_toNat_eq_iff (hlen : bs.length = width) :
    (toNat order bs : Int) = n ↔ (0 ≤ n ∧ n < 2 ^ (8 * width)) ∧ ofNat order width n.toNat = bs := by
  have hpow : (2 : Int) ^ (8 * width) = 256 ^ width := by rw [pow_mul]; rfl
  rw [hpow]
  constructor
  · rintro rfl
    have hlt := toNat_lt order bs
    rw [hlen] at hlt
    exact ⟨⟨Int.natCast_nonneg _, by exact_mod_cast hlt⟩, by rw [Int.toNat_natCast, ← hlen, ofNat_toNat]⟩
  · rintro ⟨⟨hnonneg, hlt⟩, rfl⟩
    obtain ⟨n, rfl⟩ := Int.eq_ofNat_of_zero_le hnonneg
    rw [Int.toNat_natCast, toNat_ofNat order (by exact_mod_cast hlt)]

/-- Bytes store one signed integer. -/
theorem toInt_eq_iff (hpos : 0 < width) (hlen : bs.length = width) : toInt order bs = n ↔
    (-2 ^ (8 * width - 1) ≤ n ∧ n < 2 ^ (8 * width - 1)) ∧ ofInt order width n = bs := by
  have hpow : (2 : Int) * 2 ^ (8 * width - 1) = 256 ^ width := by
    rw [← pow_succ', Nat.sub_add_cancel (by omega), pow_mul]
    rfl
  constructor
  · rintro rfl
    obtain ⟨hlow, hhigh⟩ := toInt_range order bs
    rw [hlen] at hlow hhigh
    exact ⟨⟨by omega, by omega⟩, by rw [← hlen, ofInt_toInt]⟩
  · rintro ⟨⟨hlow, hhigh⟩, rfl⟩
    exact toInt_ofInt order (by omega) (by omega)

end BinRecord.Bytes
