/-
The written form of headers with fields at fixed offsets. An integer stands in a slot if the slot has the bytes
that store it (`Slot.Holds`). How decoding comes out is settled by the magic, the number of bytes and the size in
its slot, in this order (`Outcome`). Integers that are stored in slots which do not overlap are read back.
-/
import BinRecord.Proofs.Bytes.Integer
import BinRecord.Proofs.Header.Extent

namespace BinRecord

/-! ## Bytes written over others -/

namespace Bytes

/-- Some bytes with a piece written over them from an offset on. -/
def overwrite (offset : Nat) (piece bs : Bytes) : Bytes :=
  bs.take offset ++ piece ++ bs.drop (offset + piece.length)

variable {offset : Nat} {piece bs : Bytes}

theorem length_overwrite (h : offset + piece.length ≤ bs.length) : (overwrite offset piece bs).length = bs.length := by
  simp only [overwrite, List.length_append, List.length_take, List.length_drop]
  omega

theorem slice_overwrite (h : offset + piece.length ≤ bs.length) :
    ((overwrite offset piece bs).drop offset).take piece.length = piece := by
  have hbefore : (bs.take offset).length = offset := by
    rw [List.length_take]
    omega
  rw [overwrite, List.append_assoc, List.drop_left' hbefore, List.take_left]

theorem getElem?_overwrite (h : offset + piece.length ≤ bs.length) {i : Nat}
    (hi : i < offset ∨ offset + piece.length ≤ i) : (overwrite offset piece bs)[i]? = bs[i]? := by
  have hbefore : (bs.take offset).length = offset := by
    rw [List.length_take]
    omega
  rw [overwrite, List.append_assoc]
  rcases hi with hi | hi
  · rw [List.getElem?_append_left (by omega), List.getElem?_take_of_lt hi]
  · rw [List.getElem?_append_right (by omega), List.getElem?_append_right (by omega), List.getElem?_drop, hbefore]
    congr 1
    omega

/-- What stands apart from the piece stays. -/
theorem slice_overwrite_of_apart (h : offset + piece.length ≤ bs.length) {i n : Nat}
    (hapart : i + n ≤ offset ∨ offset + piece.length ≤ i) :
    ((overwrite offset piece bs).drop i).take n = (bs.drop i).take n := by
  refine List.ext_getElem? fun j => ?_
  rw [List.getElem?_take, List.getElem?_take]
  split
  · rw [List.getElem?_drop, List.getElem?_drop, getElem?_overwrite h (by omega)]
  · rfl

end Bytes

/-! ## Stored integers -/

namespace IntegerFormat

/-- The integers that a format can store. -/
def Fits (f : IntegerFormat) (n : Int) : Prop :=
  if f.signed then -2 ^ (8 * f.width.bytes - 1) ≤ n ∧ n < 2 ^ (8 * f.width.bytes - 1)
  else 0 ≤ n ∧ n < 2 ^ (8 * f.width.bytes)

/-- The bytes that store an integer. -/
def write (f : IntegerFormat) (n : Int) : Bytes :=
  if f.signed then Bytes.ofInt f.order f.width.bytes n else Bytes.ofNat f.order f.width.bytes n.toNat

theorem length_write (f : IntegerFormat) (n : Int) : (f.write n).length = f.width.bytes := by
  unfold write
  split
  · exact Bytes.length_ofInt ..
  · exact Bytes.length_ofNat ..

end IntegerFormat

/-- A header is refused with an error of some kind. -/
def Refused (kind : HeaderErrorKind) (result : Except HeaderFailure (Header × Nat)) : Prop :=
  ∃ e, result = .error (.error e) ∧ e.fault.kind = kind

theorem refused_error {kind : HeaderErrorKind} {e : HeaderError} :
    Refused kind (.error (.error e)) ↔ e.fault.kind = kind := by
  simp [Refused]

theorem not_refused_ok {kind : HeaderErrorKind} {r : Header × Nat} : ¬ Refused kind (.ok r) := by
  simp [Refused]

theorem not_refused_escaped {kind : HeaderErrorKind} {x : Escape} : ¬ Refused kind (.error (.escaped x)) := by
  simp [Refused]

namespace BinaryLayout

namespace Slot

/-- An integer stands in a slot of some bytes. -/
def Holds (s : Slot) (bs : Bytes) (n : Int) : Prop :=
  s.format.Fits n ∧ (bs.drop s.offset).take s.format.width.bytes = s.format.write n

/-- The integer that is read from a slot is the one that stands in it. -/
theorem read_eq_iff {s : Slot} {bs : Bytes} (h : s.stop ≤ bs.length) {n : Int} :
    s.format.read s.offset bs = n ↔ s.Holds bs n := by
  have hpos := s.format.width.bytes_pos
  have hlen : ((bs.drop s.offset).take s.format.width.bytes).length = s.format.width.bytes := by
    unfold stop at h
    rw [List.length_take, List.length_drop]
    omega
  unfold Holds IntegerFormat.read IntegerFormat.Fits IntegerFormat.write
  dsimp only
  split
  · rw [Bytes.toInt_eq_iff _ hpos hlen, eq_comm (a := List.take _ _)]
  · rw [Bytes.natCast_toNat_eq_iff _ hlen, eq_comm (a := List.take _ _)]

theorem Holds.stop_le {s : Slot} {bs : Bytes} {n : Int} (h : s.Holds bs n) : s.stop ≤ bs.length := by
  have hpos := s.format.width.bytes_pos
  have hlen := congrArg List.length h.2
  rw [s.format.length_write, List.length_take, List.length_drop] at hlen
  unfold stop
  omega

/-- One integer stands in a slot. -/
theorem Holds.unique {s : Slot} {bs : Bytes} {m n : Int} (hm : s.Holds bs m) (hn : s.Holds bs n) : m = n :=
  ((read_eq_iff hm.stop_le).2 hm).symm.trans ((read_eq_iff hm.stop_le).2 hn)

/-- Slots that do not overlap. -/
def Apart (s t : Slot) : Prop := s.stop ≤ t.offset ∨ t.stop ≤ s.offset

/-- Some bytes with an integer stored in a slot. -/
def store (s : Slot) (n : Int) (bs : Bytes) : Bytes := Bytes.overwrite s.offset (s.format.write n) bs

section

variable {s t : Slot} {bs : Bytes} {n : Int}

theorem length_store (h : s.stop ≤ bs.length) : (s.store n bs).length = bs.length :=
  Bytes.length_overwrite (by rw [s.format.length_write]; exact h)

theorem slice_store_of_apart (h : s.stop ≤ bs.length) {i k : Nat} (hapart : i + k ≤ s.offset ∨ s.stop ≤ i) :
    ((s.store n bs).drop i).take k = (bs.drop i).take k :=
  Bytes.slice_overwrite_of_apart (by rw [s.format.length_write]; exact h) (by rw [s.format.length_write]; exact hapart)

theorem holds_store (h : s.stop ≤ bs.length) (hfits : s.format.Fits n) : s.Holds (s.store n bs) n := by
  have hlen := s.format.length_write n
  have hslice : ((s.store n bs).drop s.offset).take (s.format.write n).length = s.format.write n :=
    Bytes.slice_overwrite (by rw [hlen]; exact h)
  rw [hlen] at hslice
  exact ⟨hfits, hslice⟩

theorem Holds.store {m : Int} (hm : t.Holds bs m) (h : s.stop ≤ bs.length) (hapart : s.Apart t) :
    t.Holds (s.store n bs) m := by
  refine ⟨hm.1, ?_⟩
  rw [slice_store_of_apart h hapart.symm]
  exact hm.2

end

end Slot

/-! ## Layouts -/

/-- The integer fields of a layout stand in these slots, so that their formats are known. -/
structure HasSlots (layout : BinaryLayout) (dataSize : Slot) (version : Option Slot) : Prop where
  dataSize : layout.dataSize = ⟨dataSize.offset, some dataSize.format⟩
  version : layout.version = version.map fun v => ⟨v.offset, some v.format⟩

/-- A byte of the data differs from the byte of the magic for which it stands. -/
def MagicDiffers (layout : BinaryLayout) (data : Bytes) (start : Nat) : Prop :=
  ∃ (i : Nat) (b m : UInt8), data[start + i]? = some b ∧ layout.magic[i]? = some m ∧ b ≠ m

/-- The whole magic stands at a place. -/
def MagicStands (layout : BinaryLayout) (data : Bytes) (start : Nat) : Prop :=
  (data.drop start).take layout.magic.length = layout.magic

/-- How many bytes a header needs and how many are there can be written. -/
def NeedWritable (layout : BinaryLayout) (dataSize : Slot) (version : Option Slot) (data : Bytes) (start : Nat) :
    Prop :=
  Text.isWritable (layout.headerSize dataSize version) = true ∧ Text.isWritable ((data.length : Int) - start) = true

/-- What the bytes of a header tell: the integers in its slots, which are also its fields, in decimal. -/
structure Tells (layout : BinaryLayout) (dataSize : Slot) (version : Option Slot) (bs : Bytes) (h : Header) : Prop where
  name : h.layout = layout.name
  magic : h.magic = layout.magic
  dataSize : dataSize.Holds bs h.dataSize
  version : Option.Rel (fun v n => v.Holds bs n) version h.version
  fields : h.fields = ("data_size", toString h.dataSize) :: h.version.toList.map fun n => ("version", toString n)

/-- How decoding comes out: another magic, too few bytes, a size below zero, or else a header. If the magic is there,
the message that there are too few bytes shows two numbers, and these can have too many digits. -/
inductive Outcome (layout : BinaryLayout) (dataSize : Slot) (version : Option Slot) (data : Bytes) (start : Nat) :
    Except HeaderFailure (Header × Nat) → Prop
  | differs {e : HeaderError} : layout.MagicDiffers data start → e.fault.kind = .notRecognized →
      Outcome layout dataSize version data start (.error (.error e))
  | short {e : HeaderError} : ¬ layout.MagicDiffers data start →
      data.length < start + layout.headerSize dataSize version →
      (layout.MagicStands data start → layout.NeedWritable dataSize version data start) →
      e.fault.kind = .truncatedHeader → Outcome layout dataSize version data start (.error (.error e))
  | unwritable : ¬ layout.MagicDiffers data start → data.length < start + layout.headerSize dataSize version →
      layout.MagicStands data start → ¬ layout.NeedWritable dataSize version data start →
      Outcome layout dataSize version data start (.error (.escaped .unwritable))
  | negative {e : HeaderError} {n : Int} : ¬ layout.MagicDiffers data start →
      start + layout.headerSize dataSize version ≤ data.length → dataSize.Holds (data.drop start) n → n < 0 →
      e.fault.kind = .malformed → Outcome layout dataSize version data start (.error (.error e))
  | found {h : Header} : ¬ layout.MagicDiffers data start →
      start + layout.headerSize dataSize version ≤ data.length →
      layout.Tells dataSize version (data.drop start) h →
      Outcome layout dataSize version data start (.ok (h, layout.headerSize dataSize version))

section

variable {layout : BinaryLayout} {dataSize : Slot} {version : Option Slot} {data : Bytes} {start : Nat}

theorem slot_eq_ok {f : IntegerField} {s : Slot} : slot f = .ok s ↔ f = ⟨s.offset, some s.format⟩ := by
  obtain ⟨offset, format⟩ := f
  obtain ⟨offset', format'⟩ := s
  cases format <;> simp [slot]

theorem slot?_eq_ok {f : Option IntegerField} {s : Option Slot} :
    slot? f = .ok s ↔ f = s.map fun v => ⟨v.offset, some v.format⟩ := by
  cases f with
  | none => cases s <;> simp [slot?]
  | some f =>
    obtain ⟨offset, format⟩ := f
    rcases s with _ | ⟨offset', format'⟩ <;> cases format <;> simp [slot?, slot, Except.map]

/-- A header has room for what its layout declares, for the magic and for every field, and not for more. -/
theorem headerSize_le_iff {n : Nat} : layout.headerSize dataSize version ≤ n ↔
    layout.size ≤ n ∧ layout.magic.length ≤ n ∧ dataSize.stop ≤ n ∧ ∀ v, version = some v → v.stop ≤ n := by
  unfold headerSize
  cases version with
  | none =>
    simp only [Option.map_none, Option.getD_none, reduceCtorEq, false_implies, implies_true, and_true]
    omega
  | some v =>
    simp only [Option.map_some, Option.getD_some, Option.some.injEq, forall_eq']
    omega

theorem take_prefix_iff : (data.drop start).take layout.magic.length <+: layout.magic ↔
    ¬ layout.MagicDiffers data start := by
  unfold MagicDiffers
  rw [List.prefix_iff_getElem?]
  constructor
  · rintro h ⟨i, b, m, hb, hm, hne⟩
    have hi := (List.getElem?_eq_some_iff.1 hm).1
    rw [← List.getElem?_drop, ← List.getElem?_take_of_lt hi] at hb
    obtain ⟨hlt, rfl⟩ := List.getElem?_eq_some_iff.1 hb
    rw [h i hlt, Option.some.injEq] at hm
    exact hne hm
  · intro h i hi
    have hlt : i < layout.magic.length := by
      rw [List.length_take] at hi
      omega
    have hb := List.getElem?_eq_getElem hi
    rw [List.getElem?_take_of_lt hlt, List.getElem?_drop] at hb
    rw [List.getElem?_eq_getElem hlt, Option.some.injEq]
    by_contra hne
    exact h ⟨i, _, _, hb, List.getElem?_eq_getElem hlt, fun he => hne he.symm⟩

theorem not_magicDiffers_of_stands (h : layout.MagicStands data start) : ¬ layout.MagicDiffers data start := by
  rw [← take_prefix_iff, h]

theorem ofList_decimal (n : Int) : String.ofList (Text.decimal n) = toString n := by
  unfold Text.decimal
  cases n with
  | ofNat n => rfl
  | negSucc n =>
    rw [if_pos (Int.negSucc_lt_zero n)]
    show _ = "-" ++ (n + 1).repr
    simp [Nat.repr]

/-- A header that is whole tells what its slots hold, unless its size is below zero. -/
theorem headerOf_outcome (layout : BinaryLayout) {bs : Bytes} (hlen : layout.headerSize dataSize version ≤ bs.length)
    (start : Nat) :
    (∃ e n, layout.headerOf dataSize version start bs = .error (.error e) ∧ e.fault.kind = .malformed ∧
      dataSize.Holds bs n ∧ n < 0) ∨
    ∃ h, layout.headerOf dataSize version start bs = .ok h ∧ layout.Tells dataSize version bs h := by
  obtain ⟨-, -, hsize, hversion⟩ := headerSize_le_iff.1 hlen
  unfold headerOf
  split
  · rename_i n hread
    exact .inl ⟨_, _, rfl, rfl, (Slot.read_eq_iff hsize).1 hread, Int.negSucc_lt_zero n⟩
  · rename_i n hread
    refine .inr ⟨_, rfl, rfl, rfl, (Slot.read_eq_iff hsize).1 hread, ?_, ?_⟩
    · cases version with
      | none => exact .none
      | some v => exact .some ((Slot.read_eq_iff (hversion v rfl)).1 rfl)
    · simp only [ofList_decimal]
      rfl

theorem decode_outcome (hslots : layout.HasSlots dataSize version) (data : Bytes) (start : Nat) :
    Outcome layout dataSize version data start (layout.decode data start) := by
  obtain ⟨-, hmagic, -⟩ := headerSize_le_iff.1 (le_refl (layout.headerSize dataSize version))
  unfold decode
  dsimp only
  split
  · rename_i hfound
    split
    · rename_i hp
      rw [List.isPrefixOf_iff_prefix] at hp
      -- what is found of the magic is less than all of it
      have hlt : ((data.drop start).take layout.magic.length).length < layout.magic.length := by
        refine lt_of_le_of_ne hp.length_le fun hlen => hfound (hp.eq_of_length hlen)
      rw [List.length_take, List.length_drop] at hlt
      exact .short (take_prefix_iff.1 hp) (by omega) (fun hstands => absurd hstands hfound) rfl
    · rename_i hp
      rw [List.isPrefixOf_iff_prefix, take_prefix_iff, not_not] at hp
      exact .differs hp rfl
  · rename_i hfound
    rw [not_not] at hfound
    have hsame := not_magicDiffers_of_stands hfound
    rw [slot_eq_ok.2 hslots.dataSize, slot?_eq_ok.2 hslots.version]
    show Outcome layout dataSize version data start (if _ then _ else _)
    split
    · rename_i hshort
      have hshort : data.length < start + layout.headerSize dataSize version := by omega
      by_cases hwritable : layout.NeedWritable dataSize version data start
      · rw [HeaderError.failure, if_pos (by simpa [HeaderFault.numbers, NeedWritable] using hwritable)]
        exact .short hsame hshort (fun _ => hwritable) rfl
      · rw [HeaderError.failure, if_neg (by simpa [HeaderFault.numbers, NeedWritable] using hwritable)]
        exact .unwritable hsame hshort hfound hwritable
    · have henough : start + layout.headerSize dataSize version ≤ data.length := by omega
      have hlen : layout.headerSize dataSize version ≤ (data.drop start).length := by
        rw [List.length_drop]
        omega
      rcases layout.headerOf_outcome hlen start with ⟨e, n, he, hkind, hn, hneg⟩ | ⟨h, hh, htells⟩
      · rw [he]
        exact .negative hsame henough hn hneg hkind
      · rw [hh]
        exact .found hsame henough htells

/-- Of a header whose formats are known nothing else escapes. -/
theorem Outcome.escape_eq {result : Except HeaderFailure (Header × Nat)}
    (h : layout.Outcome dataSize version data start result) {x : Escape} (hx : result = .error (.escaped x)) :
    x = .unwritable := by
  cases h with
  | unwritable =>
    cases hx
    rfl
  | _ => cases hx

theorem exists_decode_of_holds (hslots : layout.HasSlots dataSize version) {size : Nat} {told : Option Int}
    (hsame : ¬ layout.MagicDiffers data start)
    (henough : start + layout.headerSize dataSize version ≤ data.length)
    (hsize : dataSize.Holds (data.drop start) size)
    (hversion : Option.Rel (fun v n => v.Holds (data.drop start) n) version told) :
    ∃ h, layout.decode data start = .ok (h, layout.headerSize dataSize version) ∧ h.dataSize = size ∧
      h.version = told := by
  have houtcome := decode_outcome hslots data start
  generalize layout.decode data start = result at houtcome ⊢
  cases houtcome with
  | differs hdiffers _ => exact absurd hdiffers hsame
  | short _ hshort _ _ => omega
  | unwritable _ hshort _ _ => omega
  | negative _ _ hn hneg _ =>
    have := hn.unique hsize
    omega
  | @found h _ _ htells =>
    refine ⟨h, rfl, by exact_mod_cast htells.dataSize.unique hsize, ?_⟩
    have hread := htells.version
    generalize h.version = read at hread ⊢
    cases hversion with
    | none =>
      cases hread
      rfl
    | some hn =>
      cases hread with
      | some hm => rw [hm.unique hn]

end

/-! ## Writing -/

/-- Some bytes with integers stored one after the other. -/
def storeAll (stored : List (Slot × Int)) (bs : Bytes) : Bytes := stored.foldl (fun bs p => p.1.store p.2 bs) bs

/-- Some filler with the magic and then integers written over it, each in its slot. -/
def write (layout : BinaryLayout) (stored : List (Slot × Int)) (filler : Bytes) : Bytes :=
  storeAll stored (Bytes.overwrite 0 layout.magic filler)

/-- Integers can be written together: each fits its slot, and the slots stand behind the magic and do not overlap. -/
structure Storable (layout : BinaryLayout) (stored : List (Slot × Int)) : Prop where
  fits : ∀ p ∈ stored, p.1.format.Fits p.2
  behind : ∀ p ∈ stored, layout.magic.length ≤ p.1.offset
  apart : stored.Pairwise fun p q => p.1.Apart q.1

section

variable {stored : List (Slot × Int)} {bs : Bytes}

theorem storeAll_cons (p : Slot × Int) (stored : List (Slot × Int)) (bs : Bytes) :
    storeAll (p :: stored) bs = storeAll stored (p.1.store p.2 bs) := rfl

theorem length_storeAll (hin : ∀ p ∈ stored, p.1.stop ≤ bs.length) : (storeAll stored bs).length = bs.length := by
  induction stored generalizing bs with
  | nil => rfl
  | cons p stored ih =>
    obtain ⟨hp, hin⟩ := List.forall_mem_cons.1 hin
    have hlen := Slot.length_store (n := p.2) hp
    rw [storeAll_cons, ih (by rwa [hlen]), hlen]

/-- What stands before all slots stays. -/
theorem take_storeAll (hin : ∀ p ∈ stored, p.1.stop ≤ bs.length) {k : Nat} (hk : ∀ p ∈ stored, k ≤ p.1.offset) :
    (storeAll stored bs).take k = bs.take k := by
  induction stored generalizing bs with
  | nil => rfl
  | cons p stored ih =>
    obtain ⟨hp, hin⟩ := List.forall_mem_cons.1 hin
    obtain ⟨hkp, hk⟩ := List.forall_mem_cons.1 hk
    have hslice := Slot.slice_store_of_apart (n := p.2) hp (i := 0) (k := k) (.inl (by omega))
    rw [storeAll_cons, ih (by rwa [Slot.length_store hp]) hk]
    simpa using hslice

/-- What stood in a slot before stays if the others are apart from it. -/
theorem Slot.Holds.storeAll (hin : ∀ p ∈ stored, p.1.stop ≤ bs.length) {s : Slot} {n : Int} (h : s.Holds bs n)
    (hapart : ∀ p ∈ stored, p.1.Apart s) : s.Holds (storeAll stored bs) n := by
  induction stored generalizing bs with
  | nil => exact h
  | cons p stored ih =>
    obtain ⟨hp, hin⟩ := List.forall_mem_cons.1 hin
    obtain ⟨hps, hapart⟩ := List.forall_mem_cons.1 hapart
    rw [storeAll_cons]
    exact ih (by rwa [Slot.length_store hp]) (h.store hp hps) hapart

/-- Integers that are stored in slots which do not overlap all stand there. -/
theorem holds_storeAll (hin : ∀ p ∈ stored, p.1.stop ≤ bs.length) (hfits : ∀ p ∈ stored, p.1.format.Fits p.2)
    (hapart : stored.Pairwise fun p q => p.1.Apart q.1) : ∀ p ∈ stored, p.1.Holds (storeAll stored bs) p.2 := by
  induction stored generalizing bs with
  | nil => exact List.forall_mem_nil _
  | cons p stored ih =>
    obtain ⟨hp, hin⟩ := List.forall_mem_cons.1 hin
    obtain ⟨hpfits, hfits⟩ := List.forall_mem_cons.1 hfits
    obtain ⟨hpapart, hapart⟩ := List.pairwise_cons.1 hapart
    rw [← Slot.length_store (n := p.2) hp] at hin
    rw [storeAll_cons]
    refine List.forall_mem_cons.2 ⟨?_, ih hin hfits hapart⟩
    exact (Slot.holds_store hp hpfits).storeAll hin fun q hq => (hpapart q hq).symm

end

section

variable {layout : BinaryLayout} {dataSize : Slot} {version : Option Slot} {stored : List (Slot × Int)} {filler : Bytes}

/-- What is written has the length of the filler, starts with the magic and has the integers in their slots. -/
theorem Storable.written (h : layout.Storable stored) (hmagic : layout.magic.length ≤ filler.length)
    (hin : ∀ p ∈ stored, p.1.stop ≤ filler.length) : (layout.write stored filler).length = filler.length ∧
      (layout.write stored filler).take layout.magic.length = layout.magic ∧
      ∀ p ∈ stored, p.1.Holds (layout.write stored filler) p.2 := by
  have hfit : 0 + layout.magic.length ≤ filler.length := by omega
  rw [← Bytes.length_overwrite hfit] at hin
  refine ⟨(length_storeAll hin).trans (Bytes.length_overwrite hfit), ?_, holds_storeAll hin h.fits h.apart⟩
  exact (take_storeAll hin h.behind).trans (Bytes.slice_overwrite hfit)

/-- Integers that are written in slots behind the magic which do not overlap are read back. -/
theorem decode_write (hslots : layout.HasSlots dataSize version) {size : Nat} {told : Option (Slot × Int)}
    (htold : told.map (·.1) = version) (hstorable : layout.Storable ((dataSize, (size : Int)) :: told.toList))
    (hfiller : layout.headerSize dataSize version ≤ filler.length) (before : Bytes) :
    ∃ h, layout.decode (before ++ layout.write ((dataSize, (size : Int)) :: told.toList) filler) before.length =
      .ok (h, layout.headerSize dataSize version) ∧ h.dataSize = size ∧ h.version = told.map (·.2) := by
  obtain ⟨-, hmagic, hsize, hversion⟩ := headerSize_le_iff.1 hfiller
  have hin : ∀ p ∈ (dataSize, (size : Int)) :: told.toList, p.1.stop ≤ filler.length := by
    refine List.forall_mem_cons.2 ⟨hsize, fun p hp => ?_⟩
    rw [Option.mem_toList] at hp
    exact hversion p.1 (by rw [← htold, hp, Option.map_some])
  obtain ⟨hlen, htake, hholds⟩ := hstorable.written hmagic hin
  generalize layout.write ((dataSize, (size : Int)) :: told.toList) filler = written at hlen htake hholds ⊢
  have hdrop : (before ++ written).drop before.length = written := List.drop_left
  refine exists_decode_of_holds hslots ?_ ?_ ?_ ?_
  · rw [← take_prefix_iff, hdrop, htake]
  · rw [List.length_append]
    omega
  · rw [hdrop]
    exact hholds _ (List.mem_cons_self ..)
  · rw [hdrop, ← htold]
    cases told with
    | none => exact .none
    | some p => exact .some (hholds p (by simp))

/-- The magic, the number of bytes and the size in its slot settle in this order whether a header is refused and why.
Otherwise it takes its whole size and tells the integers in its slots, and these are the ones that were written there
if the slots do not overlap. That there are too few bytes goes unsaid only if the magic is there and one of the two
numbers to be shown has too many digits. -/
theorem decode_by_slots (hslots : layout.HasSlots dataSize version) (data : Bytes) (start : Nat) :
    ((Refused .notRecognized (layout.decode data start) ↔ layout.MagicDiffers data start) ∧
    (Refused .truncatedHeader (layout.decode data start) ↔ ¬ layout.MagicDiffers data start ∧
      data.length < start + layout.headerSize dataSize version ∧
      (layout.MagicStands data start → layout.NeedWritable dataSize version data start)) ∧
    (∀ x, layout.decode data start = .error (.escaped x) ↔ x = .unwritable ∧ layout.MagicStands data start ∧
      data.length < start + layout.headerSize dataSize version ∧
      ¬ layout.NeedWritable dataSize version data start) ∧
    (Refused .malformed (layout.decode data start) ↔ ¬ layout.MagicDiffers data start ∧
      start + layout.headerSize dataSize version ≤ data.length ∧ ∃ n < 0, dataSize.Holds (data.drop start) n) ∧
    (∀ taken, (∃ h, layout.decode data start = .ok (h, taken)) ↔ ¬ layout.MagicDiffers data start ∧
      start + layout.headerSize dataSize version ≤ data.length ∧ (∀ n < 0, ¬ dataSize.Holds (data.drop start) n) ∧
      taken = layout.headerSize dataSize version) ∧
    (∀ h taken, layout.decode data start = .ok (h, taken) → layout.Tells dataSize version (data.drop start) h)) ∧
    ∀ (size : Nat) (told : Option (Slot × Int)) (before filler : Bytes), told.map (·.1) = version →
      layout.Storable ((dataSize, (size : Int)) :: told.toList) →
      layout.headerSize dataSize version ≤ filler.length → ∃ h,
        layout.decode (before ++ layout.write ((dataSize, (size : Int)) :: told.toList) filler) before.length =
          .ok (h, layout.headerSize dataSize version) ∧ h.dataSize = size ∧ h.version = told.map (·.2) := by
  refine ⟨?_, fun size told before filler htold hstorable hfiller =>
    decode_write hslots htold hstorable hfiller before⟩
  have houtcome := decode_outcome hslots data start
  generalize layout.decode data start = result at houtcome ⊢
  cases houtcome with
  | differs hdiffers hkind =>
    have hstands : ¬ layout.MagicStands data start := fun hstands => not_magicDiffers_of_stands hstands hdiffers
    simp [refused_error, hdiffers, hkind, hstands]
  | short hsame hshort hwritable hkind =>
    simpa [refused_error, hsame, hshort, hkind, hwritable] using hwritable
  | unwritable hsame hshort hstands hwritable =>
    simp [not_refused_escaped, hsame, hshort, hstands, hwritable, eq_comm]
  | negative hsame henough hn hneg hkind =>
    have hshort : ¬ data.length < start + layout.headerSize dataSize version := by omega
    simpa [refused_error, hsame, henough, hshort, hkind] using ⟨_, hneg, hn⟩
  | found hsame henough htells =>
    have hshort : ¬ data.length < start + layout.headerSize dataSize version := by omega
    have hnonneg : ∀ n < 0, ¬ dataSize.Holds (data.drop start) n := fun n hneg hn => by
      have := hn.unique htells.dataSize
      omega
    have htaken : ∀ taken, layout.headerSize dataSize version = taken ↔ taken = layout.headerSize dataSize version :=
      fun taken => eq_comm
    simpa [not_refused_ok, hsame, henough, hshort, htells, htaken] using hnonneg

/-- A layout whose size stands behind its version and may be below zero. -/
def signedLayout : BinaryLayout :=
  { magic := [0x52, 0x52], dataSize := ⟨6, IntegerFormat.ofCode? "<i"⟩, size := 12,
    version := some ⟨2, IntegerFormat.ofCode? ">H"⟩ }

/-- A size below zero is refused, and what is written in this layout is read back. -/
theorem decode_by_slots_signed :
    Refused .malformed (signedLayout.decode [0x52, 0x52, 0, 1, 0, 0, 0xFE, 0xFF, 0xFF, 0xFF, 0, 0] 0) ∧
    ∃ h, signedLayout.decode ([0x52] ++ signedLayout.write [(⟨6, ⟨.four, true, .little⟩⟩, 300),
        (⟨2, ⟨.two, false, .big⟩⟩, 513)] (List.replicate 14 0xFF)) 1 = .ok (h, 12) ∧
      h.dataSize = 300 ∧ h.version = some 513 := by
  have hslots : signedLayout.HasSlots ⟨6, ⟨.four, true, .little⟩⟩ (some ⟨2, ⟨.two, false, .big⟩⟩) := ⟨rfl, rfl⟩
  have hsettled := decode_by_slots hslots [0x52, 0x52, 0, 1, 0, 0, 0xFE, 0xFF, 0xFF, 0xFF, 0, 0] 0
  refine ⟨hsettled.1.2.2.2.1.2 ⟨?_, by decide, -2, by decide, ?_, by decide⟩,
    hsettled.2 300 (some (⟨2, ⟨.two, false, .big⟩⟩, 513)) [0x52] (List.replicate 14 0xFF) rfl ⟨?_, ?_, ?_⟩ (by decide)⟩
  · rw [← take_prefix_iff]
    decide
  · norm_num [IntegerFormat.Fits]
    decide
  · simp [IntegerFormat.Fits, IntegerWidth.bytes]
  · simp [signedLayout]
  · simp [Slot.Apart, Slot.stop, IntegerWidth.bytes]

end

end BinaryLayout

end BinRecord
