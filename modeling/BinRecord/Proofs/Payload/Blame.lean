/-
The error of a payload that does not decode: it blames the first leaf that does not lie inside the payload or
is not valid, with its path and its place.

Reading follows the leaves in order, so each reader is judged by the leaves it reads (`Judged`): if it succeeds,
all of them are sound, and if it fails, it fails at the first that is not. Two readings one after the other are
judged by the leaves of both (`Judged.bind`).
-/
import BinRecord.Proofs.Payload.Leaves
import BinRecord.Proofs.Text.Malformed

namespace BinRecord

/-! ## Leaves that are sound and leaves that fail -/

/-- What is wrong where a leaf that goes on to the end ends with a part of a piece. -/
def LeafKind.partialFault (path : Path) (left : Nat) : LeafKind → DecodeFault
  | rest unit => .partialElement path left unit
  | _ => .partialPadding path

namespace Leaf

/-- A leaf lies inside a payload, and its bytes are valid. What goes on to the end has whole pieces only. -/
structure Sound [Codecs] (bs : Bytes) (l : Leaf) : Prop where
  inside : ∀ n, l.kind.need? = some n → l.offset + n ≤ bs.length
  whole : ∀ u, l.kind.unit? = some u → l.offset ≤ bs.length ∧ u ∣ bs.length - l.offset
  valid : ∀ w e, l.kind = .value (.text w e) → ∃ cs, e.decode ((bs.drop l.offset).take w.1) = .ok cs

/-- A leaf of a payload that starts at `start` is to blame for a failure. It starts inside the payload, and needs
more bytes than are left, or holds ill-formed bytes, or ends with a part of a piece. Or its codec fails on its bytes
in a way of its own. -/
inductive Fails [Codecs] (bs : Bytes) (start : Nat) (l : Leaf) : DecodeFailure → Prop
  | tooShort {need left : Nat} : l.kind.need? = some need → l.offset + left = bs.length → left < need →
      Fails bs start l (.error ⟨.tooShort l.path need left, start + l.offset⟩)
  | badText {w : Width} {e : Encoding} {m : Text.Malformed} : l.kind = .value (.text w e) →
      l.offset + w.1 ≤ bs.length → e.decode ((bs.drop l.offset).take w.1) = .error (.error m) → m.start < w.1 →
      Fails bs start l (.error ⟨.notText l.path e m, start + l.offset + m.start⟩)
  | partialPiece {u left : Nat} : l.kind.unit? = some u → l.offset ≤ bs.length →
      left = (bs.length - l.offset) % u → 0 < left →
      Fails bs start l (.error ⟨l.kind.partialFault l.path left, start + (bs.length - left)⟩)
  | escaped {w : Width} {e : Encoding} {x : Escape} : l.kind = .value (.text w e) → l.offset + w.1 ≤ bs.length →
      e.decode ((bs.drop l.offset).take w.1) = .error (.escaped x) → Fails bs start l (.escaped x)

end Leaf

/-! ## Readings judged by their leaves -/

/-- Reading some leaves in order comes to a value if all are sound, and else fails at the first that is not. -/
inductive Judged [Codecs] {α : Type} (bs : Bytes) (start : Nat) : List Leaf → Except DecodeFailure α → Prop
  | sound {ls : List Leaf} (v : α) : (∀ l ∈ ls, l.Sound bs) → Judged bs start ls (.ok v)
  | fails {before after : List Leaf} {l : Leaf} {e : DecodeFailure} : (∀ k ∈ before, k.Sound bs) →
      l.Fails bs start e → Judged bs start (before ++ l :: after) (.error e)

section

variable [Codecs] {α β : Type} {bs : Bytes} {start : Nat} {ls ls' : List Leaf}

theorem Judged.nil (v : α) : Judged bs start [] (.ok v) := .sound v (List.forall_mem_nil _)

theorem Judged.bind {x : Except DecodeFailure α} {f : α → Except DecodeFailure β} (hx : Judged bs start ls x)
    (hf : ∀ v, x = .ok v → Judged bs start ls' (f v)) : Judged bs start (ls ++ ls') (x >>= f) := by
  cases hx with
  | sound v hls =>
    show Judged bs start (ls ++ ls') (f v)
    generalize f v = y, hf v rfl = hy
    cases hy with
    | sound v' hls' => exact .sound v' (List.forall_mem_append.2 ⟨hls, hls'⟩)
    | fails hbefore hl =>
      rw [← List.append_assoc]
      exact .fails (List.forall_mem_append.2 ⟨hls, hbefore⟩) hl
  | fails hbefore hl =>
    rw [List.append_assoc, List.cons_append]
    exact .fails hbefore hl

/-- What is done with a value that was read has no leaves of its own. -/
theorem Judged.then {x : Except DecodeFailure α} {f : α → Except DecodeFailure β} (hx : Judged bs start ls x)
    (hf : ∀ v, x = .ok v → ∃ v', f v = .ok v') : Judged bs start ls (x >>= f) := by
  rw [← List.append_nil ls]
  refine hx.bind fun v hv => ?_
  obtain ⟨v', hv'⟩ := hf v hv
  rw [hv']
  exact .nil v'

theorem Judged.map {x : Except DecodeFailure α} (hx : Judged bs start ls x) (f : α → β) :
    Judged bs start ls (x.map f) := by
  cases hx with
  | sound v hls => exact .sound (f v) hls
  | fails hbefore hl => exact .fails hbefore hl

theorem Judged.of_fails {l : Leaf} {e : DecodeFailure} (h : l.Fails bs start e) :
    Judged bs start [l] (.error e : Except DecodeFailure α) := by
  show Judged bs start ([] ++ l :: []) _
  exact .fails (List.forall_mem_nil _) h

theorem Judged.of_sound {l : Leaf} {v : α} (h : l.Sound bs) : Judged bs start [l] (.ok v) :=
  .sound v (List.forall_mem_singleton.2 h)

end

theorem Cursor.within_of_advances {bs : Bytes} {start n q : Nat}
    (h : 0 < n → (n : Int) ≤ (within bs start q).left)
    (hq : q ≤ bs.length) : q + n ≤ bs.length := by
  rcases Nat.eq_zero_or_pos n with rfl | hpos
  · exact hq
  · have : (n : Int) ≤ bs.length - q := h hpos
    omega

section Readers

variable [Codecs] {bs : Bytes} {start : Nat}

/-- A leaf that needs more bytes than are left is to blame. -/
theorem Leaf.fails_of_take {l : Leaf} {n : Nat} {e : DecodeFailure} (hn : l.kind.need? = some n)
    (hq : l.offset ≤ bs.length) (h : (Cursor.within bs start l.offset).take l.path n = .error e) :
    l.Fails bs start e := by
  obtain ⟨hlt, rfl⟩ := (Cursor.take_eq_error hq).1 h
  exact .tooShort hn (Nat.add_sub_of_le hq) hlt

/-- A leaf that goes on to the end is sound if whole pieces are left. -/
theorem Leaf.sound_of_mod_eq_zero {l : Leaf} {u : Nat} (hu : l.kind.unit? = some u) (hq : l.offset ≤ bs.length)
    (hmod : (bs.length - l.offset) % u = 0) : l.Sound bs where
  inside n hn := by
    rw [LeafKind.need?_eq_none hu] at hn
    cases hn
  whole u' hu' := by
    cases hu.symm.trans hu'
    exact ⟨hq, Nat.dvd_of_mod_eq_zero hmod⟩
  valid w e hkind := by
    rw [hkind] at hu
    cases hu

/-- Reading a primitive is reading one leaf. -/
theorem Primitive.judged_read [Codecs.Located] (p : Primitive) (path : Path) {q : Nat} (hq : q ≤ bs.length) :
    Judged bs start [⟨path, q, .value p⟩] (p.read path (.within bs start q)) := by
  cases hread : p.read path (.within bs start q) with
  | ok r =>
    obtain ⟨v, c⟩ := r
    obtain ⟨hin, hv, -⟩ := read_eq_ok.1 hread
    refine .of_sound ⟨fun n hn => ?_, fun u hu => ?_, fun w e he => ?_⟩
    · cases hn
      exact hin
    · cases hu
    · cases he
      simp only [value?, Option.map_eq_some_iff, except_toOption_eq_some] at hv
      obtain ⟨cs, hcs, -⟩ := hv
      exact ⟨cs, hcs⟩
  | error e =>
    refine .of_fails ?_
    unfold read at hread
    rcases except_bind_eq_error.1 hread with htake | ⟨⟨xs, after⟩, htake, hread⟩
    · exact Leaf.fails_of_take rfl hq htake
    · obtain ⟨hin, hr⟩ := Cursor.take_eq_ok.1 htake
      cases hr
      cases p with
      | text w encoding =>
        dsimp only at hread
        split at hread
        · cases hread
        · rename_i failure hfailure
          cases hread
          cases failure with
          | escaped x => exact .escaped rfl hin hfailure
          | error m =>
            have hlen : ((bs.drop q).take (text w encoding).width).length = w.1 := by
              rw [List.length_take, List.length_drop]
              exact Nat.min_eq_left (Nat.le_sub_of_add_le' hin)
            have hstart := Codecs.Located.start_lt hfailure (List.ne_nil_of_length_pos (hlen ▸ w.2))
            rw [hlen] at hstart
            exact .badText rfl hin hfailure hstart
      | _ => cases hread

section Arrays

variable {element : Path → Cursor → Except DecodeFailure (Value × Cursor)} {leaves : Path → Nat → List Leaf} {u : Nat}

/-- A reader of elements is judged by the leaves of the element it reads. -/
def JudgedBy (bs : Bytes) (start : Nat) (leaves : Path → Nat → List Leaf)
    (reader : Path → Cursor → Except DecodeFailure (Value × Cursor)) : Prop :=
  ∀ path q, q ≤ bs.length → Judged bs start (leaves path q) (reader path (.within bs start q))

theorem judged_readItems (he : JudgedBy bs start leaves element) (hu : Advances u element) (path : Path) (o : Nat) :
    ∀ (count i : Nat) (done : List Value), o + i * u ≤ bs.length →
      Judged bs start ((List.range' i count).flatMap fun j => leaves (path.item j) (o + j * u))
        (readItems element path i done count (.within bs start (o + i * u)))
  | 0, _, done, _ => .nil _
  | count + 1, i, done, hq => by
    rw [List.range'_succ, List.flatMap_cons, readItems]
    refine (he _ _ hq).bind ?_
    rintro ⟨v, c⟩ hv
    obtain ⟨rfl, hle⟩ := hu _ _ v c hv
    have hnext : o + i * u + u = o + (i + 1) * u := by rw [Nat.succ_mul, Nat.add_assoc]
    rw [Cursor.skip_within, hnext]
    exact judged_readItems he hu path o count (i + 1) (v :: done) (hnext ▸ Cursor.within_of_advances hle hq)

/-- Reading an array is reading the leaves of its elements, and at the end what is left. -/
theorem judged_readArity (he : JudgedBy bs start leaves element) {a : Arity}
    (hu : a ≠ .single → Advances u element ∧ 0 < u) :
    JudgedBy bs start (a.leaves bs.length u leaves) fun path => readArity element u path a := by
  intro path q hq
  cases a with
  | single => exact he path q hq
  | times k =>
    obtain ⟨hu, -⟩ := hu (by simp)
    have hitems := judged_readItems he hu path q k 0 [] (by simpa using hq)
    rw [Nat.zero_mul, Nat.add_zero, ← List.range_eq_range'] at hitems
    exact hitems.then fun _ _ => ⟨_, rfl⟩
  | toEnd =>
    obtain ⟨hu, hpos⟩ := hu (by simp)
    have hitems := judged_readItems he hu path q ((bs.length - q) / u) 0 [] (by simpa using hq)
    rw [Nat.zero_mul, Nat.add_zero, ← List.range_eq_range'] at hitems
    dsimp only [readArity]
    rw [Arity.leaves, Cursor.toNat_left_within]
    refine hitems.bind ?_
    rintro ⟨vs, c⟩ hvs
    obtain ⟨rfl, -⟩ := readItems_advances hu hvs
    -- what is left after the whole elements
    have hrest := Nat.div_add_mod (bs.length - q) u
    have hcursor : (Cursor.within bs start (q + u * ((bs.length - q) / u))).left = ((bs.length - q) % u : Nat) := by
      show (bs.length : Int) - (q + u * ((bs.length - q) / u) : Nat) = _
      omega
    rw [Cursor.skip_within]
    dsimp only
    rw [hcursor]
    split
    · rename_i hlt
      have hoffset : (Cursor.within bs start (q + u * ((bs.length - q) / u))).offset =
          start + ((bs.length : Int) - ((bs.length - q) % u : Nat)) := by
        show (start : Int) + (q + u * ((bs.length - q) / u) : Nat) = _
        omega
      rw [hoffset]
      exact .of_fails (.partialPiece rfl hq rfl (by omega))
    · rename_i hzero
      exact .of_sound (Leaf.sound_of_mod_eq_zero rfl hq (show (bs.length - q) % u = 0 by omega))

end Arrays

/-- Passing padding is reading one leaf. -/
theorem judged_skipPadding (unit : Nat) (a : Arity) (path : Path) {q : Nat} (hq : q ≤ bs.length) :
    Judged bs start [⟨path, q, .padding unit a⟩] (skipPadding unit path a (.within bs start q)) := by
  -- so many bytes are passed at once
  have htake : ∀ n, a.width (some unit) = some n → Judged bs start [⟨path, q, .padding unit a⟩]
      ((Cursor.within bs start q).take path n >>= fun r => .ok r.2) := fun n hn => by
    cases hr : (Cursor.within bs start q).take path n with
    | ok r =>
      obtain ⟨hin, -⟩ := Cursor.take_eq_ok.1 hr
      refine .of_sound ⟨fun n' hn' => ?_, fun u hu => ?_, fun _ _ hkind => ?_⟩
      · cases hn.symm.trans hn'
        exact hin
      · cases hn.symm.trans (LeafKind.need?_eq_none hu)
      · cases hkind
    | error e => exact .of_fails (Leaf.fails_of_take hn hq hr)
  cases a with
  | single => exact htake unit rfl
  | times k => exact htake (unit * k) rfl
  | toEnd =>
    rw [skipPadding, Cursor.left_within hq, ← Int.natCast_mod]
    split
    · rename_i hne
      have hle := Nat.mod_le (bs.length - q) unit
      have hoffset : (Cursor.within bs start q).offset + ((bs.length - q : Nat) : Int) -
          ((bs.length - q) % unit : Nat) = start + ((bs.length : Int) - ((bs.length - q) % unit : Nat)) := by
        show (start : Int) + q + _ - _ = _
        omega
      rw [hoffset]
      exact .of_fails (.partialPiece rfl hq rfl (by omega))
    · rename_i hzero
      exact .of_sound (Leaf.sound_of_mod_eq_zero rfl hq (show (bs.length - q) % unit = 0 by omega))

/-- Reading a field is reading its leaves. -/
theorem judged_readEntry {shape : Shape} {a : Arity}
    (hs : JudgedBy bs start (shape.leaves bs.length) shape.read)
    (hadv : ∀ u, shape.width = some u → Advances u shape.read)
    (ha : a ≠ .single → ∃ u, shape.width = some u ∧ 0 < u) (path : Path) {q : Nat} (hq : q ≤ bs.length) :
    Judged bs start (shape.entryLeaves bs.length (shape.leaves bs.length) a path q)
      (Schema.readEntry shape a path (.within bs start q)) := by
  unfold Schema.readEntry Shape.entryLeaves
  cases shape.paddingUnit? with
  | some unit => exact (judged_skipPadding unit a path hq).map _
  | none =>
    refine (judged_readArity hs (fun hne => ?_) path q hq).map _
    obtain ⟨u, hu, hpos⟩ := ha hne
    rw [hu]
    exact ⟨hadv u hu, hpos⟩

mutual

/-- Reading a value of a shape is reading its leaves. -/
theorem Shape.Fitting.judged [Codecs.Located] {ok : Primitive → Prop} : ∀ {shape : Shape}, shape.Fitting ok →
    JudgedBy bs start (shape.leaves bs.length) shape.read
  | .primitive p, _, path, q, hq => by
    rw [leaves, Schema.read_primitive]
    exact p.judged_read path hq
  | .struct _ fields, .struct hfields, path, q, hq => by
    rw [leaves, read]
    exact (Shape.FieldsFitting.judged hfields path q hq).then fun _ _ => ⟨_, rfl⟩

theorem Shape.FieldsFitting.judged [Codecs.Located] {ok : Primitive → Prop} : ∀ {fields : List (String × Arity × Shape)}
    {total : Option Nat}, FieldsFitting ok fields total → ∀ (path : Path) (q : Nat), q ≤ bs.length →
      Judged bs start (fieldLeaves bs.length fields path q) (readFields fields path (.within bs start q))
  | [], _, .nil, path, q, _ => by
    rw [fieldLeaves, readFields]
    exact .nil _
  | (name, a, shape) :: fields, _, .cons (w := w) hshape ha hw hfields, path, q, hq => by
    have hadv := fun u hu => Shape.Fitting.advances hshape (w := u) hu
    have hown := judged_readEntry (Shape.Fitting.judged hshape) hadv ha (path.field name) hq
    rw [fieldLeaves, Schema.readFields_cons, hw, Option.getD_some]
    refine hown.bind ?_
    rintro ⟨v, c⟩ hv
    obtain ⟨rfl, hle⟩ := Schema.readEntry_advances hadv hw _ _ v c hv
    rw [Cursor.skip_within]
    exact (Shape.FieldsFitting.judged hfields path (q + w) (Cursor.within_of_advances hle hq)).then
      fun _ _ => ⟨_, rfl⟩
  | [(name, a, shape)], _, .last hshape ha hw, path, q, hq => by
    have hadv := fun u hu => Shape.Fitting.advances hshape (w := u) hu
    have hown := judged_readEntry (Shape.Fitting.judged hshape) hadv ha (path.field name) hq
    rw [fieldLeaves, Schema.readFields_cons, fieldLeaves, List.append_nil]
    exact hown.then fun _ _ => ⟨_, rfl⟩

end

end Readers

/-! ## Errors of payloads -/

namespace Schema

variable {s : Schema} {steps : List PathStep} {t : FieldType Nat} {kind : LeafKind}

theorem LeafAt.width_of_need (h : s.LeafAt steps t kind) {n : Nat} (hn : kind.need? = some n) :
    s.widthOf t = some n := by
  cases h with
  | value => exact hn
  | padding => exact hn
  | rest => cases hn

theorem LeafAt.toEnd_of_unit (h : s.LeafAt steps t kind) {u : Nat} (hu : kind.unit? = some u) :
    ∃ b, t = ⟨b, .toEnd⟩ ∧ s.baseWidth b = some u := by
  cases h with
  | value => cases hu
  | @padding w a _ =>
    cases a with
    | toEnd =>
      cases hu
      exact ⟨_, rfl, rfl⟩
    | _ => cases hu
  | rest _ hw =>
    cases hu
    exact ⟨_, rfl, hw⟩

/-- The leaves of a payload are those among the parts to which the layout leads, with their paths and offsets. An
infinite array has as many elements as find room. -/
def LeavesPlaced (s : Schema) (n : Nat) : Prop :=
  ∃ m, s.Counts m n (s.Tail s.rootType) 0 ∧ ∀ l, l ∈ s.leaves n ↔
    ∃ steps o t kind, s.Leads m s.rootType steps o t ∧ s.LeafAt steps t kind ∧ l = ⟨s.pathOf steps, o, kind⟩

/-- An error of the payload that starts at `start` blames the first of its leaves that is not sound. Where the
infinite array starts inside the payload and ends with a part of an element, an error of truncation blames the
array itself: all its whole elements are sound, and the error lies behind them. -/
structure Blames [Codecs] (s : Schema) (payload : Bytes) (start : Nat) (e : DecodeError) : Prop where
  placed : s.LeavesPlaced payload.length
  first : ∃ before l after, s.leaves payload.length = before ++ l :: after ∧ (∀ k ∈ before, k.Sound payload) ∧
    l.Fails payload start (.error e)
  openArray : ∀ m steps o b u, s.Leads m s.rootType steps o ⟨b, .toEnd⟩ → s.baseWidth b = some u →
    o ≤ payload.length → ¬ u ∣ payload.length - o → e.fault.kind = .truncated →
    ∃ elements kind, s.leaves payload.length = elements ++ [⟨s.pathOf steps, o, kind⟩] ∧
      (∀ k ∈ elements, k.Sound payload) ∧ s.LeafAt steps ⟨b, .toEnd⟩ kind ∧
      e = ⟨kind.partialFault (s.pathOf steps) ((payload.length - o) % u),
        start + (payload.length - ((payload.length - o) % u : Nat))⟩

theorem WellFormed.leavesPlaced (h : s.WellFormed) (n : Nat) : s.LeavesPlaced n := by
  obtain ⟨m, hm⟩ := h.exists_counts n
  exact ⟨m, hm, fun l => h.mem_leaves_iff hm⟩

theorem WellFormed.openAtEnd_leaves (h : s.WellFormed) (n : Nat) : OpenAtEnd (s.leaves n) s.rootStruct.width := by
  have hwidth : (s.shapeAt s.root).width = s.rootStruct.width := by rw [h.shapeAt_eq]; rfl
  rw [← hwidth]
  exact (h.fitting_any s.root).openAtEnd n _ 0

/-- Decoding is judged by the leaves of the payload. -/
theorem WellFormed.first_fails [Codecs] [Codecs.Located] (h : s.WellFormed) {data : Bytes} {offset stop : Nat}
    {size : Option Int}
    (hstop : payloadEnd data offset size = stop) (hle : offset ≤ stop) (hlen : stop ≤ data.length) {e : DecodeError}
    (he : s.decode data offset size = .error (.error (.decode e))) {payload : Bytes}
    (hpayload : (data.drop offset).take (stop - offset) = payload) :
    ∃ before l after, s.leaves payload.length = before ++ l :: after ∧ (∀ k ∈ before, k.Sound payload) ∧
      l.Fails payload offset (.error e) := by
  have hjudged : Judged payload offset (s.leaves payload.length)
      ((s.shapeAt s.root).read ⟨s.rootStruct.name, []⟩ (.within payload offset 0)) :=
    (h.fitting_any s.root).judged _ 0 (Nat.zero_le _)
  rw [decode_eq_read hstop hle hlen, hpayload] at he
  generalize s.leaves payload.length = ls, (s.shapeAt s.root).read _ _ = x at he hjudged
  cases hjudged with
  | sound v _ => cases he
  | fails hbefore hl =>
    obtain rfl := eq_of_ofRead (Except.error.inj he)
    exact ⟨_, _, _, rfl, hbefore, hl⟩

/-- Where an infinite array starts inside the payload and ends with a part of an element, no leaf is too short. -/
theorem WellFormed.not_tooShort (h : s.WellFormed) {n m o u need : Nat} {b : BaseType Nat} {l : Leaf}
    (htail : s.Tail s.rootType o b) (hu : s.baseWidth b = some u) (ho : o ≤ n)
    (hm : s.Counts m n (s.Tail s.rootType) 0) (hl : s.Leads m s.rootType steps l.offset t)
    (hleaf : s.LeafAt steps t l.kind) (hneed : l.kind.need? = some need) : l.offset + need ≤ n := by
  have hle := h.leads_le_tail hl htail hu (hleaf.width_of_need hneed)
  rw [hm o b u htail hu, Nat.zero_add] at hle
  have := Nat.div_mul_le_self (n - o) u
  omega

/-- Errors blame the first leaf of the payload that is too short or not valid. -/
theorem decode_blames_first [Codecs] [Codecs.Located] {text : String} {root : Option String}
    (h : compile text root = .ok s) (data : Bytes)
    (offset stop : Nat) (size : Option Int) (hstop : payloadEnd data offset size = stop) (hle : offset ≤ stop)
    (hlen : stop ≤ data.length) (e : DecodeError)
    (he : s.decode data offset size = .error (.error (.decode e))) :
    s.Blames ((data.drop offset).take (stop - offset)) offset e := by
  have hs := wellFormed_of_compile h
  generalize hpayload : (data.drop offset).take (stop - offset) = payload
  have hfirst := hs.first_fails hstop hle hlen he hpayload
  have hplaced := hs.leavesPlaced payload.length
  refine ⟨hplaced, hfirst, fun k steps o b u hsteps hu ho hdvd hkind => ?_⟩
  obtain ⟨before, l, after, hls, hbefore, hfails⟩ := hfirst
  obtain ⟨m, hm, hmem⟩ := hplaced
  obtain ⟨steps', o', t, kind, hlead, hleaf, rfl⟩ := (hmem l).1 (hls ▸ by simp)
  cases hfails with
  | tooShort hneed hleft hlt =>
    have := hs.not_tooShort (l := ⟨s.pathOf steps', o', kind⟩) (hs.tail_of_leads hsteps) hu ho hm hlead hleaf hneed
    omega
  | badText => cases hkind
  | partialPiece hunit hin hleft hpos =>
    obtain ⟨b', rfl, hu'⟩ := hleaf.toEnd_of_unit hunit
    obtain ⟨rfl, rfl, rfl⟩ := hs.eq_of_leads_toEnd hsteps hlead
    cases hu.symm.trans hu'
    subst hleft
    -- the array is the last leaf, so its elements are among those before it
    have hopen := hs.openAtEnd_leaves payload.length
    rw [hls] at hopen ⊢
    obtain rfl := hopen.eq_nil_of_open (by simp [hunit])
    exact ⟨before, kind, rfl, hbefore, hleaf, rfl⟩

/-- A payload inside other bytes that is cut off in an item of an array, and one that is cut off in an element of
the infinite array. -/
theorem decode_blames_first_cut : ∃ s e e',
    compile "struct P { x: U8, y: U16LE } struct R { gap: PAD<1>[2], ps: P[2], rest: P[+] }" none = .ok s ∧
    s.decode [0, 9, 9, 1, 2, 3, 4, 5, 0] 1 (some 7) = .error (.error (.decode e)) ∧
    e.diagnostic.detail = "R.ps[1].y needs 2 byte(s), 1 left in payload" ∧
    s.Blames [9, 9, 1, 2, 3, 4, 5] 1 e ∧
    s.decode [0, 9, 9, 1, 2, 3, 4, 5, 6, 7, 8, 9, 1, 2] 1 none = .error (.error (.decode e')) ∧
    e'.diagnostic.detail = "R.rest ends with a partial element: 2 byte(s) left, element needs 3" ∧
    s.Blames [9, 9, 1, 2, 3, 4, 5, 6, 7, 8, 9, 1, 2] 1 e' := by
  have hall : (compile "struct P { x: U8, y: U16LE } struct R { gap: PAD<1>[2], ps: P[2], rest: P[+] }"
      none).toOption.any (fun s =>
        (s.decode [0, 9, 9, 1, 2, 3, 4, 5, 0] 1 (some 7)).map (fun _ => ()) =
          .error (.error (.decode ⟨.tooShort ⟨"R", [.field "y", .item 1, .field "ps"]⟩ 2 1, 7⟩)) ∧
        (s.decode [0, 9, 9, 1, 2, 3, 4, 5, 6, 7, 8, 9, 1, 2] 1 none).map (fun _ => ()) =
          .error (.error (.decode ⟨.partialElement ⟨"R", [.field "rest"]⟩ 2 3, 12⟩))) = true := by
    decide +kernel
  obtain ⟨s, hs, hall⟩ := (Option.any_eq_true ..).1 hall
  obtain ⟨hitem, hrest⟩ := of_decide_eq_true hall
  rw [except_toOption_eq_some] at hs
  rw [except_map_eq_error] at hitem hrest
  exact ⟨s, _, _, hs, hitem, by decide +kernel,
    decode_blames_first hs [0, 9, 9, 1, 2, 3, 4, 5, 0] 1 8 (some 7) rfl (by decide) (by decide) _ hitem,
    hrest, by decide +kernel,
    decode_blames_first hs [0, 9, 9, 1, 2, 3, 4, 5, 6, 7, 8, 9, 1, 2] 1 14 none rfl (by decide) (by decide) _ hrest⟩

end Schema

end BinRecord
