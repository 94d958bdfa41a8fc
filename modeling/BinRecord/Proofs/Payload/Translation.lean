/-
Decoding depends on the bytes of its region only, and not on where they stand: a payload decodes as its
bytes do alone, with the offsets of errors moved by that of the payload.

A cursor holds nothing but what is left of the region, so the proof is that every reader, given a cursor
that is moved by some bytes, comes to the same with its cursor or its error moved by as many (`Moves`).
-/
import BinRecord.Payload.Decode
import BinRecord.Proofs.Traversal
import BinRecord.Schema.Compile
import BinRecord.Text.StandardCodecs

namespace BinRecord

/-! ## Moving a cursor -/

/-- The cursor of the same bytes, which stand `d` bytes further on. -/
def Cursor.move (d : Int) (c : Cursor) : Cursor := ⟨c.rest, c.offset + d, c.left⟩

/-- The same error `d` bytes further on. -/
def DecodeError.move (d : Int) (e : DecodeError) : DecodeError := ⟨e.fault, e.offset + d⟩

section Readers

variable {α : Type} {d : Int}

/-- What a reader comes to `d` bytes further on. -/
abbrev moveRead (d : Int) : Except DecodeFailure (α × Cursor) → Except DecodeFailure (α × Cursor) :=
  relocate (Failure.map (DecodeError.move d)) (Prod.map id (Cursor.move d))

/-- A reader does the same wherever its bytes stand. -/
def Moves (d : Int) (reader : Path → Cursor → Except DecodeFailure (α × Cursor)) : Prop :=
  ∀ path c, reader path (c.move d) = moveRead d (reader path c)

theorem Cursor.skip_move (c : Cursor) (n : Int) : (c.move d).skip n = (c.skip n).move d := by
  simp only [skip, move, Cursor.mk.injEq, true_and, and_true]
  omega

theorem Cursor.take_move (c : Cursor) (path : Path) (n : Nat) :
    (c.move d).take path n = moveRead d (c.take path n) := by
  have hleft : (c.move d).left = c.left := rfl
  unfold take
  rw [hleft, skip_move]
  split <;> rfl

/-! ## Readers -/

theorem Primitive.moves_read [Codecs] (p : Primitive) : Moves d p.read := by
  intro path c
  unfold read
  refine relocate_bind (c.take_move path p.width) fun r => ?_
  obtain ⟨bs, after⟩ := r
  cases p with
  | text w encoding =>
    simp only [Prod.map, id]
    cases encoding.decode bs with
    | ok cs => rfl
    | error e =>
      cases e with
      | error m =>
        simp only [relocate, Failure.map, DecodeError.move, Cursor.move, Except.error.injEq, Failure.error.injEq,
          DecodeError.mk.injEq, true_and]
        omega
      | escaped x => rfl
  | _ => rfl

theorem readItems_move {element : Path → Cursor → Except DecodeFailure (Value × Cursor)} (he : Moves d element)
    (path : Path) : ∀ (i : Nat) (done : List Value) (count : Nat) (c : Cursor),
      readItems element path i done count (c.move d) = moveRead d (readItems element path i done count c)
  | _, _, 0, _ => rfl
  | i, _, count + 1, c => relocate_bind (he (path.item i) c) fun r => readItems_move he path (i + 1) _ count r.2

theorem moves_readArity {element : Path → Cursor → Except DecodeFailure (Value × Cursor)} (he : Moves d element)
    (width : Nat) (a : Arity) : Moves d fun path => readArity element width path a := by
  intro path c
  cases a with
  | single => exact he path c
  | times length =>
    exact relocate_bind (readItems_move he path 0 [] length c) fun r => rfl
  | toEnd =>
    refine relocate_bind (readItems_move he path 0 [] (c.left.toNat / width) c) fun r => ?_
    have hleft : (r.2.move d).left = r.2.left := rfl
    simp only [Prod.map, id, hleft]
    split <;> rfl

theorem skipPadding_move (unit : Nat) (path : Path) (a : Arity) (c : Cursor) :
    skipPadding unit path a (c.move d) =
      relocate (Failure.map (DecodeError.move d)) (Cursor.move d) (skipPadding unit path a c) := by
  cases a with
  | single => exact relocate_bind (c.take_move path unit) fun r => rfl
  | times length => exact relocate_bind (c.take_move path (unit * length)) fun r => rfl
  | toEnd =>
    have hleft : (c.move d).left = c.left := rfl
    simp only [skipPadding, hleft]
    split
    · simp only [relocate, Failure.map, DecodeError.move, Cursor.move, Except.error.injEq, Failure.error.injEq,
        DecodeError.mk.injEq, true_and]
      omega
    · rw [Cursor.skip_move]
      rfl

mutual

theorem Shape.moves_read [Codecs] : ∀ shape : Shape, Moves d shape.read
  | .primitive p => by
    intro path c
    rw [read, read]
    exact p.moves_read path c
  | .struct w fields => by
    intro path c
    rw [read, read]
    exact relocate_bind (Shape.moves_readFields fields path c) fun r => rfl

theorem Shape.moves_readFields [Codecs] : ∀ fields : List (String × Arity × Shape), Moves d (Shape.readFields fields)
  | [] => by
    intro path c
    rw [readFields, readFields]
    rfl
  | (name, arity, shape) :: fields => by
    intro path c
    rw [readFields, readFields]
    cases shape.paddingUnit? with
    | some unit =>
      exact relocate_bind (skipPadding_move unit (path.field name) arity c) fun c' =>
        Shape.moves_readFields fields path c'
    | none =>
      have hvalue := moves_readArity (Shape.moves_read shape) (shape.width.getD 0) arity
      exact relocate_bind (hvalue (path.field name) c) fun r =>
        relocate_bind (Shape.moves_readFields fields path r.2) fun r' => rfl

end

end Readers

/-! ## Payloads -/

/-- Whether an error can be shown does not depend on its place, if this is in the data. -/
theorem PayloadError.ofRead_move (d : Int) (e : DecodeFailure) :
    (∃ e' : DecodeError, ofRead false e = .error (.decode e') ∧
        ofRead false (e.map (DecodeError.move d)) = .error (.decode (e'.move d))) ∨
      ∃ x, ofRead false e = .escaped x ∧ ofRead false (e.map (DecodeError.move d)) = .escaped x := by
  cases e with
  | error e =>
    by_cases hshown : e.fault.numbers.all Text.isWritable = true
    · exact .inl ⟨e, by simp [ofRead, DecodeError.failure, Failure.map, hshown],
        by simp [ofRead, DecodeError.failure, Failure.map, DecodeError.move, hshown]⟩
    · exact .inr ⟨.unwritable, by simp [ofRead, DecodeError.failure, Failure.map, hshown],
        by simp [ofRead, DecodeError.failure, Failure.map, DecodeError.move, hshown]⟩
  | escaped x => exact .inr ⟨x, rfl, rfl⟩

namespace Schema

section Payloads

variable [Codecs] (s : Schema)

theorem decode_none (data : Bytes) : s.decode data 0 none =
    ((s.readAt ⟨data, 0, data.length⟩).map (·.1)).mapError (PayloadError.ofRead false) := by
  have hregion : Cursor.ofRegion data 0 data.length = ⟨data, 0, data.length⟩ := by simp [Cursor.ofRegion]
  unfold decode
  simp only [hregion]
  cases s.readAt ⟨data, 0, data.length⟩ <;> rfl

theorem decode_some {data : Bytes} {offset n : Nat} (h : offset + n ≤ data.length) :
    s.decode data offset (some n) =
      ((s.readAt ⟨(data.drop offset).take n, offset, n⟩).map (·.1)).mapError (PayloadError.ofRead false) := by
  have hregion : Cursor.ofRegion data offset (offset + n) = ⟨(data.drop offset).take n, offset, n⟩ := by
    have hleft : (offset : Int) + n - offset = n := by omega
    simp only [Cursor.ofRegion, hleft, Int.toNat_natCast]
  have hbeyond : decide (data.length < offset) = false := decide_eq_false (by omega)
  unfold decode
  simp only [hregion, hbeyond]
  rw [if_neg (by omega)]
  cases s.readAt ⟨(data.drop offset).take n, offset, n⟩ <;> rfl

/-- A payload inside the data decodes as its bytes do alone. -/
theorem decode_region {data : Bytes} {offset n : Nat} (h : offset + n ≤ data.length) :
    (∃ v, s.decode data offset (some n) = .ok v ∧ s.decode ((data.drop offset).take n) 0 none = .ok v) ∨
      (∃ e : DecodeError, s.decode data offset (some n) = .error (.error (.decode (e.move offset))) ∧
        s.decode ((data.drop offset).take n) 0 none = .error (.error (.decode e))) ∨
      ∃ x, s.decode data offset (some n) = .error (.escaped x) ∧
        s.decode ((data.drop offset).take n) 0 none = .error (.escaped x) := by
  rw [s.decode_some h, decode_none]
  have hlen : ((data.drop offset).take n).length = n := by
    rw [List.length_take, List.length_drop]
    omega
  generalize (data.drop offset).take n = region at hlen ⊢
  have hmove : s.readAt ⟨region, offset, n⟩ = moveRead offset (s.readAt ⟨region, 0, region.length⟩) := by
    have hcursor : (⟨region, offset, n⟩ : Cursor) = Cursor.move offset ⟨region, 0, region.length⟩ := by
      simp [Cursor.move, hlen]
    rw [hcursor]
    exact Shape.moves_read s.shape _ _
  rw [hmove]
  cases s.readAt ⟨region, 0, region.length⟩ with
  | ok r => exact .inl ⟨r.1, rfl, rfl⟩
  | error e =>
    rcases PayloadError.ofRead_move offset e with ⟨e', he, he'⟩ | ⟨x, hx, hx'⟩
    · exact .inr (.inl ⟨e', congrArg _ he', congrArg _ he⟩)
    · exact .inr (.inr ⟨x, congrArg _ hx', congrArg _ hx⟩)

/-- A payload between other bytes decodes to the value that its bytes have alone, or fails with the same
fault so many bytes further on as stand before it, or the same escapes. What the other bytes are makes no
difference. -/
theorem decode_between (pre region post : Bytes) :
    ((∃ v, s.decode (pre ++ region ++ post) pre.length (some region.length) = .ok v ∧
        s.decode region 0 none = .ok v) ∨
      (∃ e e', s.decode (pre ++ region ++ post) pre.length (some region.length) = .error (.error (.decode e')) ∧
        s.decode region 0 none = .error (.error (.decode e)) ∧
        e'.fault = e.fault ∧ e'.offset = e.offset + pre.length) ∨
      ∃ x, s.decode (pre ++ region ++ post) pre.length (some region.length) = .error (.escaped x) ∧
        s.decode region 0 none = .error (.escaped x)) ∧
    ∀ pre' post' : Bytes, pre'.length = pre.length →
      s.decode (pre' ++ region ++ post') pre'.length (some region.length) =
        s.decode (pre ++ region ++ post) pre.length (some region.length) := by
  have hregion : ∀ pre post : Bytes, ((pre ++ region ++ post).drop pre.length).take region.length = region := by
    intro pre post
    rw [List.append_assoc, List.drop_left, List.take_left]
  have hle : ∀ pre post : Bytes, pre.length + region.length ≤ (pre ++ region ++ post).length := by
    intro pre post
    simp only [List.length_append]
    omega
  have halone := fun pre post => s.decode_region (hle pre post)
  simp only [hregion] at halone
  constructor
  · rcases halone pre post with ⟨v, hv, hv'⟩ | ⟨e, he, he'⟩ | ⟨x, hx, hx'⟩
    · exact .inl ⟨v, hv, hv'⟩
    · exact .inr (.inl ⟨e, e.move pre.length, he, he', rfl, rfl⟩)
    · exact .inr (.inr ⟨x, hx, hx'⟩)
  · intro pre' post' hlen
    rw [s.decode_some (hle pre' post'), s.decode_some (hle pre post), hregion, hregion, hlen]

end Payloads

/-- A payload that ends inside an element, between other bytes. -/
theorem decode_between_partial : ∃ s e, compile "struct R { n: U8, rest: U16[+] }" none = .ok s ∧
    s.decode [1, 0, 2, 9] 0 none = .error (.error (.decode e)) ∧
    s.decode ([7, 7] ++ [1, 0, 2, 9] ++ [5]) 2 (some 4) = .error (.error (.decode ⟨e.fault, e.offset + 2⟩)) ∧
    s.decode ([8, 8] ++ [1, 0, 2, 9] ++ []) 2 (some 4) = .error (.error (.decode ⟨e.fault, e.offset + 2⟩)) := by
  have hfails : (compile "struct R { n: U8, rest: U16[+] }" none).toOption.any (fun s =>
      (s.decode [1, 0, 2, 9] 0 none).map (fun _ => ()) =
        .error (.error (.decode ⟨.partialElement ⟨"R", [.field "rest"]⟩ 1 2, 3⟩))) = true := by
    decide +kernel
  obtain ⟨s, hs, hfail⟩ := (Option.any_eq_true ..).1 hfails
  rw [except_toOption_eq_some] at hs
  have halone := except_map_eq_error.1 (of_decide_eq_true hfail)
  obtain ⟨hmoved, hsame⟩ := s.decode_between [7, 7] [1, 0, 2, 9] [5]
  have hsame := hsame [8, 8] [] rfl
  rcases hmoved with ⟨v, -, hv⟩ | ⟨e, ⟨fault, offset⟩, he', he, hfault, hoffset⟩ | ⟨x, -, hx⟩
  · rw [hv] at halone
    cases halone
  · subst hfault hoffset
    exact ⟨s, e, hs, he, he', hsame.trans he'⟩
  · rw [hx] at halone
    cases halone

end Schema

end BinRecord
