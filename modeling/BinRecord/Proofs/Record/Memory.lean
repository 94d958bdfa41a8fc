/-
A reader remembers nothing that shows. Whatever was done with it before, with success or not, an operation
answers what it answers on a reader that is new, has the same data and the options now in force: the only
other thing a reader holds is its schemas, and those are what compiling gives again.
-/
import BinRecord.Proofs.Record.Cache

namespace BinRecord

/-! ## Reading with different caches -/

namespace ReaderOptions

variable [Codecs] {o : ReaderOptions} {data : Bytes}

/-- Caches make no difference to the records that are read one after the other. -/
theorem recordsFrom_fst : ∀ {fuel : Nat} {cache cache' : SchemaCache} {done : List Record} {offset : Nat},
    cache.Sound → cache'.Sound →
      (o.recordsFrom data fuel cache done offset).1 = (o.recordsFrom data fuel cache' done offset).1
  | 0, _, _, _, _, _, _ => rfl
  | fuel + 1, cache, cache', done, offset, h, h' => by
    -- both caches lead to the same record, and both stay sound
    have hfst : (o.recordAt cache data offset).1 = (o.recordAt cache' data offset).1 := by
      rw [recordAt_fst h, recordAt_fst h']
    have hsnd : (o.recordAt cache data offset).2.Sound := recordAt_snd h offset
    have hsnd' : (o.recordAt cache' data offset).2.Sound := recordAt_snd h' offset
    unfold recordsFrom
    split
    · rfl
    · generalize o.recordAt cache data offset = found at hfst hsnd ⊢
      generalize o.recordAt cache' data offset = found' at hfst hsnd' ⊢
      obtain ⟨result, kept⟩ := found
      obtain ⟨result', kept'⟩ := found'
      change result = result' at hfst
      subst hfst
      cases result with
      | ok r => exact recordsFrom_fst hsnd hsnd'
      | error e =>
        dsimp only
        split <;> rfl

end ReaderOptions

namespace Reader

/-! ## Operations -/

/-- What can be done with a reader. -/
inductive Operation where
  | read (index : Int)
  | readHeader (index : Int)
  | records
  | setOptions (options : ReaderOptions)

/-- What a reader answers: a record, a header, all records up to the first failure, or nothing. -/
inductive Answer where
  | record (result : Except ReadFailure Record)
  | header (result : Except ReadFailure Header)
  | records (found : List Record) (stopped : Option ReadFailure)
  | done

/-- The options that an operation puts in force. -/
def Operation.options? : Operation → Option ReaderOptions
  | setOptions options => some options
  | read _ | readHeader _ | records => none

/-- The options in force after some operations: those that were put in force last. -/
def optionsAfter (options : ReaderOptions) (ops : List Operation) : ReaderOptions :=
  (ops.filterMap Operation.options?).getLast?.getD options

theorem optionsAfter_cons (options : ReaderOptions) (op : Operation) (ops : List Operation) :
    optionsAfter options (op :: ops) = optionsAfter (op.options?.getD options) ops := by
  cases h : op.options? with
  | none => simp [optionsAfter, h]
  | some o => simp [optionsAfter, h, List.getLast?_cons]

variable [Codecs]

/-- Does one operation. -/
def perform (r : Reader) : Operation → Answer × Reader
  | .read index => (.record (r.read index).1, (r.read index).2)
  | .readHeader index => (.header (r.readHeader index), r)
  | .records => (.records r.records.1.1 r.records.1.2, r.records.2)
  | .setOptions options => (.done, r.setOptions options)

/-- Does operations one after the other. -/
def performAll (r : Reader) : List Operation → List Answer × Reader
  | [] => ([], r)
  | op :: ops => ((r.perform op).1 :: ((r.perform op).2.performAll ops).1, ((r.perform op).2.performAll ops).2)

/-! ## One operation -/

theorem read_snd_options (r : Reader) (index : Int) : (r.read index).2.options = r.options := by
  unfold read
  split <;> rfl

/-- An operation keeps the data, and puts in force the options that it names. -/
theorem perform_snd (r : Reader) (op : Operation) :
    (r.perform op).2.data = r.data ∧ (r.perform op).2.options = op.options?.getD r.options := by
  cases op with
  | read index => exact ⟨r.read_snd_data index, r.read_snd_options index⟩
  | readHeader index => exact ⟨rfl, rfl⟩
  | records => exact ⟨rfl, rfl⟩
  | setOptions options => exact ⟨rfl, rfl⟩

theorem perform_snd_sound {r : Reader} (h : r.schemas.Sound) (op : Operation) :
    (r.perform op).2.schemas.Sound := by
  cases op with
  | read index => exact read_snd_sound h index
  | readHeader index => exact h
  | records => exact records_snd_sound h
  | setOptions options => exact h

theorem records_fst (r : Reader) :
    r.records.1 = (r.options.recordsFrom r.visible (r.visible.length + 1) r.schemas [] 0).1 := rfl

/-- Readers of the same data with the same options answer alike, whatever schemas they hold. -/
theorem perform_fst (r r' : Reader) (hd : r.data = r'.data) (ho : r.options = r'.options) (hs : r.schemas.Sound)
    (hs' : r'.schemas.Sound) (op : Operation) : (r.perform op).1 = (r'.perform op).1 := by
  obtain ⟨data, options, schemas⟩ := r
  obtain ⟨data', options', schemas'⟩ := r'
  obtain rfl : data = data' := hd
  obtain rfl : options = options' := ho
  cases op with
  | read index =>
    refine congrArg Answer.record ?_
    unfold read
    dsimp only [visible]
    cases options.offsetOf (options.visible data) index with
    | error e => rfl
    | ok offset => exact (ReaderOptions.recordAt_fst hs offset).trans (ReaderOptions.recordAt_fst hs' offset).symm
  | readHeader index => rfl
  | records =>
    have hsame : (records ⟨data, options, schemas⟩).1 = (records ⟨data, options, schemas'⟩).1 := by
      rw [records_fst, records_fst]
      exact ReaderOptions.recordsFrom_fst hs hs'
    exact congrArg (fun found : List Record × Option ReadFailure => Answer.records found.1 found.2) hsame
  | setOptions options => rfl

/-! ## A run of operations -/

/-- After some operations a reader has its data still, the options that were put in force last, and nothing
but compiled schemas. -/
theorem performAll_snd {r : Reader} (h : r.schemas.Sound) (ops : List Operation) :
    (r.performAll ops).2.data = r.data ∧ (r.performAll ops).2.options = optionsAfter r.options ops ∧
      (r.performAll ops).2.schemas.Sound := by
  induction ops generalizing r with
  | nil => exact ⟨rfl, rfl, h⟩
  | cons op ops ih =>
    obtain ⟨hd, ho⟩ := r.perform_snd op
    obtain ⟨hd', ho', hs'⟩ := ih (perform_snd_sound h op)
    rw [optionsAfter_cons, ← ho]
    exact ⟨hd'.trans hd, ho', hs'⟩

/-- The answer after some operations is that of the reader that they lead to. -/
theorem performAll_answer (r : Reader) (before : List Operation) (op : Operation) (after : List Operation) :
    (r.performAll (before ++ op :: after)).1[before.length]? = some ((r.performAll before).2.perform op).1 := by
  induction before generalizing r with
  | nil => rfl
  | cons first before ih =>
    rw [List.cons_append, performAll, List.length_cons, List.getElem?_cons_succ, ih]
    rfl

/-- Every operation of a run answers what it answers on a new reader with the options in force. -/
theorem performAll_forgets (data : Bytes) (options : ReaderOptions) (before : List Operation) (op : Operation)
    (after : List Operation) :
    (performAll { data, options } (before ++ op :: after)).1[before.length]? =
      some (perform { data, options := optionsAfter options before } op).1 := by
  let start : Reader := { data, options }
  let fresh : Reader := { data, options := optionsAfter options before }
  have hstart : start.schemas.Sound := SchemaCache.sound_nil
  have hfresh : fresh.schemas.Sound := SchemaCache.sound_nil
  obtain ⟨hd, ho, hs⟩ := performAll_snd hstart before
  rw [performAll_answer]
  exact congrArg some (perform_fst _ fresh hd ho hs hfresh op)

end Reader

end BinRecord
