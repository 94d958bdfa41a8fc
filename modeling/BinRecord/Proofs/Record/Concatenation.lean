/-
Data behind data. A record that is read from some data is read from all longer data that begins with it, and
behind a record that ends with the data come the records of what follows, as they are read from that alone
but so many bytes further on. For this records must end where their headers say, and a layout that looks for
its magic further on may only be the last one.
-/
import BinRecord.Proofs.Header.Extension
import BinRecord.Proofs.Header.Translation
import BinRecord.Proofs.Payload.Translation
import BinRecord.Proofs.Record.Iteration
import BinRecord.Proofs.Text.Integer

namespace BinRecord

/-! ## Outcomes -/

/-- Failures are of one sort if both are errors of the same kind, or the same escapes. -/
inductive ReadFailure.SameSort : ReadFailure → ReadFailure → Prop
  | error {e e' : RecordError} : e'.diagnostic.kind = e.diagnostic.kind → SameSort (.error e) (.error e')
  | escaped (x : Escape) : SameSort (.escaped x) (.escaped x)

theorem ReadFailure.SameSort.refl (f : ReadFailure) : SameSort f f := by
  cases f with
  | error e => exact .error rfl
  | escaped x => exact .escaped x

section

variable {α β : Type}

/-- Two outcomes agree if both are results, the second what `g` makes of the first, or both are failures of
one sort. -/
inductive Agree (g : α → α) : Except ReadFailure α → Except ReadFailure α → Prop
  | ok (a : α) : Agree g (.ok a) (.ok (g a))
  | error {f f' : ReadFailure} : ReadFailure.SameSort f f' → Agree g (.error f) (.error f')

theorem Agree.refl (x : Except ReadFailure α) : Agree id x x := by
  cases x with
  | ok a => exact .ok a
  | error f => exact .error (.refl f)

theorem Agree.bind {g : α → α} {g' : β → β} {x x' : Except ReadFailure α} {k k' : α → Except ReadFailure β}
    (hx : Agree g x x') (hk : ∀ a, x = .ok a → Agree g' (k a) (k' (g a))) : Agree g' (x >>= k) (x' >>= k') := by
  cases hx with
  | ok a => exact hk a rfl
  | error h => exact .error h

theorem Agree.map {x x' : Except ReadFailure α} (h : Agree id x x') (f : α → β) :
    Agree id (x.map f) (x'.map f) := by
  cases h with
  | ok a => exact .ok (f a)
  | error h => exact .error h

end

/-- The same record `d` bytes further on. -/
def Record.move (d : Nat) (r : Record) : Record :=
  { r with offset := r.offset + d, payloadOffset := r.payloadOffset + d }

/-! ## Bytes that are the same -/

namespace ReaderOptions

variable {o : ReaderOptions} {data data' : Bytes} {offset offset' : Nat} {header : Header}

/-! ## Headers -/

variable [Codecs]

theorem recordOn_eq (o : ReaderOptions) (data : Bytes) (offset : Nat) : o.recordOn data offset =
    (o.headerAt data offset >>= fun found => o.schemaTextOf found.1 offset >>= fun text =>
      ((SchemaCache.compile [] text o.root).1.mapError (Failure.map RecordError.schema)) >>= fun schema =>
        o.recordOf data found.1 schema text offset (offset + found.2)) := by
  unfold recordOn recordAt
  cases o.headerAt data offset with
  | error f => rfl
  | ok found =>
    dsimp only
    show _ = (o.schemaTextOf found.1 offset >>= _)
    cases o.schemaTextOf found.1 offset with
    | error f => rfl
    | ok text =>
      dsimp only
      show _ = ((SchemaCache.compile [] text o.root).1.mapError _ >>= _)
      generalize SchemaCache.compile [] text o.root = compiled
      obtain ⟨result, kept⟩ := compiled
      cases result <;> rfl

end ReaderOptions

/-! ## Readers -/

namespace Reader

section

variable [Codecs]

end

end Reader

end BinRecord
