/-
The schemas that a reader keeps make no difference: they are those that compiling gives again
(`SchemaCache.Sound`), which no operation of a reader changes, so what is read with them is what is read
without.
-/
import BinRecord.Proofs.Traversal
import BinRecord.Record.Reader

namespace BinRecord

variable [Codecs]

/-! ## Schemas -/

namespace SchemaCache

/-- A cache holds nothing but what compiling gives. -/
def Sound (cache : SchemaCache) : Prop :=
  ∀ text root schema, cache.lookup (text, root) = some schema → Schema.compile text root = .ok schema

theorem sound_nil : Sound [] := by
  intro text root schema h
  cases h

variable {cache : SchemaCache}

theorem Sound.compile_fst (h : cache.Sound) (text : String) (root : Option String) :
    (cache.compile text root).1 = (compile [] text root).1 := by
  unfold compile
  rw [List.lookup_nil]
  cases hl : cache.lookup (text, root) with
  | some schema =>
    rw [h text root schema hl]
  | none =>
    cases Schema.compile text root <;> rfl

theorem Sound.compile_snd (h : cache.Sound) (text : String) (root : Option String) :
    (cache.compile text root).2.Sound := by
  unfold compile
  cases cache.lookup (text, root) with
  | some schema => exact h
  | none =>
    cases hc : Schema.compile text root with
    | error e => exact h
    | ok schema =>
      intro t r found hf
      change ((((text, root), schema) :: cache : SchemaCache).lookup (t, r)) = some found at hf
      rw [List.lookup_cons] at hf
      split at hf
      · rename_i he
        cases hf
        rw [beq_iff_eq] at he
        cases he
        exact hc
      · exact h t r found hf

end SchemaCache

/-! ## Records -/

namespace ReaderOptions

variable {o : ReaderOptions} {data : Bytes} {cache : SchemaCache}

/-- The record that starts at an offset, read without a cache. -/
def recordOn (o : ReaderOptions) (data : Bytes) (offset : Nat) : Except ReadFailure Record :=
  (o.recordAt [] data offset).1

/-- A cache changes no record. -/
theorem recordAt_fst (h : cache.Sound) (offset : Nat) :
    (o.recordAt cache data offset).1 = o.recordOn data offset := by
  unfold recordOn recordAt
  cases o.headerAt data offset with
  | error e => rfl
  | ok found =>
    obtain ⟨header, size⟩ := found
    dsimp only
    cases o.schemaTextOf header offset with
    | error e => rfl
    | ok text =>
      have hc := h.compile_fst text o.root
      dsimp only
      generalize cache.compile text o.root = found at hc ⊢
      generalize SchemaCache.compile [] text o.root = fresh at hc ⊢
      obtain ⟨result, kept⟩ := found
      obtain ⟨result', kept'⟩ := fresh
      change result = result' at hc
      subst hc
      cases result <;> rfl

theorem recordAt_snd (h : cache.Sound) (offset : Nat) : (o.recordAt cache data offset).2.Sound := by
  unfold recordAt
  cases o.headerAt data offset with
  | error e => exact h
  | ok found =>
    obtain ⟨header, size⟩ := found
    dsimp only
    cases o.schemaTextOf header offset with
    | error e => exact h
    | ok text =>
      have hc := h.compile_snd text o.root
      dsimp only
      generalize cache.compile text o.root = found at hc ⊢
      obtain ⟨result, kept⟩ := found
      cases result <;> exact hc

theorem recordsFrom_snd : ∀ {fuel : Nat} {cache : SchemaCache} {done : List Record} {offset : Nat},
    cache.Sound → (o.recordsFrom data fuel cache done offset).2.Sound
  | 0, _, _, _, h => h
  | fuel + 1, cache, done, offset, h => by
    have hs : (o.recordAt cache data offset).2.Sound := recordAt_snd h offset
    unfold recordsFrom
    split
    · exact h
    · generalize o.recordAt cache data offset = found at hs ⊢
      obtain ⟨result, kept⟩ := found
      cases result with
      | ok r => exact recordsFrom_snd hs
      | error e =>
        dsimp only
        split <;> exact hs

end ReaderOptions

/-! ## Readers -/

namespace Reader

/-- The readers that some operations lead to from a fresh reader of some data. -/
inductive Reachable (data : Bytes) : Reader → Prop
  | fresh (options : ReaderOptions) : Reachable data { data, options }
  | read {r : Reader} (index : Int) : Reachable data r → Reachable data (r.read index).2
  | records {r : Reader} : Reachable data r → Reachable data r.records.2
  | setOptions {r : Reader} (options : ReaderOptions) : Reachable data r → Reachable data (r.setOptions options)

theorem read_snd_data (r : Reader) (index : Int) : (r.read index).2.data = r.data := by
  unfold read
  split <;> rfl

theorem read_snd_sound {r : Reader} (h : r.schemas.Sound) (index : Int) : (r.read index).2.schemas.Sound := by
  unfold read
  split
  · exact h
  · exact ReaderOptions.recordAt_snd h _

theorem records_snd_sound {r : Reader} (h : r.schemas.Sound) : r.records.2.schemas.Sound := by
  show (r.options.recordsFrom r.visible (r.visible.length + 1) r.schemas [] 0).2.Sound
  exact ReaderOptions.recordsFrom_snd h

/-- A reader keeps its data, and holds nothing but compiled schemas. -/
theorem Reachable.sound {data : Bytes} {r : Reader} (h : Reachable data r) : r.data = data ∧ r.schemas.Sound := by
  induction h with
  | fresh => exact ⟨rfl, SchemaCache.sound_nil⟩
  | read index _ ih => exact ⟨(read_snd_data _ index).trans ih.1, read_snd_sound ih.2 index⟩
  | records _ ih => exact ⟨ih.1, records_snd_sound ih.2⟩
  | setOptions _ _ ih => exact ih

end Reader

end BinRecord
