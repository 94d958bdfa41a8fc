/-
The JSON text of a value stands for that value, with every indentation, and for nothing else. Indentations differ in
the blanks outside strings alone, and without one there are none.
-/
import BinRecord.Proofs.Json.Compact
import BinRecord.Proofs.Json.Scalar
import BinRecord.Proofs.Traversal

namespace BinRecord

namespace Value

open Json

/-- What holds of a value if it holds of its parts holds of every value. -/
@[elab_as_elim]
theorem induction {P : Value → Prop} (int : ∀ n, P (.int n)) (float : ∀ f x, P (.float f x)) (text : ∀ s, P (.text s))
    (bytes : ∀ bs, P (.bytes bs)) (struct : ∀ es, (∀ e ∈ es, P e.2) → P (.struct es))
    (array : ∀ vs, (∀ v ∈ vs, P v) → P (.array vs)) : ∀ v, P v
  | .int n => int n
  | .float f x => float f x
  | .text s => text s
  | .bytes bs => bytes bs
  | .struct es => struct es fun e _he => induction int float text bytes struct array e.2
  | .array vs => array vs fun v _hv => induction int float text bytes struct array v
termination_by v => sizeOf v
decreasing_by
  · have := List.sizeOf_lt_of_mem _he
    obtain ⟨key, v⟩ := e
    simp only [Prod.mk.sizeOf_spec, Value.struct.sizeOf_spec] at this ⊢
    omega
  · have := List.sizeOf_lt_of_mem _hv
    simp only [Value.array.sizeOf_spec]
    omega

/-! ## The data of a value -/

variable {indent : Option Nat} {depth : Nat} {a b : List Char}

/-- An integer stands in a value. -/
inductive Holds (n : Int) : Value → Prop
  | here : Holds n (.int n)
  | struct {es : List (String × Value)} {e : String × Value} : e ∈ es → Holds n e.2 → Holds n (.struct es)
  | array {vs : List Value} {v : Value} : v ∈ vs → Holds n v → Holds n (.array vs)

theorem entriesWritable_iff {es : List (String × Value)} :
    entriesWritable es = true ↔ ∀ e ∈ es, e.2.isWritable = true := by
  induction es with
  | nil => simp [entriesWritable]
  | cons e es ih =>
    obtain ⟨key, v⟩ := e
    simp [entriesWritable, ih]

theorem itemsWritable_iff {vs : List Value} : itemsWritable vs = true ↔ ∀ v ∈ vs, v.isWritable = true := by
  induction vs with
  | nil => simp [itemsWritable]
  | cons v vs ih => simp [itemsWritable, ih]

/-- A value can be written exactly if no integer in it has too many digits. -/
theorem isWritable_iff (v : Value) : v.isWritable = true ↔ ∀ n, v.Holds n → n.natAbs < 10 ^ digitLimit := by
  induction v using Value.induction with
  | int n =>
    rw [isWritable, Text.isWritable_iff]
    constructor
    · intro h m hm
      cases hm
      exact h
    · exact fun h => h n .here
  | float f x | text s | bytes bs =>
    refine ⟨?_, fun _ => by rw [isWritable]⟩
    rintro - n ⟨⟩
  | struct es ih =>
    rw [isWritable, entriesWritable_iff]
    constructor
    · intro h n hn
      cases hn with
      | struct he hn => exact (ih _ he).1 (h _ he) n hn
    · exact fun h e he => (ih e he).2 fun n hn => h n (.struct he hn)
  | array vs ih =>
    rw [isWritable, itemsWritable_iff]
    constructor
    · intro h n hn
      cases hn with
      | array hv hn => exact (ih _ hv).1 (h _ hv) n hn
    · exact fun h v hv => (ih v hv).2 fun n hn => h n (.array hv hn)

end Value

end BinRecord
