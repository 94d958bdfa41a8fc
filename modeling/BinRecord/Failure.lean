/-
How operations fail. Most failures are errors that the library reports, with a place and a message.
But something that it relies on can fail too: numbers with very many digits are neither read nor
written, codecs have errors of their own, and a caller can ask for what makes no sense. The library
lets such a failure pass as it is.
-/
namespace BinRecord

/-- The largest number of digits of a number that is read or written. -/
def digitLimit : Nat := 4300

/-- A failure that the library does not report as an error of its own. -/
inductive Escape where
  | unreadable (digits : Nat)
  | unwritable
  | badFormat
  | negativeIndex (index : Int)
  | codec (error message : String)
  | emptyValue (message : String)
  deriving DecidableEq, Repr

/-- What such a failure says. -/
def Escape.message : Escape → String
  | unreadable digits =>
    s!"Exceeds the limit ({digitLimit} digits) for integer string conversion: " ++
      s!"value has {digits} digits"
  | unwritable => s!"Exceeds the limit ({digitLimit} digits) for integer string conversion"
  | badFormat => "bad char in struct format"
  | negativeIndex index => s!"record index must be >= 0, got {index}"
  | codec _ message => message
  | emptyValue message => message

/-- Why an operation fails: with an error that it reports, or because something escapes. -/
inductive Failure (ε : Type) where
  | error (e : ε)
  | escaped (x : Escape)
  deriving DecidableEq, Repr

/-- The same failure with its error as another. -/
def Failure.map {ε ε' : Type} (f : ε → ε') : Failure ε → Failure ε'
  | error e => .error (f e)
  | escaped x => .escaped x

/-! ## Steps one after the other -/

theorem except_bind_eq_ok {ε α β : Type} {x : Except ε α} {f : α → Except ε β} {b : β} :
    (x >>= f) = .ok b ↔ ∃ a, x = .ok a ∧ f a = .ok b := by
  cases x with
  | error e =>
    constructor
    · intro h; cases h
    · rintro ⟨a, h, -⟩; cases h
  | ok a =>
    constructor
    · intro h; exact ⟨a, rfl, h⟩
    · rintro ⟨a', h, h'⟩; cases h; exact h'

end BinRecord
