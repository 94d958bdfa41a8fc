/-
Canonical codes: codes that are known by the lengths of their words alone. Words of one length are
consecutive numbers in the order of their symbols, and follow the words of smaller lengths.
-/
import BinRecord.Compression.Bits

namespace BinRecord

/-- A canonical code: how many words there are of one bit, of two bits and so on, and the symbols in
the order of their words. -/
structure CanonicalCode where
  counts : List Nat
  symbols : Array Nat
  deriving Repr

namespace CanonicalCode

/-- The code in which symbol `s` has a word of `lengths[s]` bits, and none if that is zero. Words
are looked for up to `longest` bits. -/
def ofLengths (longest : Nat) (lengths : List Nat) : CanonicalCode :=
  let sizes := List.range' 1 longest
  let symbolsOf (size : Nat) : List Nat :=
    lengths.zipIdx.filterMap fun (length, s) => if length = size then some s else none
  ⟨sizes.map (lengths.count ·), (sizes.flatMap symbolsOf).toArray⟩

/-- How many more words of the greatest length there is room for; none if there are too many words.
-/
def room (code : CanonicalCode) : Option Nat :=
  let step (left : Option Nat) (count : Nat) : Option Nat :=
    left.bind fun l => if count ≤ 2 * l then some (2 * l - count) else none
  code.counts.foldl step (some 1)

/-- Reads the rest of a word whose bits so far are `word`; `first` is the first word of that length
that could still follow, and `index` the number of shorter words. -/
def readFrom (symbols : Array Nat) (word first index : Nat) : List Nat → BitReader Nat
  | [] => throw .bad
  | count :: counts => do
    let b ← Bits.next
    let word := 2 * word + b.toNat
    if word < first + count then
      return (symbols[index + (word - first)]?).getD 0
    else readFrom symbols word (2 * (first + count)) (index + count) counts

/-- Reads a word and gives its symbol. -/
def read (code : CanonicalCode) : BitReader Nat := readFrom code.symbols 0 0 0 code.counts

end CanonicalCode

end BinRecord
