/-
Orders of a finite graph in which every node comes after the nodes it refers to. A depth-first
search finds one, or a cycle: it follows references in their order, keeps the path to the node it
stands at, and stops at the first reference back into the path. Once an order is known, a table is
filled along it, each entry from the entries of the nodes it refers to.
-/
namespace BinRecord

/-- A reference from a node to another; `mark` tells it from others. -/
structure Reference (μ : Type) where
  target : Nat
  mark : μ
  deriving DecidableEq, Repr

/-- A cycle: its nodes in order, the first one again at the end, and the mark of the reference that
closes it. -/
structure Cycle (μ : Type) where
  nodes : List Nat
  mark : μ
  deriving DecidableEq, Repr

namespace References

variable {μ α : Type}

/-- Visits a node and all it refers to. `path` holds the nodes on the way to it and `done` the nodes
that are finished, the latest first in both. `fuel` bounds the length of the way. -/
def visit (refs : Nat → List (Reference μ)) :
    Nat → List Nat → List Nat → Nat → Except (Cycle μ) (List Nat)
  | 0, _, done, _ => .ok done
  | fuel + 1, path, done, i => do
    let path := i :: path
    let follow (done : List Nat) (r : Reference μ) : Except (Cycle μ) (List Nat) :=
      if path.contains r.target then
        .error ⟨r.target :: (path.takeWhile (· ≠ r.target)).reverse ++ [r.target], r.mark⟩
      else if done.contains r.target then .ok done
      else visit refs fuel path done r.target
    let done ← (refs i).foldlM follow done
    .ok (i :: done)

/-- The nodes below `n`, each after the nodes it refers to, or a cycle. -/
def order (n : Nat) (refs : Nat → List (Reference μ)) : Except (Cycle μ) (List Nat) := do
  let done ← (List.range n).foldlM
    (fun done i => if done.contains i then .ok done else visit refs n [] done i) []
  .ok done.reverse

/-- The entries of the nodes of an order; `step` finds the entry of a node from those before it. -/
def table (step : (Nat → Option α) → Nat → α) (order : List Nat) : List (Nat × α) :=
  order.foldl (fun entries i => (i, step (entries.lookup ·) i) :: entries) []

end References

end BinRecord
