/-!
# Binary heaps

A priority queue in an array: the children of position `i` are at `2 * i + 1` and `2 * i + 2`, and
no entry has a smaller rank than its parent. Entries of equal rank leave the heap in an order that
follows from the moves below, so the moves are part of what a heap does. Taking the top entry puts
the last entry in its place, lets it sink to the bottom along the children of smaller rank, the
right one when both are equal, and then lifts it to where it belongs.
-/

namespace LatticeSurgery

/-- An item and its rank; smaller ranks come first. -/
structure Ranked (α : Type) where
  rank : Nat
  item : α
deriving DecidableEq, Repr

/-- A priority queue. -/
structure Heap (α : Type) where
  entries : Array (Ranked α)
deriving DecidableEq, Repr

namespace Heap

variable {α : Type}

/-- Lifts the entry at a position above every ancestor of larger rank. -/
def lift (d : Array (Ranked α)) (pos : Nat) : Array (Ranked α) :=
  if h : 0 < pos ∧ pos < d.size then
    if d[pos].rank < d[(pos - 1) / 2].rank then
      lift (d.swap pos ((pos - 1) / 2)) ((pos - 1) / 2)
    else d
  else d
termination_by pos

/-- Lets the entry at a position sink to the bottom; also gives the position where it arrives. -/
def sink (d : Array (Ranked α)) (pos : Nat) : Array (Ranked α) × Nat :=
  if h : 2 * pos + 2 < d.size then
    if d[2 * pos + 2].rank ≤ d[2 * pos + 1].rank then
      sink (d.swap pos (2 * pos + 2)) (2 * pos + 2)
    else
      sink (d.swap pos (2 * pos + 1)) (2 * pos + 1)
  else if h : 2 * pos + 1 < d.size then
    (d.swap pos (2 * pos + 1), 2 * pos + 1)
  else (d, pos)
termination_by d.size - pos

/-- The heap with nothing in it. -/
def empty : Heap α := ⟨#[]⟩

/-- Adds an item. -/
def push (h : Heap α) (rank : Nat) (item : α) : Heap α :=
  ⟨lift (h.entries.push ⟨rank, item⟩) h.entries.size⟩

/-- Takes out the top entry. -/
def pop? (h : Heap α) : Option (Ranked α × Heap α) :=
  match h.entries.back? with
  | none => none
  | some last =>
    let rest := h.entries.pop
    if hr : 0 < rest.size then
      let (d, pos) := sink (rest.set 0 last) 0
      some (rest[0], ⟨lift d pos⟩)
    else some (last, ⟨rest⟩)

end Heap

end LatticeSurgery
