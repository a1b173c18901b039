import LatticeSurgery.Patch.Basic

/-!
# Layouts

A layout is the part of a lattice that does not change in time: where the patches of a program
start, where magic states wait, and which cells are set aside for distillation. Cells of a
distillation region are never free.

A layout may provide far more patches than a program uses, and than can be listed at all. The
patches and the queue are therefore listed on demand, and what needs neither works on such a layout
too.
-/

namespace LatticeSurgery

/-- The fixed geometry of a lattice. -/
structure Layout where
  /-- The patches of the first slice. -/
  initial : Thunk (List Patch)
  /-- Where magic states queue up. -/
  queue : Thunk (List Cell) := .pure []
  /-- Where distilleries stand. -/
  distilleryCells : List Cell := []
  /-- The parts set aside for distillation. -/
  reserved : List Region := []
  /-- Where the distillation region with the given number puts its states. -/
  depositCells : Nat → List Cell := fun _ => []
  /-- The largest coordinates at which the layout places anything. -/
  extent : Cell

namespace Layout

/-- The patches of the first slice. -/
def initialPatches (l : Layout) : List Patch := l.initial.get

/-- Where magic states queue up. -/
def queueCells (l : Layout) : List Cell := l.queue.get

/-- Whether the cell is set aside for distillation. -/
def reserves (l : Layout) (c : Cell) : Bool := l.reserved.any (·.covers c)

theorem reserves_iff {l : Layout} {c : Cell} :
    l.reserves c ↔ ∃ r ∈ l.reserved, c ∈ r.cells := by
  simp [reserves, Region.covers_iff]

end Layout

end LatticeSurgery
