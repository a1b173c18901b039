import LatticeSurgery.Layout.Basic

/-!
# Patches in a row

The plainest layout: square patches side by side in one row, at equal distances, and no
distillery. A distance of two leaves one free column between neighbours, which is where their
smooth edges can be merged. Columns past the range of the coordinates are moved to its end, so a
row that is too long piles up there.
-/

namespace LatticeSurgery

/-- Square patches in one row. -/
structure RowLayout where
  /-- How many patches. -/
  count : Nat
  /-- The row that they stand in. -/
  row : Coord := 0
  /-- The distance from one patch to the next. -/
  spacing : Coord := { val := 2 }
deriving DecidableEq, Repr

namespace RowLayout

/-- The cell of patch `i`. -/
def cellOf (l : RowLayout) (i : Nat) : Cell :=
  ⟨l.row, Coord.clamp (l.spacing.val * (Coord.clamp i).val)⟩

/-- The cells of all patches. -/
def cells (l : RowLayout) : List Cell := (List.range l.count).map l.cellOf

/-- The cell of the last patch, or the origin where that lies beyond it. -/
def extent (l : RowLayout) : Cell := (l.cellOf (l.count - 1)).sup .origin

/-- The geometry of the row; magic states queue up on the patches themselves. -/
def toLayout (l : RowLayout) : Layout where
  initial := .mk fun _ => l.cells.map .square
  queue := .mk fun _ => l.cells
  extent := l.extent

variable {l : RowLayout} {i : Nat}

@[simp] theorem initialPatches_toLayout : l.toLayout.initialPatches = l.cells.map .square := rfl

@[simp] theorem queueCells_toLayout : l.toLayout.queueCells = l.cells := rfl

@[simp] theorem length_cells : l.cells.length = l.count := by
  simp [cells]

theorem cells_getElem? (h : i < l.count) : l.cells[i]? = some (l.cellOf i) := by
  simp [cells, h]

end RowLayout

end LatticeSurgery
