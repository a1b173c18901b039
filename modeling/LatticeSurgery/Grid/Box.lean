import LatticeSurgery.Grid.Cell

/-!
# Boxes of cells

A box is the rectangle of cells between two corners, both included; it is empty when the corners
are the wrong way round. Its cells are numbered row by row from the top left one: `Box.cells`
lists them in that order, `Box.numberOf?` gives the number of a cell and `Box.nth?` the cell of a
number.

Sizes are exact, and a box over the whole range of the coordinates has 2⁶⁴ cells. `Box.area` is
the size as a 64-bit count, which stops one short of that, and `Box.cellNumbered?` answers the
numbers below it.
-/

namespace LatticeSurgery

/-- The rectangle of cells from a top left to a bottom right corner, both included. -/
@[ext] structure Box where
  min : Cell
  max : Cell
deriving DecidableEq, Repr

namespace Box

/-- The box from the origin to the given cell. -/
def upTo (extent : Cell) : Box := ⟨.origin, extent⟩

/-- The number of columns. -/
def width (b : Box) : Nat := Coord.rangeSize b.min.col b.max.col

/-- The number of rows. -/
def height (b : Box) : Nat := Coord.rangeSize b.min.row b.max.row

/-- The number of cells. -/
def size (b : Box) : Nat := b.height * b.width

/-- The largest 64-bit count. -/
def maxArea : Nat := 18446744073709551615

/-- The number of cells as a 64-bit count. -/
def area (b : Box) : Nat := if b.size ≤ maxArea then b.size else maxArea

/-- A cell is in the box when both coordinates are between those of the corners. -/
protected def Mem (b : Box) (c : Cell) : Prop :=
  (b.min.row ≤ c.row ∧ c.row ≤ b.max.row) ∧ (b.min.col ≤ c.col ∧ c.col ≤ b.max.col)

instance : Membership Cell Box := ⟨Box.Mem⟩

instance (b : Box) (c : Cell) : Decidable (c ∈ b) := inferInstanceAs (Decidable (_ ∧ _))

/-- The neighbours of a cell that are in the box. -/
def neighbours (b : Box) (c : Cell) : List Cell := c.neighbours.filter (· ∈ b)

/-- The cells, row by row. -/
def cells (b : Box) : List Cell :=
  (Coord.range b.min.row b.max.row).flatMap fun row =>
    (Coord.range b.min.col b.max.col).map fun col => ⟨row, col⟩

/-- The count `n`, if it fits 64 bits. -/
def count? (n : Nat) : Option Nat := if n ≤ maxArea then some n else none

/-- The number of a cell of the box: how many cells are in the rows above it, and then how many to its
left. Both have to fit 64 bits. -/
def numberOf? (b : Box) (c : Cell) : Option Nat :=
  if c ∈ b then do
    let above ← count? ((c.row.val - b.min.row.val).toNat * b.width)
    count? (above + (c.col.val - b.min.col.val).toNat)
  else none

/-- The cell with the given number. -/
def nth? (b : Box) (i : Nat) : Option Cell :=
  if i < b.size then do
    let row ← Coord.ofInt? (b.min.row.val + ↑(i / b.width))
    let col ← Coord.ofInt? (b.min.col.val + ↑(i % b.width))
    return ⟨row, col⟩
  else none

/-- The cell with the given number, for the numbers below the area. -/
def cellNumbered? (b : Box) (i : Nat) : Option Cell :=
  if i < b.area then b.nth? i else none

/-- The first `k` cells, found from their numbers: the box itself may be too large to list. -/
def firstCells (b : Box) (k : Nat) : List Cell :=
  (List.range (if k ≤ b.size then k else b.size)).filterMap b.nth?

/-! ### Membership and sizes -/

variable {b : Box} {c d : Cell}

theorem mem_iff :
    c ∈ b ↔ (b.min.row.val ≤ c.row.val ∧ c.row.val ≤ b.max.row.val) ∧
      (b.min.col.val ≤ c.col.val ∧ c.col.val ≤ b.max.col.val) :=
  Iff.rfl

theorem mem_upTo :
    c ∈ upTo d ↔
      (0 ≤ c.row.val ∧ c.row.val ≤ d.row.val) ∧ (0 ≤ c.col.val ∧ c.col.val ≤ d.col.val) :=
  Iff.rfl

theorem mem_neighbours : d ∈ b.neighbours c ↔ c.Adjacent d ∧ d ∈ b := by
  simp [neighbours, Cell.mem_neighbours]

theorem mem_cells : c ∈ b.cells ↔ c ∈ b := by
  simp only [cells, List.mem_flatMap, List.mem_map, Coord.mem_range]
  constructor
  · rintro ⟨row, hrow, col, hcol, rfl⟩
    exact ⟨hrow, hcol⟩
  · rintro ⟨hrow, hcol⟩
    exact ⟨c.row, hrow, c.col, hcol, rfl⟩

@[simp] theorem length_cells : b.cells.length = b.size := by
  simp only [cells, size, width, height, List.length_flatMap, List.length_map, Coord.length_range,
    List.map_const', List.sum_replicate_nat]

theorem area_le_size : b.area ≤ b.size := by
  simp only [area]; split <;> omega

end Box

end LatticeSurgery
