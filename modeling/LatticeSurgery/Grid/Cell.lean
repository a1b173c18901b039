import LatticeSurgery.Grid.Coord

/-!
# Cells and their sides

The lattice is a grid of unit cells. Row 0 is the top row, rows grow downwards and columns grow to
the right. A cell has four sides, and across each of them lies a neighbour, unless the step leaves
the range of the coordinates. Two cells are adjacent when their coordinates differ by one in
total; `Cell.sideFacing?` says across which side the other one lies.
-/

namespace LatticeSurgery

/-- A side of a cell. -/
inductive Side where
  | top
  | bottom
  | left
  | right
deriving DecidableEq, Repr

namespace Side

/-- The four sides. -/
def all : List Side := [top, bottom, left, right]

/-- The change of row across the side. -/
def rowStep : Side → Int
  | top => -1
  | bottom => 1
  | left | right => 0

/-- The change of column across the side. -/
def colStep : Side → Int
  | left => -1
  | right => 1
  | top | bottom => 0

/-- The side that a neighbour across this one shows. -/
def opposite : Side → Side
  | top => bottom
  | bottom => top
  | left => right
  | right => left

theorem mem_all (s : Side) : s ∈ all := by cases s <;> simp [all]

theorem eq_of_steps {s t : Side} (hr : s.rowStep = t.rowStep) (hc : s.colStep = t.colStep) :
    s = t := by
  cases s <;> cases t <;> simp_all [rowStep, colStep]

end Side

/-- A unit cell of the lattice. -/
@[ext] structure Cell where
  row : Coord
  col : Coord
deriving DecidableEq, Repr

namespace Cell

/-- The top left cell of the lattice proper. -/
def origin : Cell := ⟨0, 0⟩

/-- The cell nearest to two numbers. -/
def clamp (row col : Int) : Cell := ⟨.clamp row, .clamp col⟩

/-- Row by row, and by column within a row. -/
instance : Ord Cell := ⟨compareLex (compareOn row) (compareOn col)⟩

instance : Std.TransOrd Cell :=
  inferInstanceAs (Std.TransCmp (compareLex (compareOn row) (compareOn col)))

instance : Std.LawfulEqOrd Cell where
  compare_self := Std.ReflOrd.compare_self (α := Cell)
  eq_of_compare h :=
    have h := Ordering.then_eq_eq.1 h
    Cell.ext (Std.LawfulEqOrd.eq_of_compare h.1) (Std.LawfulEqOrd.eq_of_compare h.2)

/-- The least cell that is at or beyond both cells in each coordinate. -/
def sup (a b : Cell) : Cell := ⟨max a.row b.row, max a.col b.col⟩

/-- The cell across the given side, if its coordinates are in range. -/
def beyond? (c : Cell) (s : Side) : Option Cell := do
  let row ← Coord.ofInt? (c.row.val + s.rowStep)
  let col ← Coord.ofInt? (c.col.val + s.colStep)
  return ⟨row, col⟩

/-- The cells across the four sides: above, below, left, right. -/
def neighbours (c : Cell) : List Cell := Side.all.filterMap c.beyond?

/-- Two cells are adjacent when they share a side. -/
def Adjacent (a b : Cell) : Prop :=
  (a.row.val - b.row.val).natAbs + (a.col.val - b.col.val).natAbs = 1

instance (a b : Cell) : Decidable (Adjacent a b) := inferInstanceAs (Decidable (_ = _))

/-- The side of `a` across which `b` lies. -/
def sideFacing? (a b : Cell) : Option Side := Side.all.find? (a.beyond? · = some b)

/-! ### Sides and neighbours -/

variable {a b c : Cell} {s : Side}

theorem beyond?_eq_some_iff :
    a.beyond? s = some b ↔
      b.row.val = a.row.val + s.rowStep ∧ b.col.val = a.col.val + s.colStep := by
  simp only [beyond?, Option.bind_eq_bind, Option.bind_eq_some_iff, Coord.ofInt?_eq_some_iff]
  constructor
  · rintro ⟨r, hr, c, hc, h⟩
    obtain rfl : (⟨r, c⟩ : Cell) = b := Option.some.inj h
    exact ⟨hr, hc⟩
  · rintro ⟨hr, hc⟩
    exact ⟨b.row, hr, b.col, hc, rfl⟩

theorem sideFacing?_eq_some_iff : a.sideFacing? b = some s ↔ a.beyond? s = some b := by
  constructor
  · intro h
    simpa using List.find?_some h
  · intro h
    cases hf : a.sideFacing? b with
    | none => simpa [h] using List.find?_eq_none.1 hf s s.mem_all
    | some t =>
      have ht : a.beyond? t = some b := by simpa using List.find?_some hf
      rw [beyond?_eq_some_iff] at h ht
      rw [Side.eq_of_steps (s := s) (t := t) (by omega) (by omega)]

theorem adjacent_iff_sideFacing? : a.Adjacent b ↔ ∃ s, a.sideFacing? b = some s := by
  simp only [sideFacing?_eq_some_iff, beyond?_eq_some_iff, Adjacent]
  constructor
  · intro h
    rcases (by omega : (b.row.val = a.row.val + -1 ∧ b.col.val = a.col.val + 0) ∨
        (b.row.val = a.row.val + 1 ∧ b.col.val = a.col.val + 0) ∨
        (b.row.val = a.row.val + 0 ∧ b.col.val = a.col.val + -1) ∨
        (b.row.val = a.row.val + 0 ∧ b.col.val = a.col.val + 1)) with h | h | h | h
    · exact ⟨.top, h⟩
    · exact ⟨.bottom, h⟩
    · exact ⟨.left, h⟩
    · exact ⟨.right, h⟩
  · rintro ⟨s, h₁, h₂⟩
    cases s <;> simp only [Side.rowStep, Side.colStep] at h₁ h₂ <;> omega

theorem adjacent_comm : a.Adjacent b ↔ b.Adjacent a := by
  simp only [Adjacent]; omega

theorem mem_neighbours : b ∈ a.neighbours ↔ a.Adjacent b := by
  rw [adjacent_iff_sideFacing?]
  simp only [sideFacing?_eq_some_iff, neighbours, List.mem_filterMap]
  constructor
  · rintro ⟨s, -, h⟩
    exact ⟨s, h⟩
  · rintro ⟨s, h⟩
    exact ⟨s, s.mem_all, h⟩

end Cell

end LatticeSurgery
