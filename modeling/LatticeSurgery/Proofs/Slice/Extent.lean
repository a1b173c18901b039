import LatticeSurgery.Grid.Box
import LatticeSurgery.Slice.Basic

/-!
# The extent of a slice

The extent is the least cell that bounds the origin and every covered cell in both coordinates
(`within_extent`, `extent_within`). A covered cell is therefore in the box from the origin to the
extent exactly when neither of its coordinates is negative (`mem_upTo_extent_iff`).
-/

namespace LatticeSurgery

namespace Cell

/-- Both coordinates of `a` are at most those of `b`. -/
def Within (a b : Cell) : Prop := a.row.val ≤ b.row.val ∧ a.col.val ≤ b.col.val

instance (a b : Cell) : Decidable (a.Within b) := inferInstanceAs (Decidable (_ ∧ _))

/-- A coordinate of the cell is negative. -/
def OffGrid (c : Cell) : Prop := c.row.val < 0 ∨ c.col.val < 0

variable {a b c : Cell}

theorem within_refl (a : Cell) : a.Within a := ⟨Int.le_refl _, Int.le_refl _⟩

theorem Within.trans (hab : a.Within b) (hbc : b.Within c) : a.Within c :=
  ⟨Int.le_trans hab.1 hbc.1, Int.le_trans hab.2 hbc.2⟩

theorem Within.antisymm (hab : a.Within b) (hba : b.Within a) : a = b :=
  Cell.ext (Coord.ext (Int.le_antisymm hab.1 hba.1)) (Coord.ext (Int.le_antisymm hab.2 hba.2))

theorem within_sup_left (a b : Cell) : a.Within (a.sup b) := by
  unfold Within sup
  simp only [Coord.val_max]
  constructor <;> split <;> omega

theorem within_sup_right (a b : Cell) : b.Within (a.sup b) := by
  unfold Within sup
  simp only [Coord.val_max]
  constructor <;> split <;> omega

theorem within_foldl_sup (cells : List Cell) (a : Cell) : a.Within (cells.foldl sup a) := by
  induction cells generalizing a with
  | nil => exact within_refl a
  | cons b cells ih => exact (within_sup_left a b).trans (ih (a.sup b))

theorem within_foldl_sup_of_mem {cells : List Cell} (hc : c ∈ cells) (a : Cell) :
    c.Within (cells.foldl sup a) := by
  induction cells generalizing a with
  | nil => cases hc
  | cons b cells ih =>
    rw [List.foldl_cons]
    rcases List.mem_cons.1 hc with rfl | hc
    · exact (within_sup_right a c).trans (within_foldl_sup cells _)
    · exact ih hc _

theorem sup_within (ha : a.Within c) (hb : b.Within c) : (a.sup b).Within c := by
  unfold Within sup at *
  simp only [Coord.val_max]
  constructor <;> split <;> omega

theorem foldl_sup_within {cells : List Cell} (ha : a.Within b) (h : ∀ c ∈ cells, c.Within b) :
    (cells.foldl sup a).Within b := by
  induction cells generalizing a with
  | nil => exact ha
  | cons c cells ih =>
    rw [List.foldl_cons]
    exact ih (sup_within ha (h c (by simp))) fun d hd => h d (by simp [hd])

theorem mem_upTo_iff : c ∈ Box.upTo b ↔ ¬ c.OffGrid ∧ c.Within b := by
  rw [Box.mem_upTo]
  unfold OffGrid Within
  omega

end Cell

namespace Slice

variable {s : Slice} {c : Cell}

theorem within_extent (hc : c ∈ s.patchCells ∨ c ∈ s.channelCells) : c.Within s.extent := by
  apply Cell.within_foldl_sup_of_mem
  rwa [List.mem_append]

theorem extent_within {bound : Cell} (ho : Cell.origin.Within bound)
    (h : ∀ c, c ∈ s.patchCells ∨ c ∈ s.channelCells → c.Within bound) : s.extent.Within bound :=
  Cell.foldl_sup_within ho fun c hc => h c (List.mem_append.1 hc)

theorem mem_upTo_extent_iff (hc : c ∈ s.patchCells) : c ∈ Box.upTo s.extent ↔ ¬ c.OffGrid := by
  rw [Cell.mem_upTo_iff]
  exact and_iff_left (within_extent (.inl hc))

/-! ### An obstructed slice -/

/-- A slice with detours only: between the patches `0` and `1` stands an anonymous patch, below it
is a reserved cell, a magic state and an earlier channel take the lower corners, and the patch `2`
is off the grid. -/
def obstructed : Slice where
  layout :=
    { initial := .pure []
      reserved := [.ofCells [.clamp 1 2]]
      extent := .clamp 2 4 }
  qubits :=
    [{ Patch.square (.clamp 0 0) with id := some (.clamp 0) },
      Patch.square (.clamp 0 2),
      { Patch.square (.clamp 0 4) with id := some (.clamp 1) },
      { Patch.square (.clamp (-1) 0) with id := some (.clamp 2) }]
  magicStates := [Patch.square (.clamp 2 4)]
  channels := [.ofCells [.clamp 2 0]]

/-- The only way round the obstacles of `obstructed` between the smooth edges of `0` and `1`. -/
def detour : Region :=
  .ofPath (.clamp 0 0)
    [.clamp 0 1, .clamp 1 1, .clamp 2 1, .clamp 2 2, .clamp 2 3, .clamp 1 3, .clamp 0 3]
    (.clamp 0 4)

end Slice

end LatticeSurgery
