import LatticeSurgery.Grid.Cell
import Mathlib.Data.List.Chain

/-!
# Walks and distance

The distance of two cells is the number of rows and columns between them, so cells are adjacent when it
is one. A step to an adjacent cell changes the distance to every other cell by exactly one, up or down
(`distance_step`). A walk therefore takes at least as many steps as its ends are apart, and any steps
beyond that come in pairs (`distance_of_isChain`).
-/

namespace LatticeSurgery

namespace Cell

variable {a b c : Cell} {path : List Cell}

/-- How many rows and columns the cells are apart, taken together. -/
def distance (a b : Cell) : Nat :=
  (a.row.val - b.row.val).natAbs + (a.col.val - b.col.val).natAbs

theorem adjacent_iff_distance : a.Adjacent b ↔ a.distance b = 1 := Iff.rfl

@[simp] theorem distance_self (a : Cell) : a.distance a = 0 := by
  unfold distance
  omega

theorem natAbs_sub_step {x z : Int} (h : (x - z).natAbs = 1) (y : Int) :
    (x - y).natAbs = (z - y).natAbs + 1 ∨ (z - y).natAbs = (x - y).natAbs + 1 := by
  omega

theorem distance_step (h : a.Adjacent c) (b : Cell) :
    a.distance b = c.distance b + 1 ∨ c.distance b = a.distance b + 1 := by
  unfold distance
  rcases Nat.add_eq_one_iff.1 h with ⟨hrow, hcol⟩ | ⟨hrow, hcol⟩
  · have hsame : a.row.val = c.row.val := Int.sub_eq_zero.1 (Int.natAbs_eq_zero.1 hrow)
    rw [hsame]
    rcases natAbs_sub_step hcol b.col.val with hfar | hnear
    · exact .inl (by rw [hfar, Nat.add_assoc])
    · exact .inr (by rw [hnear, Nat.add_assoc])
  · have hsame : a.col.val = c.col.val := Int.sub_eq_zero.1 (Int.natAbs_eq_zero.1 hcol)
    rw [hsame]
    rcases natAbs_sub_step hrow b.row.val with hfar | hnear
    · exact .inl (by rw [hfar, Nat.add_right_comm])
    · exact .inr (by rw [hnear, Nat.add_right_comm])

theorem distance_of_isChain (h : (a :: path ++ [b]).IsChain Adjacent) :
    a.distance b ≤ path.length + 1 ∧ (path.length + 1) % 2 = a.distance b % 2 := by
  induction path generalizing a with
  | nil =>
    have hab : a.Adjacent b := by simpa using h
    rw [adjacent_iff_distance.1 hab]
    exact ⟨Nat.le_refl 1, rfl⟩
  | cons c path ih =>
    rw [List.cons_append, List.cons_append, List.isChain_cons_cons] at h
    obtain ⟨hle, hparity⟩ := ih h.2
    have hstep := distance_step h.1 b
    rw [List.length_cons]
    omega

end Cell

end LatticeSurgery
