import LatticeSurgery.Layout.Row
import LatticeSurgery.Proofs.Slice.Extent
import Mathlib.Data.List.Nodup

/-!
# The cells of a row

Patch `i` of a row stands in column `i` times the spacing, but both the number `i` and the product are moved
to the end of the range of coordinates when they lie beyond it. From the patch on where one of the two gets
there, or from the first one if the spacing is zero, the row stalls: every later patch is on the same cell
(`cellOf_succ_eq_iff`, `Stalls.mono`). Before that the columns move on with each patch, all to the same side.
So the last two patches tell whether any two share a cell (`nodup_cells_iff_stalls`), and no patch lies beyond
the last one and the origin, which is all that the extent of the layout looks at.
-/

namespace LatticeSurgery

/-- A number that moves away from zero is the same after clamping where it is at the end of the range. -/
theorem Coord.clamp_add_eq_iff {m n : Int} (h : 0 < n ∧ 0 ≤ m ∨ n < 0 ∧ m ≤ 0) :
    clamp (m + n) = clamp m ↔ m ≤ -2147483648 ∨ 2147483647 ≤ m := by
  rw [Coord.ext_iff, val_clamp, val_clamp]
  split <;> split <;> omega

namespace RowLayout

variable {l : RowLayout} {i j : Nat}

theorem flatMap_initialPatches_toLayout : l.toLayout.initialPatches.flatMap Patch.cells = l.cells := by
  rw [initialPatches_toLayout, List.flatMap_map]
  exact List.flatMap_singleton' l.cells

theorem patchCells_ofLayout_toLayout : (Slice.ofLayout l.toLayout).patchCells = l.cells := by
  unfold Slice.patchCells Slice.patches Slice.ofLayout
  rw [List.append_nil]
  exact flatMap_initialPatches_toLayout

/-! ### The direction of a row -/

theorem col_cellOf_le (hs : 0 ≤ l.spacing.val) (hij : i ≤ j) :
    (l.cellOf i).col ≤ (l.cellOf j).col := by
  apply Coord.clamp_le_clamp
  apply Int.mul_le_mul_of_nonneg_left _ hs
  apply Coord.clamp_le_clamp
  omega

theorem le_col_cellOf (hs : l.spacing.val ≤ 0) (hij : i ≤ j) :
    (l.cellOf j).col ≤ (l.cellOf i).col := by
  apply Coord.clamp_le_clamp
  apply Int.mul_le_mul_of_nonpos_left hs
  apply Coord.clamp_le_clamp
  omega

theorem col_cellOf_zero : (l.cellOf 0).col.val = 0 := by
  show (Coord.clamp (l.spacing.val * (Coord.clamp 0).val)).val = 0
  have hclamp : Coord.clamp 0 = 0 := Coord.clamp_eq_of_val_eq rfl
  rw [hclamp, Coord.val_zero, Int.mul_zero, hclamp, Coord.val_zero]

theorem col_cellOf_nonneg (hs : 0 ≤ l.spacing.val) : 0 ≤ (l.cellOf i).col.val := by
  rw [← col_cellOf_zero]
  exact col_cellOf_le hs (Nat.zero_le i)

theorem col_cellOf_nonpos (hs : l.spacing.val ≤ 0) : (l.cellOf i).col.val ≤ 0 := by
  rw [← col_cellOf_zero]
  exact le_col_cellOf hs (Nat.zero_le i)

/-! ### Where a row stalls -/

/-- From patch `i` on, the row does not move any more. -/
def Stalls (l : RowLayout) (i : Nat) : Prop :=
  l.spacing.val = 0 ∨ 2147483647 ≤ i ∨ l.spacing.val * i ≤ -2147483648 ∨
    2147483647 ≤ l.spacing.val * i

theorem col_cellOf (hi : i ≤ 2147483647) : (l.cellOf i).col = .clamp (l.spacing.val * i) := by
  have hclamp : (Coord.clamp i).val = i := by
    rw [Coord.val_clamp, if_neg (by omega), if_neg (by omega)]
  show Coord.clamp (l.spacing.val * (Coord.clamp i).val) = _
  rw [hclamp]

theorem cellOf_eq {col : Coord} (hi : i ≤ 2147483647) (hcol : col.val = l.spacing.val * i) :
    l.cellOf i = ⟨l.row, col⟩ := by
  refine Cell.ext rfl ?_
  rw [col_cellOf hi]
  exact Coord.clamp_eq_of_val_eq hcol

theorem cellOf_eq_of_ge (hi : 2147483647 ≤ i) (hij : i ≤ j) : l.cellOf j = l.cellOf i := by
  have hclamp : Coord.clamp j = Coord.clamp i := by
    apply Coord.ext
    rw [Coord.val_clamp, Coord.val_clamp]
    split <;> split <;> omega
  unfold cellOf
  rw [hclamp]

theorem cellOf_succ_eq_iff : l.cellOf (i + 1) = l.cellOf i ↔ l.Stalls i := by
  by_cases hi : 2147483647 ≤ i
  · exact iff_of_true (cellOf_eq_of_ge hi (Nat.le_succ i)) (.inr (.inl hi))
  by_cases hs : l.spacing.val = 0
  · refine iff_of_true ?_ (.inl hs)
    unfold cellOf
    rw [hs, Int.zero_mul, Int.zero_mul]
  -- neither number is cut off, and the product moves away from zero
  have hcells : l.cellOf (i + 1) = l.cellOf i ↔ (l.cellOf (i + 1)).col = (l.cellOf i).col :=
    ⟨congrArg Cell.col, fun h => Cell.ext rfl h⟩
  have hnext : l.spacing.val * ((i + 1 : Nat) : Int) = l.spacing.val * i + l.spacing.val := by
    rw [Int.natCast_add, Int.mul_add, Int.natCast_one, Int.mul_one]
  have hsigns : 0 < l.spacing.val ∧ 0 ≤ l.spacing.val * i ∨ l.spacing.val < 0 ∧ l.spacing.val * i ≤ 0 := by
    rcases Int.lt_or_gt_of_ne hs with hneg | hpos
    · exact .inr ⟨hneg, Int.mul_nonpos_of_nonpos_of_nonneg (Int.le_of_lt hneg) (Int.natCast_nonneg i)⟩
    · exact .inl ⟨hpos, Int.mul_nonneg (Int.le_of_lt hpos) (Int.natCast_nonneg i)⟩
  rw [hcells, col_cellOf (by omega), col_cellOf (by omega), hnext, Coord.clamp_add_eq_iff hsigns]
  unfold Stalls
  simp only [hs, hi, false_or]

theorem Stalls.mono (h : l.Stalls i) (hij : i ≤ j) : l.Stalls j := by
  have hcast : (i : Int) ≤ j := Int.ofNat_le.2 hij
  have hnat : (0 : Int) ≤ i := Int.natCast_nonneg i
  unfold Stalls at h ⊢
  rcases Int.le_total 0 l.spacing.val with hs | hs
  · have hle := Int.mul_le_mul_of_nonneg_left hcast hs
    have hnonneg := Int.mul_nonneg hs hnat
    omega
  · have hle := Int.mul_le_mul_of_nonpos_left hs hcast
    have hnonpos := Int.mul_nonpos_of_nonpos_of_nonneg hs hnat
    omega

theorem stalls_of_cellOf_eq (hij : i < j) (h : l.cellOf i = l.cellOf j) : l.Stalls i := by
  rw [← cellOf_succ_eq_iff]
  refine Cell.ext rfl (Coord.ext (Int.le_antisymm ?_ ?_))
  · rcases Int.le_total 0 l.spacing.val with hs | hs
    · rw [h]
      exact col_cellOf_le hs hij
    · exact le_col_cellOf hs (Nat.le_succ i)
  · rcases Int.le_total 0 l.spacing.val with hs | hs
    · exact col_cellOf_le hs (Nat.le_succ i)
    · rw [h]
      exact le_col_cellOf hs hij

/-- The last patch but one decides whether the cells of a row are different. -/
theorem nodup_cells_iff_stalls : l.cells.Nodup ↔ l.count ≤ 1 ∨ ¬ l.Stalls (l.count - 2) := by
  unfold cells
  rw [List.nodup_map_iff_inj_on List.nodup_range]
  simp only [List.mem_range]
  constructor
  · intro hinj
    by_contra hcon
    rw [not_or, not_not] at hcon
    obtain ⟨hcount, hstalls⟩ := hcon
    have hsame := hinj _ (by omega) _ (by omega) (cellOf_succ_eq_iff.2 hstalls)
    omega
  · intro h i hi j hj hij
    have hlt : ∀ {m n : Nat}, m < n → n < l.count → l.cellOf m ≠ l.cellOf n := by
      intro m n hmn hn heq
      have hstalls := (stalls_of_cellOf_eq hmn heq).mono (j := l.count - 2) (by omega)
      rcases h with h | h
      · omega
      · exact h hstalls
    by_contra hne
    rcases Nat.lt_or_gt_of_ne hne with hlt' | hlt'
    · exact hlt hlt' hj hij
    · exact hlt hlt' hi hij.symm

theorem nodup_cells_iff :
    l.cells.Nodup ↔ l.count ≤ 1 ∨ l.spacing.val ≠ 0 ∧ l.count - 1 ≤ 2147483647 ∧
      -2147483648 < l.spacing.val * ((l.count : Int) - 2) ∧
      l.spacing.val * ((l.count : Int) - 2) < 2147483647 := by
  rw [nodup_cells_iff_stalls]
  by_cases hone : l.count ≤ 1
  · exact iff_of_true (.inl hone) (.inl hone)
  · have hcast : ((l.count - 2 : Nat) : Int) = l.count - 2 := by omega
    unfold Stalls
    rw [hcast]
    omega

/-! ### The extent of a row -/

theorem mem_cells {c : Cell} : c ∈ l.cells ↔ ∃ i < l.count, l.cellOf i = c := by
  simp [cells]

theorem within_extent (hi : i < l.count) : (l.cellOf i).Within l.extent := by
  have hleft := Cell.within_sup_left (l.cellOf (l.count - 1)) .origin
  have hright := Cell.within_sup_right (l.cellOf (l.count - 1)) .origin
  refine ⟨hleft.1, ?_⟩
  rcases Int.le_total 0 l.spacing.val with hs | hs
  · exact Int.le_trans (col_cellOf_le hs (by omega)) hleft.2
  · exact Int.le_trans (col_cellOf_nonpos hs) hright.2

theorem extent_ofLayout_of_pos (h : 1 ≤ l.count) : (Slice.ofLayout l.toLayout).extent = l.extent := by
  have hcells : ∀ c, c ∈ (Slice.ofLayout l.toLayout).patchCells ↔ ∃ i < l.count, l.cellOf i = c := by
    intro c
    rw [patchCells_ofLayout_toLayout, mem_cells]
  refine Cell.Within.antisymm (Slice.extent_within ?_ fun c hc => ?_) (Cell.sup_within ?_ ?_)
  · exact Cell.within_sup_right _ _
  · rcases hc with hc | hc
    · obtain ⟨i, hi, rfl⟩ := (hcells c).1 hc
      exact within_extent hi
    · cases hc
  · exact Slice.within_extent (.inl ((hcells _).2 ⟨l.count - 1, by omega, rfl⟩))
  · exact Cell.within_foldl_sup _ _

theorem extent_ofLayout_of_zero (h : l.count = 0) : (Slice.ofLayout l.toLayout).extent = .origin := by
  unfold Slice.extent
  rw [patchCells_ofLayout_toLayout, cells, h]
  rfl

theorem extent_eq_origin_iff (h : l.count = 0) : l.extent = .origin ↔ l.row.val ≤ 0 := by
  have hcol : l.extent.col = 0 := by
    apply Coord.ext
    show (max (l.cellOf (l.count - 1)).col 0).val = 0
    rw [Coord.val_max, h, col_cellOf_zero, Coord.val_zero, if_pos (Int.le_refl 0)]
  have hrow : l.extent.row.val = if l.row.val ≤ 0 then 0 else l.row.val := Coord.val_max
  constructor
  · intro hextent
    rw [hextent] at hrow
    change (0 : Int) = _ at hrow
    split at hrow <;> omega
  · intro hle
    refine Cell.ext (Coord.ext ?_) hcol
    rw [hrow, if_pos hle]
    rfl

/-- **The extent of a row.** The layout reads its extent off the last patch alone. That is the extent of the
slice with all its patches on it exactly when there is a patch, or the row is not below the origin. -/
theorem extent_toLayout_iff (l : RowLayout) :
    l.toLayout.extent = (Slice.ofLayout l.toLayout).extent ↔ 1 ≤ l.count ∨ l.row.val ≤ 0 := by
  by_cases h : 1 ≤ l.count
  · rw [extent_ofLayout_of_pos h]
    exact iff_of_true rfl (.inl h)
  · rw [extent_ofLayout_of_zero (by omega), or_iff_right h]
    exact extent_eq_origin_iff (by omega)

end RowLayout

end LatticeSurgery
