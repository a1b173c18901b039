import LatticeSurgery.Grid.Box
import Mathlib.Data.List.FinRange

/-!
# The numbers of the cells of a box

Three things know how a box numbers its cells: the list of the cells, which counts nothing, the number of a
cell, and the cell of a number. All of them agree that the cell with number `k` stands `k / width` rows below
the first cell and `k % width` columns to its right (`Box.place`).

Every number of a cell fits 64 bits, but not every size does. The box of all cells has 2⁶⁴ of them, and its
area, a 64-bit count, is one less. So the last cell of that box has a number that is not below the area, and
it is the only cell of any box that is not found again from its number.
-/

namespace LatticeSurgery

namespace Coord

variable {lo hi : Coord}

theorem eq_of_rangeSize_ge (h : 4294967296 ≤ rangeSize lo hi) :
    lo = clamp (-2147483648) ∧ hi = clamp 2147483647 := by
  have := lo.le_val
  have := hi.val_le
  unfold rangeSize at h
  rw [Coord.ext_iff, Coord.ext_iff, val_clamp, val_clamp]
  omega

theorem rangeSize_le (lo hi : Coord) : rangeSize lo hi ≤ 4294967296 := by
  have := lo.le_val
  have := hi.val_le
  unfold rangeSize
  omega

theorem val_clamp_add {i : Nat} (h : i < rangeSize lo hi) : (clamp (lo.val + i)).val = lo.val + i := by
  have := lo.le_val
  have := hi.val_le
  unfold rangeSize at h
  rw [val_clamp, if_neg (by omega), if_neg (by omega)]

theorem mem_clamp_add {i : Nat} (h : i < rangeSize lo hi) :
    lo ≤ clamp (lo.val + i) ∧ clamp (lo.val + i) ≤ hi := by
  rw [le_iff, le_iff, val_clamp_add h]
  unfold rangeSize at h
  omega

theorem range_eq_ofFn (lo hi : Coord) :
    range lo hi = List.ofFn fun i : Fin (rangeSize lo hi) => clamp (lo.val + (i : Nat)) := by
  unfold range
  refine congrArg List.ofFn (funext fun i => Coord.ext ?_)
  rw [val_clamp_add i.isLt]

end Coord

theorem Cell.compare_eq_lt_iff {c d : Cell} :
    compare c d = .lt ↔ c.row.val < d.row.val ∨ c.row.val = d.row.val ∧ c.col.val < d.col.val := by
  show (compare c.row.val d.row.val).then (compare c.col.val d.col.val) = .lt ↔ _
  rw [Ordering.then_eq_lt, Int.compare_eq_lt, Int.compare_eq_lt, Int.compare_eq_eq]

instance : Std.Irrefl fun a b : Cell => compare a b = .lt where
  irrefl a h := by
    rw [Std.ReflOrd.compare_self] at h
    cases h

instance : Std.Antisymm fun a b : Cell => compare a b = .lt where
  antisymm a b hab hba := by
    rw [Std.OrientedOrd.eq_swap, hba] at hab
    cases hab

namespace Box

variable {b : Box} {c : Cell} {k : Nat}

/-- The cell that stands `k` places after the first one. -/
def place (b : Box) (k : Nat) : Cell :=
  ⟨.clamp (b.min.row.val + ↑(k / b.width)), .clamp (b.min.col.val + ↑(k % b.width))⟩

/-- How many places after the first cell a cell stands. -/
def placesBefore (b : Box) (c : Cell) : Nat :=
  (c.row.val - b.min.row.val).toNat * b.width + (c.col.val - b.min.col.val).toNat

/-! ### Places of a box -/

theorem place_mul_add {i j : Nat} (hj : j < b.width) :
    b.place (i * b.width + j) = ⟨.clamp (b.min.row.val + i), .clamp (b.min.col.val + j)⟩ := by
  have hdiv : (i * b.width + j) / b.width = i := by
    rw [Nat.mul_comm, Nat.mul_add_div (Nat.zero_lt_of_lt hj), Nat.div_eq_of_lt hj, Nat.add_zero]
  have hmod : (i * b.width + j) % b.width = j := by
    rw [Nat.mul_comm, Nat.mul_add_mod, Nat.mod_eq_of_lt hj]
  unfold place
  rw [hdiv, hmod]

theorem div_width_lt (h : k < b.size) : k / b.width < b.height :=
  Nat.div_lt_of_lt_mul (by rwa [Nat.mul_comm])

theorem mod_width_lt (h : k < b.size) : k % b.width < b.width := by
  apply Nat.mod_lt
  apply Nat.pos_of_ne_zero
  intro hzero
  rw [size, hzero, Nat.mul_zero] at h
  exact Nat.not_lt_zero k h

theorem row_place (h : k < b.size) : (b.place k).row.val = b.min.row.val + ↑(k / b.width) :=
  Coord.val_clamp_add (div_width_lt h)

theorem col_place (h : k < b.size) : (b.place k).col.val = b.min.col.val + ↑(k % b.width) :=
  Coord.val_clamp_add (mod_width_lt h)

theorem place_mem (h : k < b.size) : b.place k ∈ b :=
  ⟨Coord.mem_clamp_add (div_width_lt h), Coord.mem_clamp_add (mod_width_lt h)⟩

theorem placesBefore_place (h : k < b.size) : b.placesBefore (b.place k) = k := by
  have hrow : (b.place k).row.val - b.min.row.val = ↑(k / b.width) := by rw [row_place h]; omega
  have hcol : (b.place k).col.val - b.min.col.val = ↑(k % b.width) := by rw [col_place h]; omega
  unfold placesBefore
  rw [hrow, hcol, Int.toNat_natCast, Int.toNat_natCast, Nat.mul_comm]
  exact Nat.div_add_mod k b.width

theorem rowsAbove_lt (h : c ∈ b) : (c.row.val - b.min.row.val).toNat < b.height := by
  obtain ⟨⟨hmin, hmax⟩, -⟩ := mem_iff.1 h
  unfold height Coord.rangeSize
  omega

theorem colsLeft_lt (h : c ∈ b) : (c.col.val - b.min.col.val).toNat < b.width := by
  obtain ⟨-, hmin, hmax⟩ := mem_iff.1 h
  unfold width Coord.rangeSize
  omega

theorem placesBefore_lt (h : c ∈ b) : b.placesBefore c < b.size :=
  calc (c.row.val - b.min.row.val).toNat * b.width + (c.col.val - b.min.col.val).toNat
      < (c.row.val - b.min.row.val).toNat * b.width + b.width := Nat.add_lt_add_left (colsLeft_lt h) _
    _ = ((c.row.val - b.min.row.val).toNat + 1) * b.width := (Nat.succ_mul _ _).symm
    _ ≤ b.height * b.width := Nat.mul_le_mul_right _ (rowsAbove_lt h)

theorem place_placesBefore (h : c ∈ b) : b.place (b.placesBefore c) = c := by
  obtain ⟨⟨hrow, -⟩, hcol, -⟩ := mem_iff.1 h
  unfold placesBefore
  rw [place_mul_add (colsLeft_lt h)]
  refine Cell.ext (Coord.clamp_eq_of_val_eq ?_) (Coord.clamp_eq_of_val_eq ?_)
  · omega
  · omega

theorem cells_eq_map_place (b : Box) : b.cells = (List.range b.size).map b.place := by
  have hplaces : (List.range b.size).map b.place = List.ofFn fun k : Fin b.size => b.place k := by
    rw [List.ofFn_eq_pmap, List.pmap_eq_map]
  rw [hplaces]
  unfold size
  rw [List.ofFn_mul]
  unfold cells
  rw [Coord.range_eq_ofFn, Coord.range_eq_ofFn, List.flatMap_def, List.map_ofFn]
  refine congrArg List.flatten (congrArg List.ofFn (funext fun i => ?_))
  show List.map _ _ = _
  rw [List.map_ofFn]
  refine congrArg List.ofFn (funext fun j => ?_)
  exact (place_mul_add j.isLt).symm

theorem getElem?_cells_eq_some_iff : b.cells[k]? = some c ↔ k < b.size ∧ b.place k = c := by
  rw [cells_eq_map_place, List.getElem?_map]
  by_cases h : k < b.size
  · rw [List.getElem?_range h]
    simp [h]
  · rw [List.getElem?_eq_none (by rw [List.length_range]; omega)]
    simp [h]

theorem compare_place_lt {i j : Nat} (hij : i < j) (hj : j < b.size) :
    compare (b.place i) (b.place j) = .lt := by
  have hi := Nat.lt_trans hij hj
  rw [Cell.compare_eq_lt_iff, row_place hi, row_place hj, col_place hi, col_place hj]
  have hdiv : i / b.width ≤ j / b.width := Nat.div_le_div_right (Nat.le_of_lt hij)
  rcases Nat.lt_or_eq_of_le hdiv with hlt | heq
  · exact .inl (Int.add_lt_add_left (Int.ofNat_lt.2 hlt) _)
  · have hi' := Nat.div_add_mod i b.width
    have hj' := Nat.div_add_mod j b.width
    rw [heq] at hi'
    refine .inr ⟨by rw [heq], Int.add_lt_add_left (Int.ofNat_lt.2 ?_) _⟩
    omega

theorem pairwise_cells (b : Box) : b.cells.Pairwise (compare · · = .lt) := by
  rw [cells_eq_map_place, List.pairwise_map]
  refine List.pairwise_lt_range.imp_of_mem fun _ hj hij => ?_
  exact compare_place_lt hij (List.mem_range.1 hj)

theorem nodup_cells (b : Box) : b.cells.Nodup := by
  refine (pairwise_cells b).imp fun hlt heq => ?_
  rw [heq, Std.ReflOrd.compare_self] at hlt
  cases hlt

/-! ### Numbers of 64 bits -/

theorem size_le (b : Box) : b.size ≤ maxArea + 1 :=
  Nat.mul_le_mul (Coord.rangeSize_le _ _) (Coord.rangeSize_le _ _)

theorem count?_of_le {n : Nat} (h : n ≤ maxArea) : count? n = some n := if_pos h

theorem numberOf?_of_mem (h : c ∈ b) : b.numberOf? c = some (b.placesBefore c) := by
  have hfits : b.placesBefore c ≤ maxArea :=
    Nat.le_of_lt_succ (Nat.lt_of_lt_of_le (placesBefore_lt h) b.size_le)
  unfold numberOf?
  rw [if_pos h, count?_of_le (Nat.le_trans (Nat.le_add_right _ _) hfits)]
  exact count?_of_le hfits

theorem numberOf?_eq_some_iff : b.numberOf? c = some k ↔ k < b.size ∧ b.place k = c := by
  by_cases h : c ∈ b
  · rw [numberOf?_of_mem h, Option.some_inj]
    constructor
    · intro hk
      subst hk
      exact ⟨placesBefore_lt h, place_placesBefore h⟩
    · intro hk
      obtain ⟨hk, rfl⟩ := hk
      exact placesBefore_place hk
  · unfold numberOf?
    rw [if_neg h]
    refine iff_of_false (Option.some_ne_none k).symm fun hk => ?_
    exact h (hk.2 ▸ place_mem hk.1)

theorem isSome_numberOf?_iff : (b.numberOf? c).isSome ↔ c ∈ b := by
  rw [Option.isSome_iff_exists]
  constructor
  · intro hsome
    obtain ⟨k, hk⟩ := hsome
    obtain ⟨hlt, rfl⟩ := numberOf?_eq_some_iff.1 hk
    exact place_mem hlt
  · intro h
    exact ⟨b.placesBefore c, numberOf?_of_mem h⟩

theorem nth?_of_lt (h : k < b.size) : b.nth? k = some (b.place k) := by
  unfold nth?
  rw [if_pos h, ← row_place h, ← col_place h, Coord.ofInt?_val, Coord.ofInt?_val]
  rfl

theorem firstCells_eq_take (b : Box) (n : Nat) : b.firstCells n = b.cells.take n := by
  rw [cells_eq_map_place, ← List.map_take, List.take_range, ← List.filterMap_eq_map]
  refine List.filterMap_congr fun k hk => nth?_of_lt ?_
  exact Nat.lt_of_lt_of_le (List.mem_range.1 hk) (Nat.min_le_right n b.size)

theorem cellNumbered?_of_lt (h : k < b.area) : b.cellNumbered? k = some (b.place k) := by
  unfold cellNumbered?
  rw [if_pos h, nth?_of_lt (Nat.lt_of_lt_of_le h area_le_size)]

theorem cellNumbered?_of_ge (h : b.area ≤ k) : b.cellNumbered? k = none :=
  if_neg (Nat.not_lt.2 h)

/-- **The numberings of a box agree.** The list of the cells has every cell of the box once, row by row, and
its first cells can be read off without the others. The cell at place `k` of the list is the one with number
`k`, so exactly the cells of the box have a number: none is too large for 64 bits. The area is the length of
the list, as far as a 64-bit count goes. Below the area every number is answered by the cell at that place,
and from there on by none. -/
theorem numberings_agree (b : Box) :
    ((∀ c, c ∈ b.cells ↔ c ∈ b) ∧ b.cells.Nodup ∧ b.cells.Pairwise (compare · · = .lt) ∧
      ∀ n, b.firstCells n = b.cells.take n) ∧
    (∀ (k : Nat) c, b.cells[k]? = some c ↔ b.numberOf? c = some k) ∧
    (∀ c, (b.numberOf? c).isSome ↔ c ∈ b) ∧
    b.area = Nat.min b.cells.length 18446744073709551615 ∧
    (∀ k < b.area, ∃ c, b.cells[k]? = some c ∧ b.cellNumbered? k = some c) ∧
    ∀ k, b.area ≤ k → b.cellNumbered? k = none := by
  refine ⟨⟨fun c => mem_cells, nodup_cells b, pairwise_cells b, firstCells_eq_take b⟩, fun k c => ?_,
    fun c => isSome_numberOf?_iff, ?_, fun k hk => ⟨b.place k, ?_, cellNumbered?_of_lt hk⟩,
    fun k hk => cellNumbered?_of_ge hk⟩
  · rw [getElem?_cells_eq_some_iff, numberOf?_eq_some_iff]
  · rw [length_cells]
    rfl
  · exact getElem?_cells_eq_some_iff.2 ⟨Nat.lt_of_lt_of_le hk area_le_size, rfl⟩

/-! ### Back from a number to its cell -/

/-- The box of all cells. -/
def everything : Box :=
  ⟨⟨.clamp (-2147483648), .clamp (-2147483648)⟩, ⟨.clamp 2147483647, .clamp 2147483647⟩⟩

theorem eq_everything_of_size (h : maxArea < b.size) : b = everything := by
  have hfull : ∀ m n : Nat, n ≤ 4294967296 → maxArea < m * n → 4294967296 ≤ m := by
    intro m n hn hlarge
    by_contra hlt
    have hle : m * n ≤ 4294967295 * 4294967296 := Nat.mul_le_mul (by omega) hn
    unfold maxArea at hlarge
    omega
  have hheight : 4294967296 ≤ b.height := hfull b.height b.width (Coord.rangeSize_le _ _) h
  have hwidth : 4294967296 ≤ b.width := by
    apply hfull b.width b.height (Coord.rangeSize_le _ _)
    rwa [Nat.mul_comm]
  obtain ⟨hminRow, hmaxRow⟩ := Coord.eq_of_rangeSize_ge hheight
  obtain ⟨hminCol, hmaxCol⟩ := Coord.eq_of_rangeSize_ge hwidth
  exact Box.ext (Cell.ext hminRow hminCol) (Cell.ext hmaxRow hmaxCol)

theorem area_everything : everything.area = maxArea := by decide +kernel

theorem place_everything : everything.place maxArea = everything.max := by decide +kernel

theorem placesBefore_everything : everything.placesBefore everything.max = maxArea := by decide +kernel

theorem placesBefore_lt_area_iff (h : c ∈ b) :
    b.placesBefore c < b.area ↔ ¬ (b = everything ∧ c = everything.max) := by
  constructor
  · intro hlt hlast
    obtain ⟨rfl, rfl⟩ := hlast
    rw [placesBefore_everything, area_everything] at hlt
    exact Nat.lt_irrefl _ hlt
  · intro hlast
    by_contra hge
    have hlt := placesBefore_lt h
    -- the area falls short of the size, so the box has all cells and only the last number is left
    have hsize : maxArea < b.size := by
      unfold area at hge
      split at hge
      · exact absurd hlt hge
      · next hlarge => exact Nat.not_le.1 hlarge
    obtain rfl := eq_everything_of_size hsize
    have hle := size_le everything
    rw [area_everything] at hge
    have hnumber : everything.placesBefore c = maxArea := by omega
    apply hlast
    exact ⟨rfl, by rw [← place_placesBefore h, hnumber, place_everything]⟩

/-- **From a cell to its number and back.** A cell of a box has a number, which is below the area of the box
and leads back to the cell. The one exception is the last cell of the box of all cells: its number is the
area, and leads nowhere. -/
theorem cellNumbered?_numberOf? (h : c ∈ b) :
    ∃ i, b.numberOf? c = some i ∧
      if b = everything ∧ c = everything.max then i = b.area ∧ b.cellNumbered? i = none
      else i < b.area ∧ b.cellNumbered? i = some c := by
  refine ⟨b.placesBefore c, numberOf?_of_mem h, ?_⟩
  split
  · next hlast =>
    obtain ⟨rfl, rfl⟩ := hlast
    rw [placesBefore_everything, area_everything]
    exact ⟨rfl, cellNumbered?_of_ge (Nat.le_of_eq area_everything)⟩
  · next hlast =>
    have hlt := (placesBefore_lt_area_iff h).2 hlast
    exact ⟨hlt, by rw [cellNumbered?_of_lt hlt, place_placesBefore h]⟩

/-- Two rows over the whole range of the columns. -/
def twoRows : Box := ⟨⟨.clamp 0, .clamp (-2147483648)⟩, ⟨.clamp 1, .clamp 2147483647⟩⟩

theorem cellNumbered?_twoRows :
    twoRows.max ∈ twoRows ∧ ∃ i, twoRows.numberOf? twoRows.max = some i ∧ i < twoRows.area ∧
      twoRows.cellNumbered? i = some twoRows.max := by
  have hmem : twoRows.max ∈ twoRows := by decide
  obtain ⟨i, hi, hback⟩ := cellNumbered?_numberOf? hmem
  rw [if_neg (by decide)] at hback
  exact ⟨hmem, i, hi, hback⟩

theorem cellNumbered?_everything :
    everything.max ∈ everything ∧ everything.numberOf? everything.max = some 18446744073709551615 ∧
    ¬ 18446744073709551615 < everything.area ∧
    everything.cellNumbered? 18446744073709551615 ≠ some everything.max := by
  decide +kernel

end Box

end LatticeSurgery
