import LatticeSurgery.Grid.Box
import LatticeSurgery.Patch.Tile
import Mathlib.Data.List.Nodup

/-!
# Adjacent cells and the edges between them

That two cells are adjacent is said in several ways: by steps that stay in the range of the coordinates, by
the distance of the two cells, and by the edge of a tile that faces the other cell, whether it is read or
written. All of them come down to the exact offset between the cells being the step across a side
(`Cell.sideFacing?_eq_some_iff_steps`), also at the ends of the range, where a difference that wraps around
would take two far cells for neighbours. Seen from the other cell the offset is the step across the opposite
side. There is one cell across each side, so writing an edge is noticed from that cell alone
(`Tile.facing?_of_setFacing?`).
-/

namespace LatticeSurgery

namespace Side

theorem rowStep_opposite (s : Side) : s.opposite.rowStep = -s.rowStep := by cases s <;> rfl

theorem colStep_opposite (s : Side) : s.opposite.colStep = -s.colStep := by cases s <;> rfl

theorem nodup_all : all.Nodup := by decide

end Side

namespace Cell

variable {a b c : Cell} {s : Side}

theorem sideFacing?_eq_some_iff_steps :
    a.sideFacing? b = some s ↔
      b.row.val - a.row.val = s.rowStep ∧ b.col.val - a.col.val = s.colStep := by
  rw [sideFacing?_eq_some_iff, beyond?_eq_some_iff]
  omega

theorem sideFacing?_opposite_iff : a.sideFacing? b = some s ↔ b.sideFacing? a = some s.opposite := by
  rw [sideFacing?_eq_some_iff_steps, sideFacing?_eq_some_iff_steps, Side.rowStep_opposite,
    Side.colStep_opposite]
  omega

theorem eq_of_sideFacing? (hb : a.sideFacing? b = some s) (hc : a.sideFacing? c = some s) : b = c := by
  rw [sideFacing?_eq_some_iff_steps] at hb hc
  refine Cell.ext (Coord.ext ?_) (Coord.ext ?_)
  · omega
  · omega

theorem isSome_sideFacing?_iff : (a.sideFacing? b).isSome ↔ a.Adjacent b := by
  rw [Option.isSome_iff_exists, adjacent_iff_sideFacing?]

theorem nodup_neighbours (a : Cell) : a.neighbours.Nodup := by
  refine Side.nodup_all.filterMap fun s s' c hs hs' => ?_
  rw [Option.mem_def, ← sideFacing?_eq_some_iff] at hs hs'
  rw [hs] at hs'
  exact Option.some.inj hs'

end Cell

namespace Tile

variable {t u : Tile} {b c : Cell} {s : Side} {e : Edge}

theorem facing?_of_sideFacing? (h : t.cell.sideFacing? b = some s) : t.facing? b = some (t.edge s) := by
  unfold facing?
  rw [h, Option.map_some]

theorem isSome_facing?_iff : (t.facing? b).isSome ↔ t.cell.Adjacent b := by
  unfold facing?
  rw [Option.isSome_map, Cell.isSome_sideFacing?_iff]

theorem isSome_setFacing?_iff : (t.setFacing? b e).isSome ↔ t.cell.Adjacent b := by
  unfold setFacing?
  rw [Option.isSome_map, Cell.isSome_sideFacing?_iff]

theorem cell_of_setFacing? (h : t.setFacing? b e = some u) : u.cell = t.cell := by
  obtain ⟨s, -, rfl⟩ := Option.map_eq_some_iff.1 h
  exact cell_setEdge

theorem facing?_of_setFacing? (h : t.setFacing? b e = some u) (c : Cell) :
    u.facing? c = if c = b then some e else t.facing? c := by
  obtain ⟨s, hs, rfl⟩ := Option.map_eq_some_iff.1 h
  unfold facing?
  rw [cell_setEdge]
  split
  · next hcb => rw [hcb, hs, Option.map_some, edge_setEdge, if_pos rfl]
  · next hcb =>
    refine Option.map_congr fun s' hs' => ?_
    rw [edge_setEdge, if_neg]
    intro hsame
    rw [hsame] at hs'
    exact hcb (Cell.eq_of_sideFacing? hs' hs)

/-- **Ways to be adjacent.** For a tile and a cell it is the same whether the cell is a neighbour of the
tile's cell, is adjacent to it, has it as an adjacent cell, is faced by an edge that can be read, or by one
that can be written. No neighbour is listed twice. The side that faces the cell is the one whose step is the
exact offset to it, the edge that is read is the one on that side, and the opposite side of the cell faces
back. An edge that is written is what faces the cell from then on, and all other cells are faced as before.
The neighbours in a box are those neighbours that the box contains, in their order. -/
theorem adjacencies_agree (t : Tile) (b : Cell) :
    ((b ∈ t.cell.neighbours ↔ t.cell.Adjacent b) ∧ (t.cell.Adjacent b ↔ b.Adjacent t.cell) ∧
      (t.cell.Adjacent b ↔ (t.facing? b).isSome) ∧ ∀ e, t.cell.Adjacent b ↔ (t.setFacing? b e).isSome) ∧
    t.cell.neighbours.Nodup ∧
    (∀ s, (t.cell.sideFacing? b = some s ↔
        b.row.val - t.cell.row.val = s.rowStep ∧ b.col.val - t.cell.col.val = s.colStep) ∧
      (t.cell.sideFacing? b = some s ↔ b.sideFacing? t.cell = some s.opposite) ∧
      (t.cell.sideFacing? b = some s → t.facing? b = some (t.edge s))) ∧
    (∀ e u, t.setFacing? b e = some u → u.cell = t.cell ∧ u.facing? b = some e ∧
      ∀ c, c ≠ b → u.facing? c = t.facing? c) ∧
    ∀ box : Box, (box.neighbours t.cell).Sublist t.cell.neighbours ∧
      ∀ c, c ∈ box.neighbours t.cell ↔ t.cell.Adjacent c ∧ c ∈ box := by
  refine ⟨⟨Cell.mem_neighbours, Cell.adjacent_comm, isSome_facing?_iff.symm,
      fun e => isSome_setFacing?_iff.symm⟩, t.cell.nodup_neighbours,
    fun s => ⟨Cell.sideFacing?_eq_some_iff_steps, Cell.sideFacing?_opposite_iff, facing?_of_sideFacing?⟩,
    fun e u hu => ⟨cell_of_setFacing? hu, ?_, fun c hc => ?_⟩,
    fun box => ⟨List.filter_sublist, fun c => Box.mem_neighbours⟩⟩
  · rw [facing?_of_setFacing? hu, if_pos rfl]
  · rw [facing?_of_setFacing? hu, if_neg hc]

/-- A tile in the top right corner of all cells: a step up or to the right leaves the range. -/
def cornerTile : Tile := .ofKinds ⟨.clamp (-2147483648), .clamp 2147483647⟩ .rough .smooth

/-- The tile in the corner faces the cell below it, and not the cell at the other end of its column. -/
theorem adjacencies_cornerTile :
    cornerTile.cell.Adjacent ⟨.clamp (-2147483647), .clamp 2147483647⟩ ∧
    ¬ cornerTile.cell.Adjacent ⟨.clamp 2147483647, .clamp 2147483647⟩ ∧
    cornerTile.facing? ⟨.clamp (-2147483647), .clamp 2147483647⟩ = some cornerTile.bottom ∧
    cornerTile.facing? ⟨.clamp 2147483647, .clamp 2147483647⟩ = none ∧
    ∃ u, cornerTile.setFacing? ⟨.clamp (-2147483647), .clamp 2147483647⟩ .connected = some u ∧
      u.facing? ⟨.clamp (-2147483647), .clamp 2147483647⟩ = some .connected ∧
      u.facing? ⟨.clamp (-2147483648), .clamp 2147483646⟩ = some cornerTile.left := by
  obtain ⟨⟨-, -, -, hset⟩, -, hsides, hwrite, -⟩ :=
    adjacencies_agree cornerTile ⟨.clamp (-2147483647), .clamp 2147483647⟩
  obtain ⟨⟨-, -, hread, -⟩, -⟩ := adjacencies_agree cornerTile ⟨.clamp 2147483647, .clamp 2147483647⟩
  have hbelow : cornerTile.cell.Adjacent ⟨.clamp (-2147483647), .clamp 2147483647⟩ := by decide
  have hfar : ¬ cornerTile.cell.Adjacent ⟨.clamp 2147483647, .clamp 2147483647⟩ := by decide
  obtain ⟨u, hu⟩ := Option.isSome_iff_exists.1 ((hset .connected).1 hbelow)
  obtain ⟨-, hnew, hold⟩ := hwrite .connected u hu
  refine ⟨hbelow, hfar, (hsides .bottom).2.2 ((hsides .bottom).1.2 (by decide)), ?_, u, hu, hnew, ?_⟩
  · exact Option.not_isSome_iff_eq_none.1 fun hsome => hfar (hread.2 hsome)
  · rw [hold _ (by decide)]
    decide

end Tile

end LatticeSurgery
