import LatticeSurgery.Grid.Box
import LatticeSurgery.Patch.Tile

/-!
# Requests for a channel

To measure two patches jointly, an edge of one is merged with an edge of the other through a
channel of free cells. A request says which edges of which tiles may be merged, and which cells
the channel may use. Adjacent tiles merge directly, through a channel without cells, if both edges
between them qualify; a tile does not merge with itself that way.
-/

namespace LatticeSurgery

/-- One end of a channel: a tile and the kind of edge to merge. -/
structure Terminal where
  tile : Tile
  kind : EdgeKind
deriving DecidableEq, Repr

namespace Terminal

/-- The cell of the tile. -/
def cell (t : Terminal) : Cell := t.tile.cell

/-- Whether the tile's edge towards the cell has the wanted kind. -/
def opensTo (t : Terminal) (c : Cell) : Bool := (t.tile.facing? c).any (·.kind = t.kind)

theorem opensTo_iff {t : Terminal} {c : Cell} :
    t.opensTo c ↔ ∃ s, t.cell.sideFacing? c = some s ∧ (t.tile.edge s).kind = t.kind := by
  simp only [opensTo, Tile.facing?, cell]
  cases t.tile.cell.sideFacing? c <;> simp

end Terminal

/-- What is asked of the router. -/
structure ChannelRequest where
  source : Terminal
  target : Terminal
  /-- Whether the ends belong to different patches, which may merge directly. -/
  separate : Bool
  /-- The cells that the channel may use. -/
  box : Box
  /-- Those of them that are free. -/
  isFree : Cell → Bool

namespace ChannelRequest

/-- Whether the channel may use the cell. -/
def passable (r : ChannelRequest) (c : Cell) : Bool := decide (c ∈ r.box) && r.isFree c

/-- Whether the two tiles merge without a cell between them. -/
def direct (r : ChannelRequest) : Bool :=
  r.separate && r.source.opensTo r.target.cell && r.target.opensTo r.source.cell

variable {r : ChannelRequest}

theorem passable_iff {c : Cell} : r.passable c ↔ c ∈ r.box ∧ r.isFree c := by
  simp [passable]

end ChannelRequest

end LatticeSurgery
