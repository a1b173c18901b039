import LatticeSurgery.Patch.Tile

/-!
# Patches and regions

A patch is a part of the lattice that holds one logical qubit or one magic state: a single tile,
or several. A patch without id is an obstacle that no instruction can address. A region is a bare
list of tiles: the channel of a merge, from the source side to the target side, or a part of the
lattice that is set aside for distillation.
-/

namespace LatticeSurgery

/-- The tiles of a patch. -/
inductive Shape where
  | single (tile : Tile)
  | multi (tiles : List Tile)
deriving DecidableEq, Repr

/-- What a patch is for. -/
inductive Role where
  | qubit
  | ancilla
  | distillation
deriving DecidableEq, Repr

/-- What happens to a patch during a slice. -/
inductive Activity where
  | idle
  /-- A logical Pauli is applied. -/
  | unitary
  /-- The patch is measured out and gone after the slice. -/
  | measurement
deriving DecidableEq, Repr

/-- A part of the lattice that holds one logical qubit or magic state. -/
structure Patch where
  shape : Shape
  role : Role := .qubit
  id : Option PatchId := none
  activity : Activity := .idle
deriving DecidableEq, Repr

namespace Patch

/-- The square patch of one cell, rough above and below and smooth left and right. -/
def square (cell : Cell) : Patch := { shape := .single (.ofKinds cell .rough .smooth) }

/-- The tiles, in the patch's own order. -/
def tiles (p : Patch) : List Tile :=
  match p.shape with
  | .single tile => [tile]
  | .multi tiles => tiles

/-- The only tile of a patch of single shape. -/
def singleTile? (p : Patch) : Option Tile :=
  match p.shape with
  | .single tile => some tile
  | .multi _ => none

/-- The cells, in the patch's own order. -/
def cells (p : Patch) : List Cell := p.tiles.map Tile.cell

/-- One cell of the patch, if it has any. -/
def anyCell? (p : Patch) : Option Cell := p.cells.head?

/-- Whether the patch covers the cell. -/
def covers (p : Patch) (c : Cell) : Bool := p.tiles.any (·.cell = c)

/-- The patch after the step: a Pauli is over, and a measured patch is gone. -/
def next? (p : Patch) : Option Patch :=
  match p.activity with
  | .idle => some p
  | .unitary => some { p with activity := .idle }
  | .measurement => none

theorem covers_iff {p : Patch} {c : Cell} : p.covers c ↔ c ∈ p.cells := by
  simp [covers, cells]

end Patch

/-- Tiles in order, apart from any patch. -/
structure Region where
  tiles : List Tile
deriving DecidableEq, Repr

namespace Region

/-- The cells, in order. -/
def cells (r : Region) : List Cell := r.tiles.map Tile.cell

/-- Whether the region covers the cell. -/
def covers (r : Region) (c : Cell) : Bool := r.tiles.any (·.cell = c)

/-- The region of bare tiles on the given cells. -/
def ofCells (cells : List Cell) : Region := ⟨cells.map Tile.bare⟩

/-- The tiles of a path, each connected to the cell before and the cell after it. -/
def tilesAlong (before : Cell) (path : List Cell) (after : Cell) : List Tile :=
  match path with
  | [] => []
  | c :: path =>
    ((Tile.bare c).connectTo before).connectTo (path.head?.getD after) :: tilesAlong c path after

/-- The region of a channel from the source cell along the path to the target cell. -/
def ofPath (source : Cell) (path : List Cell) (target : Cell) : Region :=
  ⟨tilesAlong source path target⟩

theorem covers_iff {r : Region} {c : Cell} : r.covers c ↔ c ∈ r.cells := by
  simp [covers, cells]

@[simp] theorem cells_ofPath {source target : Cell} {path : List Cell} :
    (ofPath source path target).cells = path := by
  simp only [ofPath, cells]
  induction path generalizing source with
  | nil => rfl
  | cons c path ih => simp [tilesAlong, ih]

end Region

end LatticeSurgery
