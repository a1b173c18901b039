import LatticeSurgery.Fault

/-!
# Tiles: cells with edges

A tile is one cell together with what each of its four edges exposes. A rough edge ends X-type
logical operators and a smooth edge Z-type ones; a connected edge is merged into a channel. The
edge that faces another cell is found by `Tile.facing?` and replaced by `Tile.setFacing?`.
-/

namespace LatticeSurgery

/-- What an edge of a tile exposes. -/
inductive EdgeKind where
  | bare
  | rough
  | smooth
  | connected
deriving DecidableEq, Repr

/-- The kind of edge that exposes the operator. -/
def Pauli.edgeKind : Pauli → Except Fault EdgeKind
  | .x => .ok .rough
  | .z => .ok .smooth
  | .i => .error (.noEdgeFor .i)
  | .y => .error (.noEdgeFor .y)

/-- One edge of a tile; it is active while it takes part in a merge. -/
structure Edge where
  kind : EdgeKind
  active : Bool
deriving DecidableEq, Repr

namespace Edge

/-- An edge of the given kind that takes part in no merge. -/
def inactive (kind : EdgeKind) : Edge := ⟨kind, false⟩

/-- An edge inside a channel. -/
def connected : Edge := ⟨.connected, true⟩

end Edge

/-- A cell with its four edges. -/
structure Tile where
  cell : Cell
  top : Edge
  bottom : Edge
  left : Edge
  right : Edge
deriving DecidableEq, Repr

namespace Tile

/-- Inactive edges, of one kind above and below and of one kind left and right. -/
def ofKinds (cell : Cell) (vertical horizontal : EdgeKind) : Tile where
  cell := cell
  top := .inactive vertical
  bottom := .inactive vertical
  left := .inactive horizontal
  right := .inactive horizontal

/-- A tile that exposes nothing. -/
def bare (cell : Cell) : Tile := ofKinds cell .bare .bare

/-- The edge on the given side. -/
def edge (t : Tile) : Side → Edge
  | .top => t.top
  | .bottom => t.bottom
  | .left => t.left
  | .right => t.right

/-- The tile with another edge on the given side. -/
def setEdge (t : Tile) (s : Side) (e : Edge) : Tile :=
  match s with
  | .top => { t with top := e }
  | .bottom => { t with bottom := e }
  | .left => { t with left := e }
  | .right => { t with right := e }

/-- The edge that faces the cell, if the cell is adjacent. -/
def facing? (t : Tile) (c : Cell) : Option Edge := (t.cell.sideFacing? c).map t.edge

/-- The tile with another edge towards the cell, if the cell is adjacent. -/
def setFacing? (t : Tile) (c : Cell) (e : Edge) : Option Tile :=
  (t.cell.sideFacing? c).map (t.setEdge · e)

/-- The tile with its edge towards the cell connected; unchanged if the cell is not adjacent. -/
def connectTo (t : Tile) (c : Cell) : Tile := (t.setFacing? c .connected).getD t

/-! ### Reading and writing edges -/

variable {t : Tile} {c : Cell} {s s' : Side} {e : Edge}

@[simp] theorem cell_bare : (bare c).cell = c := rfl

@[simp] theorem edge_bare : (bare c).edge s = .inactive .bare := by cases s <;> rfl

@[simp] theorem cell_setEdge : (t.setEdge s e).cell = t.cell := by cases s <;> rfl

theorem edge_setEdge : (t.setEdge s e).edge s' = if s' = s then e else t.edge s' := by
  cases s <;> cases s' <;> rfl

@[simp] theorem cell_connectTo : (t.connectTo c).cell = t.cell := by
  simp only [connectTo, setFacing?]
  cases t.cell.sideFacing? c <;> simp

theorem edge_connectTo :
    (t.connectTo c).edge s = if t.cell.sideFacing? c = some s then .connected else t.edge s := by
  simp only [connectTo, setFacing?]
  cases h : t.cell.sideFacing? c with
  | none => simp
  | some s' => simp [edge_setEdge, eq_comm]

end Tile

end LatticeSurgery
