import LatticeSurgery.Routing.Request
import LatticeSurgery.Search.Shortest
import LatticeSurgery.Slice.Basic

/-!
# The router

A channel is a path in a graph whose vertices are the source, the cells that may be passed, and
the target. The steps out of the source leave through qualifying edges only and the steps to the
target enter through qualifying edges only, so every path is a channel and every channel a path; a
shortest path is a shortest channel. Which of several shortest channels is found follows from the
order of the steps.

On a slice, channels stay in the box from the origin to the furthest covered cell.
-/

namespace LatticeSurgery

/-- Where a path of the router can be. -/
inductive Waypoint where
  | source
  | via (cell : Cell)
  | target
deriving DecidableEq, Repr

namespace Waypoint

/-- How far along a path the place can be. -/
def stage : Waypoint → Nat
  | source => 0
  | via _ => 1
  | target => 2

/-- The cell of the channel, if the place is one. -/
def cell? : Waypoint → Option Cell
  | via c => some c
  | source | target => none

/-- The cell of the channel; the origin for the two ends, which the stage tells apart. -/
def cell (v : Waypoint) : Cell := v.cell?.getD .origin

/-- The source, the cells in their order, the target. -/
instance : Ord Waypoint := ⟨compareLex (compareOn stage) (compareOn cell)⟩

instance : Std.TransOrd Waypoint :=
  inferInstanceAs (Std.TransCmp (compareLex (compareOn stage) (compareOn cell)))

instance : Std.LawfulEqOrd Waypoint where
  compare_self := Std.ReflOrd.compare_self (α := Waypoint)
  eq_of_compare {v w} h := by
    obtain ⟨hs, hc⟩ := Ordering.then_eq_eq.1 h
    have hs : v.stage = w.stage := Std.LawfulEqOrd.eq_of_compare hs
    have hc : v.cell = w.cell := Std.LawfulEqOrd.eq_of_compare hc
    cases v <;> cases w <;> simp_all [stage, cell, cell?]

end Waypoint

namespace ChannelRequest

/-- The passable cells across the given sides of a cell. -/
def passableAcross (r : ChannelRequest) (c : Cell) (sides : List Side) : List Cell :=
  (sides.filterMap c.beyond?).filter r.passable

/-- The steps of the router's graph, in the order in which they are tried. -/
def steps (r : ChannelRequest) : Waypoint → List Waypoint
  | .source =>
    (if r.direct then [.target] else []) ++
      ((r.passableAcross r.source.cell [.right, .left, .bottom, .top]).filter
        r.source.opensTo).map .via
  | .via c =>
    (if r.target.opensTo c then [.target] else []) ++
      (r.passableAcross c [.bottom, .right, .left, .top]).map .via
  | .target => []

/-- The cells of a shortest channel. Two patches on one cell need no channel. -/
def path? (r : ChannelRequest) : Option (List Cell) :=
  if r.source.cell ∈ r.box ∧ r.target.cell ∈ r.box then
    if r.separate ∧ r.source.cell = r.target.cell then some []
    else (shortestPath? r.steps (r.box.size + 2) .source .target).map (·.filterMap Waypoint.cell?)
  else none

end ChannelRequest

namespace Slice

/-- The end of a channel at the patch with the id. -/
def terminal (s : Slice) (id : PatchId) (kind : EdgeKind) : Except Fault Terminal := do
  match (← s.qubit id).singleTile? with
  | some tile => return ⟨tile, kind⟩
  | none => throw (.severalCells id)

/-- The request for a channel between two patches of the slice. -/
def channelRequest (s : Slice) (source : PatchId) (sourceOp : Pauli) (target : PatchId)
    (targetOp : Pauli) : Except Fault ChannelRequest := do
  let sourceKind ← sourceOp.edgeKind
  let targetKind ← targetOp.edgeKind
  return {
    source := ← s.terminal source sourceKind
    target := ← s.terminal target targetKind
    separate := source ≠ target
    box := .upTo s.extent
    isFree := s.isFree }

/-- A shortest channel from an edge of the source patch that exposes the one operator to an edge of
the target patch that exposes the other, if there is any. -/
def route (s : Slice) (source : PatchId) (sourceOp : Pauli) (target : PatchId) (targetOp : Pauli) :
    Except Fault (Option Region) := do
  let r ← s.channelRequest source sourceOp target targetOp
  return r.path?.map fun path => .ofPath r.source.cell path r.target.cell

/-- A shortest channel from an X edge of a patch back to a Z edge of the same patch. -/
def twist (s : Slice) (id : PatchId) : Except Fault (Option Region) := s.route id .x id .z

end Slice

end LatticeSurgery
