import LatticeSurgery.Routing.Router

/-!
# The numbered graph of the router

The graph that is searched for a channel, in the form in which it is built: the nodes are the
cells of the box by their numbers, and one more for a channel that returns to its own patch, so
that source and goal differ. The edges are added pass by pass, and the search tries the newest
edge of a node first. Which cells are free is noted once, by their numbers.
-/

namespace LatticeSurgery

/-- A graph on numbered nodes, some of which stand for cells, with the edges in the order in which
they were added. -/
structure CellGraph where
  nodes : List (Option Cell)
  edges : List (Nat × Nat)
deriving DecidableEq, Repr

namespace CellGraph

/-- The ends of the edges out of a node. -/
def endsFrom (edges : List (Nat × Nat)) (n : Nat) : List Nat :=
  (edges.filter (·.1 = n)).map Prod.snd

/-- The ends of the edges out of a node, the newest edge first. -/
def successors (g : CellGraph) (n : Nat) : List Nat := (endsFrom g.edges n).reverse

/-- The cell that a node stands for. -/
def cellAt? (g : CellGraph) (n : Nat) : Option Cell := g.nodes[n]?.join

end CellGraph

namespace ChannelRequest

/-- Which cells of the box are free, by their numbers. -/
def freeFlags (r : ChannelRequest) : List Bool := r.box.cells.map r.isFree

/-- Whether the cell has a number and is noted as free. -/
def noted (r : ChannelRequest) (c : Cell) : Bool :=
  (r.box.numberOf? c).any (r.freeFlags[·]? = some true)

/-- An edge to each free cell from each of its free neighbours. -/
def cellEdges (r : ChannelRequest) : List (Nat × Nat) :=
  (r.box.cells.filter r.noted).flatMap fun c =>
    ((r.box.neighbours c).filter r.noted).filterMap fun d =>
      return (← r.box.numberOf? d, ← r.box.numberOf? c)

/-- The free neighbours across the qualifying edges of an end of the channel. -/
def openings (r : ChannelRequest) (t : Terminal) : List Cell :=
  ((r.box.neighbours t.cell).filter r.noted).filter t.opensTo

/-- An edge from the source to each of its openings. -/
def sourceEdges (r : ChannelRequest) (source : Nat) : List (Nat × Nat) :=
  (r.openings r.source).filterMap fun c => (r.box.numberOf? c).map (source, ·)

/-- An edge to the goal from each opening of the target. -/
def goalEdges (r : ChannelRequest) (goal : Nat) : List (Nat × Nat) :=
  (r.openings r.target).filterMap fun c => (r.box.numberOf? c).map (·, goal)

/-- An edge from the source to the goal, if the tiles merge directly. -/
def directEdges (r : ChannelRequest) (source goal : Nat) : List (Nat × Nat) :=
  if r.source.cell.Adjacent r.target.cell ∧ r.direct then [(source, goal)] else []

/-- The graph that is searched, from the numbers of its source and its goal. -/
def graph (r : ChannelRequest) (source goal : Nat) : CellGraph where
  nodes := r.box.cells.map some ++ if r.separate then [] else [none]
  edges := r.cellEdges ++ r.sourceEdges source ++ r.goalEdges goal ++ r.directEdges source goal

/-- The node that the search goes for: the target's cell, or the node after all cells if the
channel returns to its own patch. -/
def goalNode (r : ChannelRequest) (target : Nat) : Nat :=
  if r.separate then target else r.box.cells.length

/-- The cells of a shortest path through the numbered graph, without its two ends. -/
def graphPath? (r : ChannelRequest) : Option (List Cell) := do
  let source ← r.box.numberOf? r.source.cell
  let target ← r.box.numberOf? r.target.cell
  let goal := r.goalNode target
  let g := r.graph source goal
  let nodes ← shortestPath? g.successors g.nodes.length source goal
  return nodes.tail.dropLast.filterMap g.cellAt?

end ChannelRequest

end LatticeSurgery
