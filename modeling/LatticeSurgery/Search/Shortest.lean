import LatticeSurgery.Search.Heap
import Std.Data.TreeSet

/-!
# Shortest paths

Search in a graph whose steps all cost the same. A graph is given by the steps out of each vertex,
in the order in which they are tried. The search keeps a heap of trails, ranked by their number of
steps, and the set of vertices that some trail has reached. It takes a trail of least rank from
the heap; unless that has arrived, it is continued to each vertex not reached so far.

Every vertex is reached by one trail only, so at most as many trails are taken as there are
vertices, and a search that is allowed that many never stops short.
-/

namespace LatticeSurgery

/-- A way through a graph, with its vertices from the last one back to the first. -/
structure Trail (ν : Type) where
  head : ν
  earlier : List ν
deriving DecidableEq, Repr

namespace Trail

variable {ν : Type}

/-- The trail that goes nowhere. -/
def start (v : ν) : Trail ν := ⟨v, []⟩

/-- The trail with one more step. -/
def extend (t : Trail ν) (v : ν) : Trail ν := ⟨v, t.head :: t.earlier⟩

/-- The number of steps. -/
def steps (t : Trail ν) : Nat := t.earlier.length

/-- The vertices from the first one on. -/
def vertices (t : Trail ν) : List ν := (t.head :: t.earlier).reverse

end Trail

/-- The state of a search: the trails to go on with, and the vertices that have been reached. -/
structure Frontier (ν : Type) [Ord ν] where
  trails : Heap (Trail ν)
  reached : Std.TreeSet ν

namespace Frontier

variable {ν : Type} [Ord ν]

/-- The frontier of a search from `v`. -/
def start (v : ν) : Frontier ν where
  trails := Heap.empty.push 0 (.start v)
  reached := Std.TreeSet.empty.insert v

/-- Continues a ranked trail to `v`, unless `v` has been reached. -/
def discover (e : Ranked (Trail ν)) (f : Frontier ν) (v : ν) : Frontier ν :=
  if f.reached.contains v then f
  else ⟨f.trails.push (e.rank + 1) (e.item.extend v), f.reached.insert v⟩

/-- Follows trails from the frontier to the goal, at most `fuel` of them. -/
def search [DecidableEq ν] (next : ν → List ν) (goal : ν) :
    (fuel : Nat) → Frontier ν → Option (Trail ν)
  | 0, _ => none
  | fuel + 1, f =>
    match f.trails.pop? with
    | none => none
    | some (entry, rest) =>
      if entry.item.head = goal then some entry.item
      else
        search next goal fuel
          ((next entry.item.head).foldl (discover entry) { f with trails := rest })

end Frontier

/-- The vertices of a path of fewest steps, in a graph of at most `size` vertices. -/
def shortestPath? {ν : Type} [Ord ν] [DecidableEq ν] (next : ν → List ν) (size : Nat)
    (start goal : ν) : Option (List ν) :=
  (Frontier.search next goal size (.start start)).map Trail.vertices

end LatticeSurgery
