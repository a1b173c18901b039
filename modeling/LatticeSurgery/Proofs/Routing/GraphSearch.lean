import LatticeSurgery.Proofs.Routing.NumberedGraph
import LatticeSurgery.Proofs.Routing.SliceChannel

/-!
# The path through the numbered graph

The search of the numbered graph is the router's search under other names, so the nodes between the
two ends of its path stand for the cells that the router finds (`graphPath?_eq_path?`). Two patches
on one cell have one node, and the path is over where it starts. On a slice the ends of a channel
are always taken, and the router is the search of the numbered graph (`route_eq_graphPath?`).
-/

namespace LatticeSurgery

namespace ChannelRequest

open CellGraph

variable {r : ChannelRequest} {c : Cell}

/-! ### The nodes -/

theorem length_nodes_numbered :
    r.numbered.nodes.length = r.box.size + if r.separate then 0 else 1 := by
  unfold numbered graph
  rw [List.length_append, List.length_map, Box.length_cells]
  split <;> rfl

theorem number_lt_length_nodes (hc : c ∈ r.box) : r.number c < r.numbered.nodes.length := by
  rw [length_nodes_numbered]
  exact Nat.lt_add_right _ (number_lt hc)

theorem node_target_lt_length_nodes (hbox : r.target.cell ∈ r.box) :
    r.node .target < r.numbered.nodes.length := by
  show r.goalNode (r.number r.target.cell) < _
  rw [length_nodes_numbered]
  unfold goalNode
  split
  · exact number_lt hbox
  · rw [Box.length_cells]
    exact Nat.lt_succ_self _

theorem lt_of_mem_successors {m n : Nat} (hbox : r.target.cell ∈ r.box)
    (hm : m ∈ r.numbered.successors n) : m < r.numbered.nodes.length := by
  have hcell : ∀ c, r.passable c → r.number c < r.numbered.nodes.length :=
    fun c hc => number_lt_length_nodes (passable_iff.1 hc).1
  have hgoal := node_target_lt_length_nodes hbox
  have hedge : (n, m) ∈ r.cellEdges ++ r.sourceEdges (r.node .source) ++
      r.goalEdges (r.node .target) ++ r.directEdges (r.node .source) (r.node .target) :=
    mem_successors.1 hm
  rw [cellEdges_eq, sourceEdges_eq, goalEdges_eq, directEdges_eq] at hedge
  simp only [List.mem_append, List.mem_flatMap, List.mem_map, List.mem_filter,
    Prod.mk.injEq] at hedge
  rcases hedge with ((⟨c, hc, d, -, -, rfl⟩ | ⟨_, ⟨c, hc, rfl⟩, -, rfl⟩) | ⟨c, -, -, rfl⟩) | hdirect
  · exact hcell c hc.2
  · exact hcell c (mem_openings.1 hc).1
  · exact hgoal
  · split at hdirect
    · cases List.mem_singleton.1 hdirect
      exact hgoal
    · cases hdirect

theorem head_mem_range (hbox : r.source.cell ∈ r.box ∧ r.target.cell ∈ r.box) {t : Trail Nat}
    (ht : IsTrail r.numbered.successors (r.node .source) t) :
    t.head ∈ List.range r.numbered.nodes.length := by
  rw [List.mem_range]
  cases ht with
  | start => exact number_lt_length_nodes hbox.1
  | extend _ hv => exact lt_of_mem_successors hbox.2 hv

theorem cellAt?_number (hc : c ∈ r.box) : r.numbered.cellAt? (r.number c) = some c := by
  unfold cellAt? numbered graph
  rw [List.getElem?_append_left (by simpa using number_lt hc), List.getElem?_map,
    getElem?_cells_number hc]
  rfl

/-! ### The path -/

theorem filterMap_cellAt?_interior {path : List Cell} (hpath : ∀ c ∈ path, r.passable c) :
    ((.source :: path.map .via ++ [.target] : List Waypoint).map r.node).tail.dropLast.filterMap
      r.numbered.cellAt? = path := by
  have hcell : ∀ c ∈ path, (r.numbered.cellAt? ∘ r.number) c = some c :=
    fun c hc => cellAt?_number (passable_iff.1 (hpath c hc)).1
  rw [List.map_append, List.map_cons, List.cons_append, List.tail_cons, List.map_singleton,
    List.dropLast_concat, List.map_map, List.filterMap_map]
  exact (List.filterMap_congr hcell).trans List.filterMap_some

theorem graphPath?_of_mem (hbox : r.source.cell ∈ r.box ∧ r.target.cell ∈ r.box) :
    r.graphPath? =
      (shortestPath? r.numbered.successors r.numbered.nodes.length (r.node .source)
        (r.node .target)).map fun nodes =>
          nodes.tail.dropLast.filterMap r.numbered.cellAt? := by
  unfold graphPath?
  rw [numberOf?_eq_number hbox.1, numberOf?_eq_number hbox.2]
  exact Option.map_eq_bind.symm

theorem graphPath?_of_shared (hbox : r.source.cell ∈ r.box ∧ r.target.cell ∈ r.box)
    (hshared : r.separate ∧ r.source.cell = r.target.cell) : r.graphPath? = some [] := by
  have hnode : r.node .target = r.node .source := by
    show r.goalNode (r.number r.target.cell) = r.number r.source.cell
    unfold goalNode
    rw [if_pos hshared.1, hshared.2]
  have hlt : r.node .source < r.numbered.nodes.length := number_lt_length_nodes hbox.1
  rw [graphPath?_of_mem hbox, hnode, shortestPath?_self (Nat.zero_lt_of_lt hlt)]
  rfl

theorem Anchored.graphPath?_eq (h : r.Anchored) : r.graphPath? = r.path? := by
  have hbox := And.intro h.source_mem h.target_mem
  have hfuel : r.numbered.nodes.length ≤ r.box.size + 2 := by
    rw [length_nodes_numbered]
    split <;> omega
  have hsource : .source ∈ r.places := fun c hc => by cases hc
  have htarget : .target ∈ r.places := fun c hc => by cases hc
  -- both searches are allowed enough trails, so that they may be given the same number
  rw [graphPath?_of_mem hbox, ← shortestPath?_eq_of_le (fun t ht => head_mem_range hbox ht)
    (Nat.le_of_eq List.length_range) hfuel, h.renames.shortestPath?_eq hsource htarget, path?,
    if_pos hbox, if_neg h.apart, Option.map_map]
  cases hv : shortestPath? r.steps (r.box.size + 2) .source .target with
  | none => rfl
  | some vertices =>
    obtain ⟨t, ht, hhead, rfl, -⟩ := exists_isTrail_of_shortestPath? hv
    obtain ⟨path, hpath, hchannel⟩ := exists_isChannel_of_isTrail ht hhead
    rw [Option.map_some, Option.map_some, hpath, filterMap_cell?_vertices]
    exact congrArg some (filterMap_cellAt?_interior hchannel.passable)

/-- **Searching the numbered graph finds the router's path**, if the ends of the channel are on
cells that are taken. -/
theorem graphPath?_eq_path? (hsource : ¬ r.isFree r.source.cell)
    (htarget : ¬ r.isFree r.target.cell) : r.graphPath? = r.path? := by
  by_cases hbox : r.source.cell ∈ r.box ∧ r.target.cell ∈ r.box
  · by_cases hshared : r.separate ∧ r.source.cell = r.target.cell
    · rw [graphPath?_of_shared hbox hshared, path?, if_pos hbox, if_pos hshared]
    · exact Anchored.graphPath?_eq ⟨hbox.1, hbox.2, hsource, htarget, hshared⟩
  · rw [path?, if_neg hbox, graphPath?]
    by_cases hs : r.source.cell ∈ r.box
    · rw [numberOf?_of_not_mem fun ht => hbox ⟨hs, ht⟩, numberOf?_eq_number hs]
      rfl
    · rw [numberOf?_of_not_mem hs]
      rfl

end ChannelRequest

namespace Slice

variable {s : Slice} {source target : PatchId} {sourceOp targetOp : Pauli}

theorem not_isFree_of_tile? {tile : Tile} {id : PatchId} (h : s.tile? id = some tile) :
    ¬ s.isFree tile.cell := by
  intro hfree
  exact (isFree_iff.1 hfree).2.1 (cell_mem_patchCells h)

/-- **The router searches the numbered graph.** -/
theorem route_eq_graphPath? :
    s.route source sourceOp target targetOp = (do
      let r ← s.channelRequest source sourceOp target targetOp
      return r.graphPath?.map fun path => .ofPath r.source.cell path r.target.cell) := by
  unfold route
  cases hr : s.channelRequest source sourceOp target targetOp with
  | error e => rfl
  | ok r =>
    obtain ⟨_, _, a, b, -, -, ha, hb, rfl⟩ := channelRequest_eq_ok_iff.1 hr
    rw [ok_bind, ok_bind,
      ChannelRequest.graphPath?_eq_path? (not_isFree_of_tile? ha) (not_isFree_of_tile? hb)]

end Slice

end LatticeSurgery
