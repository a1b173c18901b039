import LatticeSurgery.Proofs.Grid.Adjacency
import LatticeSurgery.Proofs.Grid.Numbering
import LatticeSurgery.Proofs.Search.Renaming
import LatticeSurgery.Routing.Graph
import LatticeSurgery.Routing.Paths
import Mathlib.Data.List.Sort

/-!
# The edges of the numbered graph

The router's graph has two forms, the steps between places of a path and the numbered graph with
its edges in the order in which they were added. They are the same: where both ends of the channel
are taken cells of the box, the edges out of the number of a place, the newest one first, lead to
the numbers of the steps out of that place, in the order in which they are tried
(`Anchored.successors_node`).

Every pass contributes its own part. The edges between cells run through the box row by row, so
those out of a cell lead to the cells above, left, right and below (`endsFrom_cellEdges`); those
out of the source follow the order of its sides (`endsFrom_sourceEdges`), and a cell has one edge
to the goal at most (`endsFrom_goalEdges`). The ends themselves are no free cells, so that no other
pass adds an edge out of them.
-/

namespace LatticeSurgery

namespace CellGraph

variable {es es' : List (Nat × Nat)} {m n : Nat}

theorem endsFrom_append : endsFrom (es ++ es') n = endsFrom es n ++ endsFrom es' n := by
  simp [endsFrom]

theorem endsFrom_flatMap (cs : List Cell) (edges : Cell → List (Nat × Nat)) :
    endsFrom (cs.flatMap edges) n = cs.flatMap fun c => endsFrom (edges c) n := by
  unfold endsFrom
  rw [List.filter_flatMap, List.map_flatMap]

theorem endsFrom_eq_nil (h : ∀ e ∈ es, e.1 ≠ n) : endsFrom es n = [] := by
  unfold endsFrom
  rw [List.filter_eq_nil_iff.2 (by simpa using h), List.map_nil]

theorem endsFrom_start (ns : List Nat) : endsFrom (ns.map (n, ·)) n = ns := by
  simp [endsFrom, List.filter_map, Function.comp_def]

theorem mem_successors {g : CellGraph} : m ∈ g.successors n ↔ (n, m) ∈ g.edges := by
  simp [successors, endsFrom]

end CellGraph

namespace ChannelRequest

open CellGraph

variable {r : ChannelRequest} {c d : Cell} {v : Waypoint}

/-! ### Numbers of cells -/

/-- The number of a cell of the box. -/
def number (r : ChannelRequest) (c : Cell) : Nat := (r.box.numberOf? c).getD 0

theorem numberOf?_eq_number (h : c ∈ r.box) : r.box.numberOf? c = some (r.number c) := by
  unfold number
  rw [Box.numberOf?_of_mem h]
  rfl

theorem numberOf?_of_not_mem (h : c ∉ r.box) : r.box.numberOf? c = none := if_neg h

theorem getElem?_cells_number (h : c ∈ r.box) : r.box.cells[r.number c]? = some c :=
  Box.getElem?_cells_eq_some_iff.2 (Box.numberOf?_eq_some_iff.1 (numberOf?_eq_number h))

theorem number_lt (h : c ∈ r.box) : r.number c < r.box.size :=
  (Box.numberOf?_eq_some_iff.1 (numberOf?_eq_number h)).1

theorem number_inj (hc : c ∈ r.box) (hd : d ∈ r.box) : r.number c = r.number d ↔ c = d := by
  constructor
  · intro h
    have hcell := getElem?_cells_number hc
    rw [h, getElem?_cells_number hd] at hcell
    exact (Option.some.inj hcell).symm
  · exact congrArg r.number

theorem noted_eq_passable (c : Cell) : r.noted c = r.passable c := by
  unfold noted passable freeFlags
  by_cases h : c ∈ r.box
  · rw [numberOf?_eq_number h]
    simp [getElem?_cells_number h, h]
  · rw [numberOf?_of_not_mem h]
    simp [h]

/-! ### The passes -/

theorem neighbours_filter_noted (c : Cell) :
    (r.box.neighbours c).filter r.noted = r.passableAcross c Side.all := by
  unfold Box.neighbours passableAcross Cell.neighbours
  rw [List.filter_filter]
  refine List.filter_congr fun d _ => ?_
  rw [noted_eq_passable]
  unfold passable
  cases decide (d ∈ r.box) <;> simp

theorem openings_eq (t : Terminal) :
    r.openings t = (r.passableAcross t.cell Side.all).filter t.opensTo := by
  unfold openings
  rw [neighbours_filter_noted]

theorem mem_openings {t : Terminal} : c ∈ r.openings t ↔ r.passable c ∧ t.opensTo c := by
  rw [openings_eq, List.mem_filter, mem_passableAcross Side.mem_all]
  constructor
  · intro h
    exact ⟨h.1.2, h.2⟩
  · intro h
    exact ⟨⟨Terminal.adjacent_of_opensTo h.2, h.1⟩, h.2⟩

theorem nodup_passableAcross (c : Cell) : (r.passableAcross c Side.all).Nodup :=
  c.nodup_neighbours.filter _

theorem nodup_openings (t : Terminal) : (r.openings t).Nodup := by
  rw [openings_eq]
  exact (nodup_passableAcross t.cell).filter _

/-- Among edges from different cells to one node, at most one is out of a given cell. -/
theorem endsFrom_number {ds : List Cell} (hds : ∀ d ∈ ds, r.passable d) (hnd : ds.Nodup)
    (hc : r.passable c) (n : Nat) :
    endsFrom (ds.map fun d => (r.number d, n)) (r.number c) = if c ∈ ds then [n] else [] := by
  unfold endsFrom
  have hfilter : ds.filter ((fun e : Nat × Nat => decide (e.1 = r.number c)) ∘
      fun d => (r.number d, n)) = ds.filter fun d => decide (d = c) := by
    refine List.filter_congr fun d hd => ?_
    exact decide_eq_decide.2 (number_inj (passable_iff.1 (hds d hd)).1 (passable_iff.1 hc).1)
  rw [List.filter_map, hfilter, List.filter_eq, hnd.count]
  split <;> rfl

theorem pairwise_passableAcross (c : Cell) :
    (r.passableAcross c [.top, .left, .right, .bottom]).Pairwise (compare · · = .lt) := by
  have hsides : [Side.top, .left, .right, .bottom].Pairwise fun s s' =>
      s.rowStep < s'.rowStep ∨ s.rowStep = s'.rowStep ∧ s.colStep < s'.colStep := by decide
  refine List.Pairwise.filter _ (List.pairwise_filterMap.2 (hsides.imp ?_))
  intro s s' hlt a ha b hb
  obtain ⟨harow, hacol⟩ := Cell.beyond?_eq_some_iff.1 ha
  obtain ⟨hbrow, hbcol⟩ := Cell.beyond?_eq_some_iff.1 hb
  rw [Cell.compare_eq_lt_iff]
  omega

theorem filter_adjacent_cells (c : Cell) :
    (r.box.cells.filter r.passable).filter (c.Adjacent ·) =
      r.passableAcross c [.top, .left, .right, .bottom] := by
  -- both lists run row by row, so it is enough that they have the same cells
  have hcells := ((Box.pairwise_cells r.box).filter r.passable).filter (c.Adjacent ·)
  refine hcells.eq_of_mem_iff (pairwise_passableAcross c) fun d => ?_
  have hsides : ∀ s, s ∈ [Side.top, .left, .right, .bottom] := by
    intro s
    cases s <;> simp
  rw [mem_passableAcross hsides, List.mem_filter, List.mem_filter, Box.mem_cells,
    decide_eq_true_iff]
  constructor
  · intro h
    exact ⟨h.2, h.1.2⟩
  · intro h
    exact ⟨⟨(passable_iff.1 h.2).1, h.2⟩, h.1⟩

theorem cellEdges_eq :
    r.cellEdges = (r.box.cells.filter r.passable).flatMap fun c =>
      (r.passableAcross c Side.all).map fun d => (r.number d, r.number c) := by
  unfold cellEdges
  rw [List.filter_congr fun c _ => noted_eq_passable c]
  refine List.flatMap_congr fun c hc => ?_
  rw [neighbours_filter_noted, List.filterMap_eq_map_iff_forall_eq_some]
  intro d hd
  have hcbox := (passable_iff.1 (List.mem_filter.1 hc).2).1
  have hdbox := (passable_iff.1 ((mem_passableAcross Side.mem_all).1 hd).2).1
  rw [numberOf?_eq_number hcbox, numberOf?_eq_number hdbox]
  rfl

theorem sourceEdges_eq (n : Nat) :
    r.sourceEdges n = ((r.openings r.source).map r.number).map (n, ·) := by
  unfold sourceEdges
  rw [List.map_map, List.filterMap_eq_map_iff_forall_eq_some]
  intro c hc
  rw [numberOf?_eq_number (passable_iff.1 (mem_openings.1 hc).1).1]
  rfl

theorem goalEdges_eq (n : Nat) :
    r.goalEdges n = (r.openings r.target).map fun c => (r.number c, n) := by
  unfold goalEdges
  rw [List.filterMap_eq_map_iff_forall_eq_some]
  intro c hc
  rw [numberOf?_eq_number (passable_iff.1 (mem_openings.1 hc).1).1]
  rfl

theorem directEdges_eq (source goal : Nat) :
    r.directEdges source goal = if r.direct then [(source, goal)] else [] := by
  have hiff : r.source.cell.Adjacent r.target.cell ∧ r.direct ↔ r.direct := by
    refine and_iff_right_of_imp fun h => ?_
    simp only [direct, Bool.and_eq_true] at h
    exact Terminal.adjacent_of_opensTo h.1.2
  unfold directEdges
  simp only [hiff]

/-! ### The edges out of a node, pass by pass -/

theorem endsFrom_cellEdges (hc : r.passable c) :
    endsFrom r.cellEdges (r.number c) =
      (r.passableAcross c [.top, .left, .right, .bottom]).map r.number := by
  rw [cellEdges_eq, endsFrom_flatMap, ← filter_adjacent_cells, ← List.filterMap_eq_map,
    List.filterMap_filter, List.filterMap_eq_flatMap_toList]
  -- the block of edges to a cell `d` has one out of `c` if the two are adjacent, and none otherwise
  refine List.flatMap_congr fun d hd => ?_
  have hds : ∀ x ∈ r.passableAcross d Side.all, r.passable x :=
    fun x hx => ((mem_passableAcross Side.mem_all).1 hx).2
  have hiff : c ∈ r.passableAcross d Side.all ↔ c.Adjacent d := by
    rw [mem_passableAcross Side.mem_all, Cell.adjacent_comm, and_iff_left hc]
  rw [endsFrom_number hds (nodup_passableAcross d) hc]
  simp only [hiff, decide_eq_true_eq]
  split <;> rfl

theorem endsFrom_cellEdges_of_ne {n : Nat} (h : ∀ c, r.passable c → r.number c ≠ n) :
    endsFrom r.cellEdges n = [] := by
  apply endsFrom_eq_nil
  intro e he
  rw [cellEdges_eq] at he
  obtain ⟨c, -, he⟩ := List.mem_flatMap.1 he
  obtain ⟨d, hd, rfl⟩ := List.mem_map.1 he
  exact h d ((mem_passableAcross Side.mem_all).1 hd).2

theorem endsFrom_goalEdges (hc : r.passable c) (goal : Nat) :
    endsFrom (r.goalEdges goal) (r.number c) = if r.target.opensTo c then [goal] else [] := by
  have hiff : c ∈ r.openings r.target ↔ r.target.opensTo c := by
    rw [mem_openings, and_iff_right hc]
  rw [goalEdges_eq, endsFrom_number (fun d hd => (mem_openings.1 hd).1) (nodup_openings _) hc]
  simp only [hiff]

theorem endsFrom_goalEdges_of_ne {n : Nat} (h : ∀ c, r.passable c → r.number c ≠ n)
    (goal : Nat) : endsFrom (r.goalEdges goal) n = [] := by
  apply endsFrom_eq_nil
  intro e he
  rw [goalEdges_eq] at he
  obtain ⟨c, hc, rfl⟩ := List.mem_map.1 he
  exact h c (mem_openings.1 hc).1

theorem endsFrom_sourceEdges_of_ne {m n : Nat} (h : m ≠ n) :
    endsFrom (r.sourceEdges m) n = [] := by
  apply endsFrom_eq_nil
  intro e he
  rw [sourceEdges_eq] at he
  obtain ⟨k, -, rfl⟩ := List.mem_map.1 he
  exact h

theorem endsFrom_sourceEdges (n : Nat) :
    endsFrom (r.sourceEdges n) n = (r.openings r.source).map r.number := by
  rw [sourceEdges_eq, endsFrom_start]

theorem endsFrom_directEdges (source goal : Nat) :
    endsFrom (r.directEdges source goal) source = if r.direct then [goal] else [] := by
  rw [directEdges_eq]
  split
  · exact endsFrom_start [goal]
  · rfl

theorem endsFrom_directEdges_of_ne {m n : Nat} (h : m ≠ n) (goal : Nat) :
    endsFrom (r.directEdges m goal) n = [] := by
  apply endsFrom_eq_nil
  intro e he
  rw [directEdges_eq] at he
  split at he
  · rw [List.mem_singleton.1 he]
    exact h
  · cases he

/-! ### The ends of the channel -/

/-- The number of a place of the router's graph. -/
def node (r : ChannelRequest) : Waypoint → Nat
  | .source => r.number r.source.cell
  | .via c => r.number c
  | .target => r.goalNode (r.number r.target.cell)

/-- The graph that is searched, between the numbers of the two ends. -/
def numbered (r : ChannelRequest) : CellGraph := r.graph (r.node .source) (r.node .target)

/-- The places where a path of the router can be. -/
def places (r : ChannelRequest) : Set Waypoint := {v | ∀ c, v = .via c → r.passable c}

/-- Both ends are cells of the box that are taken, and different ones if their patches are. -/
structure Anchored (r : ChannelRequest) : Prop where
  source_mem : r.source.cell ∈ r.box
  target_mem : r.target.cell ∈ r.box
  source_taken : ¬ r.isFree r.source.cell
  target_taken : ¬ r.isFree r.target.cell
  apart : ¬ (r.separate ∧ r.source.cell = r.target.cell)

theorem number_ne_of_taken (hc : c ∈ r.box) (htaken : ¬ r.isFree c) :
    ∀ d, r.passable d → r.number d ≠ r.number c := by
  intro d hd h
  obtain ⟨hdbox, hfree⟩ := passable_iff.1 hd
  rw [(number_inj hdbox hc).1 h] at hfree
  exact htaken hfree

theorem Anchored.number_ne_target (h : r.Anchored) :
    ∀ c, r.passable c → r.number c ≠ r.node .target := by
  intro c hc
  show r.number c ≠ r.goalNode (r.number r.target.cell)
  unfold goalNode
  split
  · exact number_ne_of_taken h.target_mem h.target_taken c hc
  · rw [Box.length_cells]
    exact Nat.ne_of_lt (number_lt (passable_iff.1 hc).1)

theorem Anchored.source_ne_target (h : r.Anchored) : r.node .source ≠ r.node .target := by
  show r.number r.source.cell ≠ r.goalNode (r.number r.target.cell)
  unfold goalNode
  split
  · next hs =>
    rw [Ne, number_inj h.source_mem h.target_mem]
    exact fun heq => h.apart ⟨hs, heq⟩
  · rw [Box.length_cells]
    exact Nat.ne_of_lt (number_lt h.source_mem)

/-! ### The steps out of a place -/

theorem passableAcross_reverse (c : Cell) (sides : List Side) :
    (r.passableAcross c sides).reverse = r.passableAcross c sides.reverse := by
  unfold passableAcross
  rw [List.filterMap_reverse, List.filter_reverse]

theorem Anchored.successors_source (h : r.Anchored) :
    r.numbered.successors (r.node .source) = (r.steps .source).map r.node := by
  have htaken : ∀ d, r.passable d → r.number d ≠ r.node .source :=
    number_ne_of_taken h.source_mem h.source_taken
  have hopenings : ((r.openings r.source).map r.number).reverse =
      (((r.passableAcross r.source.cell [.right, .left, .bottom, .top]).filter
        r.source.opensTo).map .via).map r.node := by
    rw [openings_eq, ← List.map_reverse, ← List.filter_reverse, passableAcross_reverse,
      List.map_map]
    rfl
  unfold successors numbered graph
  simp only [endsFrom_append, List.reverse_append]
  rw [endsFrom_cellEdges_of_ne htaken, endsFrom_sourceEdges, endsFrom_goalEdges_of_ne htaken,
    endsFrom_directEdges, hopenings, steps, List.map_append]
  split <;> simp

theorem Anchored.successors_via (h : r.Anchored) (hc : r.passable c) :
    r.numbered.successors (r.number c) = (r.steps (.via c)).map r.node := by
  have hsource : r.node .source ≠ r.number c :=
    (number_ne_of_taken h.source_mem h.source_taken c hc).symm
  have hacross : ((r.passableAcross c [.top, .left, .right, .bottom]).map r.number).reverse =
      ((r.passableAcross c [.bottom, .right, .left, .top]).map .via).map r.node := by
    rw [← List.map_reverse, passableAcross_reverse, List.map_map]
    rfl
  unfold successors numbered graph
  simp only [endsFrom_append, List.reverse_append]
  rw [endsFrom_cellEdges hc, endsFrom_sourceEdges_of_ne hsource, endsFrom_goalEdges hc,
    endsFrom_directEdges_of_ne hsource, hacross, steps, List.map_append]
  split <;> simp

theorem Anchored.successors_target (h : r.Anchored) :
    r.numbered.successors (r.node .target) = [] := by
  unfold successors numbered graph
  simp only [endsFrom_append]
  rw [endsFrom_cellEdges_of_ne h.number_ne_target, endsFrom_sourceEdges_of_ne h.source_ne_target,
    endsFrom_goalEdges_of_ne h.number_ne_target, endsFrom_directEdges_of_ne h.source_ne_target]
  rfl

theorem Anchored.node_injOn (h : r.Anchored) : Set.InjOn r.node r.places := by
  have hsource : ∀ d, r.passable d → r.number d ≠ r.node .source :=
    number_ne_of_taken h.source_mem h.source_taken
  intro v hv w hw hvw
  cases v with
  | source =>
    cases w with
    | source => rfl
    | via d => exact absurd hvw.symm (hsource d (hw d rfl))
    | target => exact absurd hvw h.source_ne_target
  | via c =>
    cases w with
    | source => exact absurd hvw (hsource c (hv c rfl))
    | via d =>
      have hc := (passable_iff.1 (hv c rfl)).1
      have hd := (passable_iff.1 (hw d rfl)).1
      exact congrArg Waypoint.via ((number_inj hc hd).1 hvw)
    | target => exact absurd hvw (h.number_ne_target c (hv c rfl))
  | target =>
    cases w with
    | source => exact absurd hvw.symm h.source_ne_target
    | via d => exact absurd hvw.symm (h.number_ne_target d (hw d rfl))
    | target => rfl

theorem mem_places_of_mem_steps {w : Waypoint} (hw : w ∈ r.steps v) : w ∈ r.places := by
  intro c hc
  subst hc
  cases v with
  | source =>
    rcases mem_steps_source.1 hw with ⟨hc, -⟩ | ⟨d, hd, hp, -⟩
    · cases hc
    · cases hd
      exact hp
  | via b =>
    rcases mem_steps_via.1 hw with ⟨hc, -⟩ | ⟨d, hd, -, hp⟩
    · cases hc
    · cases hd
      exact hp
  | target => cases hw

/-- **The edges of the numbered graph are the steps of the router**, under the numbers of the cells
and in the order in which they are tried. -/
theorem Anchored.successors_node (h : r.Anchored) (hv : v ∈ r.places) :
    r.numbered.successors (r.node v) = (r.steps v).map r.node := by
  cases v with
  | source => exact h.successors_source
  | via c => exact h.successors_via (hv c rfl)
  | target => exact h.successors_target

theorem Anchored.renames (h : r.Anchored) :
    Renames r.node r.places r.steps r.numbered.successors where
  injOn := h.node_injOn
  closed _ _ _ hw := mem_places_of_mem_steps hw
  next_eq _ hv := h.successors_node hv

end ChannelRequest

end LatticeSurgery
