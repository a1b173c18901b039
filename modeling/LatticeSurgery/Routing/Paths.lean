import LatticeSurgery.Routing.Channel
import LatticeSurgery.Routing.Router
import LatticeSurgery.Search.Layers

/-!
# The router's paths are the channels

The trails of the router's graph that arrive at the target pass exactly the cells of a channel,
one cell fewer than steps (`exists_isChannel_of_isTrail`, `IsChannel.exists_isTrail`). Between two
cells of the box, the router therefore finds a channel with the fewest cells
(`isChannel_of_path?`), and it finds none only where there is none (`path?_ne_none`).
-/

namespace LatticeSurgery

@[simp] theorem Trail.vertices_start {ν : Type} (v : ν) : (Trail.start v).vertices = [v] := rfl

@[simp] theorem Trail.vertices_extend {ν : Type} (t : Trail ν) (v : ν) :
    (t.extend v).vertices = t.vertices ++ [v] := by
  simp [vertices, extend]

theorem Trail.length_vertices {ν : Type} (t : Trail ν) : t.vertices.length = t.steps + 1 := by
  simp [vertices, steps]

theorem Terminal.adjacent_of_opensTo {t : Terminal} {c : Cell} (h : t.opensTo c) :
    t.cell.Adjacent c := by
  obtain ⟨s, hs, -⟩ := Terminal.opensTo_iff.1 h
  exact Cell.adjacent_iff_sideFacing?.2 ⟨s, hs⟩

namespace ChannelRequest

variable {r : ChannelRequest} {path : List Cell} {c d : Cell} {v : Waypoint}

/-! ### Steps -/

theorem mem_passableAcross {sides : List Side} (hs : ∀ s, s ∈ sides) :
    d ∈ r.passableAcross c sides ↔ c.Adjacent d ∧ r.passable d := by
  rw [passableAcross, List.mem_filter, List.mem_filterMap, Cell.adjacent_iff_sideFacing?]
  simp only [Cell.sideFacing?_eq_some_iff, hs, true_and]

theorem mem_steps_source :
    v ∈ r.steps .source ↔
      (v = .target ∧ r.direct) ∨ ∃ c, v = .via c ∧ r.passable c ∧ r.source.opensTo c := by
  have hs : ∀ s, s ∈ [Side.right, .left, .bottom, .top] := by intro s; cases s <;> simp
  rw [steps, List.mem_append, List.mem_map]
  simp only [List.mem_filter, mem_passableAcross hs]
  constructor
  · rintro (h | ⟨c, ⟨⟨-, hp⟩, ho⟩, rfl⟩)
    · split at h
      · next hd => exact .inl ⟨by simpa using h, hd⟩
      · cases h
    · exact .inr ⟨c, rfl, hp, ho⟩
  · rintro (⟨rfl, hd⟩ | ⟨c, rfl, hp, ho⟩)
    · exact .inl (by simp [hd])
    · exact .inr ⟨c, ⟨⟨Terminal.adjacent_of_opensTo ho, hp⟩, ho⟩, rfl⟩

theorem mem_steps_via :
    v ∈ r.steps (.via c) ↔
      (v = .target ∧ r.target.opensTo c) ∨ ∃ d, v = .via d ∧ c.Adjacent d ∧ r.passable d := by
  have hs : ∀ s, s ∈ [Side.bottom, .right, .left, .top] := by intro s; cases s <;> simp
  rw [steps, List.mem_append, List.mem_map]
  simp only [mem_passableAcross hs]
  constructor
  · rintro (h | ⟨d, hd, rfl⟩)
    · split at h
      · next ho => exact .inl ⟨by simpa using h, ho⟩
      · cases h
    · exact .inr ⟨d, rfl, hd⟩
  · rintro (⟨rfl, ho⟩ | ⟨d, rfl, hd⟩)
    · exact .inl (by simp [ho])
    · exact .inr ⟨d, hd, rfl⟩

/-! ### From trails to channels -/

/-- The beginning of a channel, as far as the cell `c`. -/
structure IsOpening (r : ChannelRequest) (path : List Cell) (c : Cell) : Prop where
  passable : ∀ c ∈ path, r.passable c
  adjacent : path.IsChain Cell.Adjacent
  leaves : r.source.opensTo (path.head?.getD r.target.cell)
  last : path.getLast? = some c

theorem IsOpening.ne_nil (h : r.IsOpening path c) : path ≠ [] := by
  rintro rfl
  simpa using h.last

theorem IsOpening.append (h : r.IsOpening path c) (ha : c.Adjacent d) (hp : r.passable d) :
    r.IsOpening (path ++ [d]) d where
  passable x hx := by
    rcases List.mem_append.1 hx with hx | hx
    · exact h.passable x hx
    · rwa [List.mem_singleton.1 hx]
  adjacent := by
    rw [List.isChain_append]
    refine ⟨h.adjacent, .singleton d, fun x hx y hy => ?_⟩
    obtain rfl : c = x := Option.some.inj (h.last.symm.trans hx)
    obtain rfl : d = y := by simpa using hy
    exact ha
  leaves := by
    rw [List.head?_append_of_ne_nil _ h.ne_nil]
    exact h.leaves
  last := by simp

theorem IsOpening.isChannel (h : r.IsOpening path c) (ho : r.target.opensTo c) :
    r.IsChannel path where
  passable := h.passable
  adjacent := h.adjacent
  leaves := h.leaves
  enters := by rwa [h.last]
  separate he := absurd he h.ne_nil

/-- The vertices of a trail from the source, by where it has arrived. -/
def Covers (r : ChannelRequest) (vertices : List Waypoint) : Waypoint → Prop
  | .source => vertices = [.source]
  | .via c => ∃ path, vertices = .source :: path.map .via ∧ r.IsOpening path c
  | .target => ∃ path, vertices = .source :: path.map .via ++ [.target] ∧ r.IsChannel path

theorem covers_of_isTrail {t : Trail Waypoint} (ht : IsTrail r.steps .source t) :
    r.Covers t.vertices t.head := by
  induction ht with
  | start => rfl
  | @extend t v ht hv ih =>
    rw [Trail.vertices_extend, Trail.head_extend]
    cases hh : t.head with
    | source =>
      rw [hh] at ih hv
      rw [show t.vertices = [.source] from ih]
      rcases mem_steps_source.1 hv with ⟨rfl, hd⟩ | ⟨c, rfl, hp, ho⟩
      · exact ⟨[], rfl, isChannel_nil_iff.2 hd⟩
      · exact ⟨[c], rfl, by simpa using hp, .singleton c, ho, rfl⟩
    | via c =>
      rw [hh] at ih hv
      obtain ⟨path, hpath, hopen⟩ := ih
      rw [hpath]
      rcases mem_steps_via.1 hv with ⟨rfl, ho⟩ | ⟨d, rfl, ha, hp⟩
      · exact ⟨path, rfl, hopen.isChannel ho⟩
      · exact ⟨path ++ [d], by simp, hopen.append ha hp⟩
    | target =>
      rw [hh] at hv
      cases hv

theorem exists_isChannel_of_isTrail {t : Trail Waypoint} (ht : IsTrail r.steps .source t)
    (hh : t.head = .target) :
    ∃ path, t.vertices = .source :: path.map .via ++ [.target] ∧ r.IsChannel path := by
  have := covers_of_isTrail ht
  rwa [hh] at this

/-! ### From channels to trails -/

theorem exists_isTrail_of_isChain (path : List Cell) (h : ∀ c ∈ path, r.passable c)
    (ha : path.IsChain Cell.Adjacent) (ho : ∀ c ∈ path.head?, r.source.opensTo c) {c : Cell}
    (hc : path.getLast? = some c) :
    ∃ t, IsTrail r.steps .source t ∧ t.head = .via c ∧ t.steps = path.length := by
  induction path using List.reverseRecOn generalizing c with
  | nil => cases hc
  | append_singleton path d ih =>
    obtain rfl : d = c := by simpa using hc
    obtain ⟨hl, -, hlast⟩ := List.isChain_append.1 ha
    cases hp : path.getLast? with
    | none =>
      obtain rfl := List.getLast?_eq_none_iff.1 hp
      have hv : .via d ∈ r.steps .source :=
        mem_steps_source.2 (.inr ⟨d, rfl, h d (by simp), ho d (by simp)⟩)
      exact ⟨_, IsTrail.start.extend hv, rfl, rfl⟩
    | some b =>
      have hne : path ≠ [] := by rintro rfl; cases hp
      rw [List.head?_append_of_ne_nil _ hne] at ho
      obtain ⟨t, ht, hh, hs⟩ := ih (fun x hx => h x (by simp [hx])) hl ho hp
      have hv : .via d ∈ r.steps t.head := by
        rw [hh]
        exact mem_steps_via.2 (.inr ⟨d, rfl, hlast b hp d (by simp), h d (by simp)⟩)
      exact ⟨t.extend (.via d), ht.extend hv, rfl, by simp [hs]⟩

theorem IsChannel.exists_isTrail (h : r.IsChannel path) :
    ∃ t, IsTrail r.steps .source t ∧ t.head = .target ∧ t.steps = path.length + 1 := by
  cases hp : path.getLast? with
  | none =>
    obtain rfl := List.getLast?_eq_none_iff.1 hp
    exact ⟨_, IsTrail.start.extend (mem_steps_source.2 (.inl ⟨rfl, isChannel_nil_iff.1 h⟩)),
      rfl, rfl⟩
  | some c =>
    have hleaves := h.leaves
    have henters := h.enters
    rw [hp] at henters
    obtain ⟨t, ht, hh, hs⟩ := exists_isTrail_of_isChain path h.passable h.adjacent
      (fun x hx => by rw [Option.mem_def.1 hx] at hleaves; exact hleaves) hp
    have hv : .target ∈ r.steps t.head := by
      rw [hh]
      exact mem_steps_via.2 (.inl ⟨rfl, henters⟩)
    exact ⟨t.extend .target, ht.extend hv, rfl, by simp [hs]⟩

/-! ### What the router finds -/

/-- The vertices of the router's graph. -/
def waypoints (r : ChannelRequest) : List Waypoint := .source :: .target :: r.box.cells.map .via

theorem head_mem_waypoints {t : Trail Waypoint} (ht : IsTrail r.steps .source t) :
    t.head ∈ r.waypoints := by
  have := covers_of_isTrail ht
  cases hh : t.head with
  | source => simp [waypoints]
  | target => simp [waypoints]
  | via c =>
    rw [hh] at this
    obtain ⟨path, -, hopen⟩ := this
    have hc := hopen.passable c (List.mem_of_getLast? hopen.last)
    simp [waypoints, Box.mem_cells, (passable_iff.1 hc).1]

theorem filterMap_cell?_vertices :
    (.source :: path.map .via ++ [.target] : List Waypoint).filterMap Waypoint.cell? = path := by
  rw [List.cons_append, List.filterMap_cons_none rfl, List.filterMap_append, List.filterMap_map]
  show path.filterMap some ++ [] = path
  simp

/-- Unless two patches share a cell, what the router finds is a channel with the fewest cells. -/
theorem isChannel_of_path? (hs : ¬ (r.separate ∧ r.source.cell = r.target.cell))
    (h : r.path? = some path) :
    r.IsChannel path ∧ ∀ path', r.IsChannel path' → path.length ≤ path'.length := by
  simp only [path?, if_neg hs] at h
  split at h
  · obtain ⟨vertices, hv, rfl⟩ := Option.map_eq_some_iff.1 h
    obtain ⟨t, ht, hh, rfl, hmin⟩ := exists_isTrail_of_shortestPath? hv
    obtain ⟨path, hpath, hchannel⟩ := exists_isChannel_of_isTrail ht hh
    rw [hpath, filterMap_cell?_vertices]
    refine ⟨hchannel, fun path' h' => ?_⟩
    obtain ⟨t', ht', hh', hs'⟩ := h'.exists_isTrail
    have hle := hmin t' ht' hh'
    have hlen := t.length_vertices
    rw [hpath] at hlen
    simp at hlen
    omega
  · cases h

theorem path?_ne_none (hbox : r.source.cell ∈ r.box ∧ r.target.cell ∈ r.box)
    (h : r.IsChannel path) : r.path? ≠ none := by
  simp only [path?, if_pos hbox]
  split
  · simp
  · obtain ⟨t, ht, hh, -⟩ := h.exists_isTrail
    have hsize : r.waypoints.length ≤ r.box.size + 2 := by simp [waypoints]
    have := shortestPath?_ne_none (fun _ => head_mem_waypoints) hsize ht hh
    simpa using this

end ChannelRequest

end LatticeSurgery
