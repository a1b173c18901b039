import LatticeSurgery.Search.Layers
import Mathlib.Data.Set.Function

/-!
# Renaming the vertices of a graph

A search does not depend on what the vertices are called. The heap moves its entries by their ranks
alone, so giving the items other names commutes with every move (`Heap.push_map`, `Heap.pop?_map`).
The set of reached vertices is only asked about vertices of the graph, on which the renaming is
injective. So the searches before and after a renaming stay in step (`Renames.search_eq`), and the
path that is found is the renamed one (`Renames.shortestPath?_eq`).

The number of trails that a search may take does not matter either, once it is at least the number
of vertices (`shortestPath?_eq_of_le`).
-/

namespace LatticeSurgery

variable {α β ν μ : Type}

/-! ### Heaps -/

/-- The same rank on another item. -/
def Ranked.map (f : α → β) (e : Ranked α) : Ranked β := ⟨e.rank, f e.item⟩

@[simp] theorem Ranked.rank_map (f : α → β) (e : Ranked α) : (e.map f).rank = e.rank := rfl

namespace Heap

/-- The heap with other items in the same places. -/
def map (f : α → β) (h : Heap α) : Heap β := ⟨h.entries.map (Ranked.map f)⟩

theorem map_swap (f : α → β) {d : Array α} {i j : Nat} {hi : i < d.size} {hj : j < d.size} :
    (d.swap i j).map f = (d.map f).swap i j (by simpa using hi) (by simpa using hj) := by
  simp only [Array.swap_def, Array.map_set, Array.getElem_map]

theorem map_lift (f : α → β) (d : Array (Ranked α)) (pos : Nat) :
    (lift d pos).map (Ranked.map f) = lift (d.map (Ranked.map f)) pos := by
  fun_induction lift d pos with
  | case1 d pos h hlt ih =>
    rw [ih, map_swap, eq_comm, lift, dif_pos (by simpa using h), if_pos (by simpa using hlt)]
  | case2 d pos h hlt =>
    rw [lift, dif_pos (by simpa using h), if_neg (by simpa using hlt)]
  | case3 d pos h =>
    rw [lift, dif_neg (by simpa using h)]

theorem map_sink (f : α → β) (d : Array (Ranked α)) (pos : Nat) :
    (sink d pos).map (Array.map (Ranked.map f)) id = sink (d.map (Ranked.map f)) pos := by
  fun_induction sink d pos with
  | case1 d pos h hle ih =>
    rw [ih, map_swap, eq_comm, sink, dif_pos (by simpa using h), if_pos (by simpa using hle)]
  | case2 d pos h hle ih =>
    rw [ih, map_swap, eq_comm, sink, dif_pos (by simpa using h), if_neg (by simpa using hle)]
  | case3 d pos h h' =>
    rw [sink, dif_neg (by simpa using h), dif_pos (by simpa using h'), ← map_swap]
    rfl
  | case4 d pos h h' =>
    rw [sink, dif_neg (by simpa using h), dif_neg (by simpa using h')]
    rfl

theorem map_empty (f : α → β) : (empty : Heap α).map f = empty := by
  simp [map, empty]

theorem map_push (f : α → β) (h : Heap α) (rank : Nat) (item : α) :
    (h.push rank item).map f = (h.map f).push rank (f item) := by
  unfold push map
  rw [map_lift, Array.map_push, Array.size_map]
  rfl

theorem map_pop? (f : α → β) (h : Heap α) :
    h.pop?.map (Prod.map (Ranked.map f) (map f)) = (h.map f).pop? := by
  obtain ⟨d⟩ := h
  by_cases hempty : d.size = 0
  · obtain rfl := Array.eq_empty_of_size_eq_zero hempty
    rw [pop?_eq_none_iff.2 rfl, pop?_eq_none_iff.2 (by simp [map])]
    rfl
  · obtain ⟨d, last, rfl⟩ := Array.eq_push_of_size_ne_zero hempty
    have hmap : map f ⟨d.push last⟩ = ⟨(d.map (Ranked.map f)).push (last.map f)⟩ :=
      congrArg mk Array.map_push
    rw [hmap, pop?_push, pop?_push]
    split
    · next hd =>
      have hsink := map_sink f (d.set 0 last) 0
      rw [Array.map_set] at hsink
      rw [dif_pos (by simpa using hd), ← hsink]
      simp [map, map_lift]
    · next hd =>
      rw [dif_neg (by simpa using hd)]
      rfl

end Heap

/-! ### Searches -/

/-- The trail through the renamed vertices. -/
def Trail.map (f : ν → μ) (t : Trail ν) : Trail μ := ⟨f t.head, t.earlier.map f⟩

theorem Trail.vertices_map (f : ν → μ) (t : Trail ν) : (t.map f).vertices = t.vertices.map f := by
  simp [vertices, map]

/-- One graph is another one under new names: the steps are the same, in the same order, and never
lead out of a set of vertices on which no two get the same name. -/
structure Renames (f : ν → μ) (vertices : Set ν) (next : ν → List ν) (next' : μ → List μ) :
    Prop where
  injOn : Set.InjOn f vertices
  closed : ∀ v ∈ vertices, ∀ w ∈ next v, w ∈ vertices
  next_eq : ∀ v ∈ vertices, next' (f v) = (next v).map f

namespace Frontier

variable [Ord ν] [Ord μ] {f : ν → μ} {vertices : Set ν}

/-- Two searches have the same trails in their heaps and have reached the same vertices, but for the
names. -/
structure Renamed (f : ν → μ) (vertices : Set ν) (a : Frontier ν) (b : Frontier μ) : Prop where
  trails : a.trails.map (Trail.map f) = b.trails
  head_mem : ∀ e ∈ a.trails.entries, e.item.head ∈ vertices
  reached : ∀ v ∈ vertices, f v ∈ b.reached ↔ v ∈ a.reached

variable {a : Frontier ν} {b : Frontier μ} {e : Ranked (Trail ν)} {v : ν} {vs : List ν}

theorem Renamed.pop? {rest : Heap (Trail ν)} (h : Renamed f vertices a b)
    (he : a.trails.pop? = some (e, rest)) :
    b.trails.pop? = some (e.map (Trail.map f), rest.map (Trail.map f)) ∧
      e.item.head ∈ vertices ∧
      Renamed f vertices { a with trails := rest }
        { b with trails := rest.map (Trail.map f) } := by
  have hmem : ∀ x, x ∈ a.trails.entries ↔ x ∈ rest.entries ∨ x = e :=
    fun x => (Heap.perm_of_pop? he).mem_iff.trans Array.mem_push
  refine ⟨?_, h.head_mem e ((hmem e).2 (.inr rfl)), rfl, fun x hx => ?_, h.reached⟩
  · rw [← h.trails, ← Heap.map_pop?, he]
    rfl
  · exact h.head_mem x ((hmem x).2 (.inl hx))

theorem discover_of_mem (h : v ∈ a.reached) : discover e a v = a :=
  if_pos (Std.TreeSet.contains_iff_mem.2 h)

theorem discover_of_not_mem (h : v ∉ a.reached) :
    discover e a v = ⟨a.trails.push (e.rank + 1) (e.item.extend v), a.reached.insert v⟩ :=
  if_neg (mt Std.TreeSet.contains_iff_mem.1 h)

variable [Std.TransOrd ν] [Std.LawfulEqOrd ν] [Std.TransOrd μ] [Std.LawfulEqOrd μ]

theorem mem_reached_start {w : ν} : w ∈ (start v).reached ↔ w = v := by
  rw [start, Std.TreeSet.mem_insert, Std.compare_eq_iff_eq, or_iff_left (by simp), eq_comm]

theorem renamed_start (hf : Set.InjOn f vertices) (hv : v ∈ vertices) :
    Renamed f vertices (.start v) (.start (f v)) where
  trails := by
    unfold start
    rw [Heap.map_push, Heap.map_empty]
    rfl
  head_mem e he := by
    rw [entries_start] at he
    obtain rfl : e = ⟨0, .start v⟩ := by simpa using he
    exact hv
  reached w hw := by rw [mem_reached_start, mem_reached_start, hf.eq_iff hw hv]

theorem Renamed.discover (hf : Set.InjOn f vertices) (h : Renamed f vertices a b)
    (hv : v ∈ vertices) :
    Renamed f vertices (discover e a v) (discover (e.map (Trail.map f)) b (f v)) := by
  by_cases hr : v ∈ a.reached
  · rwa [discover_of_mem hr, discover_of_mem ((h.reached v hv).2 hr)]
  · rw [discover_of_not_mem hr, discover_of_not_mem (mt (h.reached v hv).1 hr)]
    refine ⟨?_, fun x hx => ?_, fun w hw => ?_⟩
    · rw [Heap.map_push, h.trails]
      rfl
    · rcases Array.mem_push.1 (Heap.perm_push.mem_iff.1 hx) with hx | rfl
      · exact h.head_mem x hx
      · exact hv
    · rw [Std.TreeSet.mem_insert, Std.TreeSet.mem_insert, Std.compare_eq_iff_eq,
        Std.compare_eq_iff_eq, hf.eq_iff hv hw, h.reached w hw]

theorem Renamed.foldl_discover (hf : Set.InjOn f vertices) (h : Renamed f vertices a b)
    (hvs : ∀ v ∈ vs, v ∈ vertices) :
    Renamed f vertices (vs.foldl (Frontier.discover e) a)
      ((vs.map f).foldl (Frontier.discover (e.map (Trail.map f))) b) := by
  induction vs generalizing a b with
  | nil => exact h
  | cons v vs ih =>
    apply ih
    · exact h.discover hf (hvs v (by simp))
    · intro w hw
      exact hvs w (by simp [hw])

end Frontier

variable [Ord ν] [Std.TransOrd ν] [Std.LawfulEqOrd ν] [DecidableEq ν] [Ord μ] [Std.TransOrd μ]
  [Std.LawfulEqOrd μ] [DecidableEq μ] {f : ν → μ} {vertices : Set ν} {next : ν → List ν}
  {next' : μ → List μ} {start goal : ν}

theorem Renames.search_eq (hr : Renames f vertices next next') (hgoal : goal ∈ vertices)
    (fuel : Nat) {a : Frontier ν} {b : Frontier μ} (h : Frontier.Renamed f vertices a b) :
    Frontier.search next' (f goal) fuel b =
      (Frontier.search next goal fuel a).map (Trail.map f) := by
  induction fuel generalizing a b with
  | zero => rfl
  | succ fuel ih =>
    unfold Frontier.search
    cases he : a.trails.pop? with
    | none =>
      rw [← h.trails, ← Heap.map_pop?, he]
      rfl
    | some p =>
      obtain ⟨e, rest⟩ := p
      obtain ⟨he', hhead, hrest⟩ := h.pop? he
      have hiff : (e.map (Trail.map f)).item.head = f goal ↔ e.item.head = goal :=
        hr.injOn.eq_iff hhead hgoal
      simp only [he', hiff]
      split
      · rfl
      · apply ih
        rw [show next' (e.map (Trail.map f)).item.head = _ from hr.next_eq e.item.head hhead]
        exact hrest.foldl_discover hr.injOn (hr.closed e.item.head hhead)

theorem Renames.shortestPath?_eq (hr : Renames f vertices next next') (hstart : start ∈ vertices)
    (hgoal : goal ∈ vertices) (size : Nat) :
    shortestPath? next' size (f start) (f goal) =
      (shortestPath? next size start goal).map (List.map f) := by
  unfold shortestPath?
  rw [hr.search_eq hgoal size (Frontier.renamed_start hr.injOn hstart), Option.map_map,
    Option.map_map]
  exact congrArg (Option.map · _) (funext (Trail.vertices_map f))

/-! ### The number of trails allowed -/

omit [Std.TransOrd ν] [Std.LawfulEqOrd ν] in
theorem Frontier.search_of_le {fuel fuel' : Nat} (hle : fuel ≤ fuel') {a : Frontier ν} {t : Trail ν}
    (h : search next goal fuel a = some t) : search next goal fuel' a = some t := by
  induction fuel generalizing fuel' a with
  | zero => cases h
  | succ fuel ih =>
    obtain ⟨fuel', rfl⟩ : ∃ n, fuel' = n + 1 := Nat.exists_eq_add_one.2 (by omega)
    unfold search at h ⊢
    cases he : a.trails.pop? with
    | none => simp only [he] at h; cases h
    | some p =>
      simp only [he] at h ⊢
      split at h
      · next hgoal => rwa [if_pos hgoal]
      · next hgoal =>
        rw [if_neg hgoal]
        exact ih (by omega) h

theorem shortestPath?_eq_of_le {vs : List ν} {size size' : Nat}
    (hvs : ∀ t, IsTrail next start t → t.head ∈ vs) (hsize : vs.length ≤ size)
    (hle : size ≤ size') :
    shortestPath? next size' start goal = shortestPath? next size start goal := by
  cases h : shortestPath? next size start goal with
  | some path =>
    obtain ⟨t, ht, rfl⟩ := Option.map_eq_some_iff.1 h
    exact congrArg (Option.map _) (Frontier.search_of_le hle ht)
  | none =>
    by_contra hne
    obtain ⟨path, hpath⟩ := Option.ne_none_iff_exists'.1 hne
    obtain ⟨t, ht, hgoal, -⟩ := exists_isTrail_of_shortestPath? hpath
    exact shortestPath?_ne_none hvs hsize ht hgoal h

omit [Std.TransOrd ν] [Std.LawfulEqOrd ν] in
theorem shortestPath?_self {size : Nat} (hsize : 0 < size) (v : ν) :
    shortestPath? next size v v = some [v] := by
  obtain ⟨fuel, rfl⟩ := Nat.exists_eq_add_one.2 hsize
  have htrails : (Frontier.start v).trails = ⟨#[].push ⟨0, .start v⟩⟩ :=
    congrArg Heap.mk Frontier.entries_start
  unfold shortestPath? Frontier.search
  rw [htrails, Heap.pop?_push]
  simp [Trail.vertices, Trail.start]

end LatticeSurgery
