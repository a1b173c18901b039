import LatticeSurgery.Search.HeapOrder
import LatticeSurgery.Search.Shortest
import Mathlib.Data.List.Perm.Subperm

/-!
# The search goes by layers

Why the search of `shortestPath?` finds a path of fewest steps, whatever order the heap gives to
trails of equal rank. A vertex is done once its trail has been taken from the heap and continued.
While trails of `k` steps are taken, every vertex within `k` steps of the start has been reached,
every vertex nearer than that is done, and the heap holds trails of `k` and of `k + 1` steps
(`Layered`). A trail to a vertex not reached before has therefore the least possible number of
steps, and so has the trail that arrives at the goal.

The heap holds one trail for each vertex that is reached and not done, so a search that takes as
many trails as the graph has vertices takes them all; if it has not arrived by then, there is no
path.
-/

namespace LatticeSurgery

variable {ν : Type}

/-- The trails of a graph from a vertex. -/
inductive IsTrail (next : ν → List ν) (start : ν) : Trail ν → Prop where
  | start : IsTrail next start (.start start)
  | extend {t : Trail ν} {v : ν} (ht : IsTrail next start t) (hv : v ∈ next t.head) :
    IsTrail next start (t.extend v)

@[simp] theorem Trail.head_start (v : ν) : (Trail.start v).head = v := rfl

@[simp] theorem Trail.steps_start (v : ν) : (Trail.start v).steps = 0 := rfl

@[simp] theorem Trail.head_extend (t : Trail ν) (v : ν) : (t.extend v).head = v := rfl

@[simp] theorem Trail.steps_extend (t : Trail ν) (v : ν) : (t.extend v).steps = t.steps + 1 := rfl

namespace Frontier

variable [Ord ν] {next : ν → List ν} {start goal v : ν} {f : Frontier ν} {done : List ν} {k : Nat}

/-- The vertices at which the trails of the heap have arrived. -/
def heads (f : Frontier ν) : List ν := f.trails.entries.toList.map (·.item.head)

/-- The search is at trails of `k` steps and has continued those to the vertices that are done. -/
structure Layered (next : ν → List ν) (start : ν) (f : Frontier ν) (done : List ν) (k : Nat) :
    Prop where
  ordered : f.trails.Ordered
  isTrail : ∀ e ∈ f.trails.entries, IsTrail next start e.item
  rank_eq : ∀ e ∈ f.trails.entries, e.rank = e.item.steps
  least : ∀ e ∈ f.trails.entries, ∀ t, IsTrail next start t → t.head = e.item.head →
    e.rank ≤ t.steps
  lower : ∀ e ∈ f.trails.entries, k ≤ e.rank
  upper : ∀ e ∈ f.trails.entries, e.rank ≤ k + 1
  mem_reached : ∀ v, v ∈ f.reached ↔ v ∈ done ∨ v ∈ f.heads
  within : ∀ t, IsTrail next start t → t.steps ≤ k → t.head ∈ f.reached
  nearer : ∀ t, IsTrail next start t → t.steps < k → t.head ∈ done
  nodup : (f.heads ++ done).Nodup

/-- Whatever is one step from a vertex that is done has been reached. -/
def Closed (next : ν → List ν) (f : Frontier ν) (done : List ν) : Prop :=
  ∀ v ∈ done, ∀ w ∈ next v, w ∈ f.reached

theorem mem_heads : v ∈ f.heads ↔ ∃ e ∈ f.trails.entries, e.item.head = v := by
  simp [heads]

/-! ### Taking a trail -/

theorem Layered.pop? {e : Ranked (Trail ν)} {rest : Heap (Trail ν)}
    (h : Layered next start f done k) (hc : Closed next f done)
    (he : f.trails.pop? = some (e, rest)) :
    Layered next start { f with trails := rest } (e.item.head :: done) e.rank := by
  have hp := Heap.perm_of_pop? he
  have hm : ∀ x, x ∈ f.trails.entries ↔ x ∈ rest.entries ∨ x = e :=
    fun x => hp.mem_iff.trans Array.mem_push
  have hin : e ∈ f.trails.entries := (hm e).2 (.inr rfl)
  have hle : ∀ x ∈ f.trails.entries, e.rank ≤ x.rank := fun x hx => h.ordered.rank_le he hx
  have hlow := h.lower e hin
  have hup := h.upper e hin
  -- once no trail of `k` steps is left, every vertex within `k` steps is done
  have hdone : k < e.rank → ∀ t, IsTrail next start t → t.steps ≤ k → t.head ∈ done := by
    intro hlt t ht htk
    rcases (h.mem_reached _).1 (h.within t ht htk) with hd | hd
    · exact hd
    · obtain ⟨x, hx, hxt⟩ := mem_heads.1 hd
      have := h.least x hx t ht hxt.symm
      have := hle x hx
      omega
  have hheads : f.heads.Perm (e.item.head :: heads { f with trails := rest }) := by
    have := (Array.perm_iff_toList_perm.1 hp).map (·.item.head)
    simp only [Array.toList_push, List.map_append] at this
    exact this.trans (List.perm_append_singleton _ _)
  refine ⟨h.ordered.pop? he, fun x hx => h.isTrail x ((hm x).2 (.inl hx)),
    fun x hx => h.rank_eq x ((hm x).2 (.inl hx)), fun x hx => h.least x ((hm x).2 (.inl hx)),
    fun x hx => hle x ((hm x).2 (.inl hx)), fun x hx => ?_, fun w => ?_, fun t ht htk => ?_,
    fun t ht htk => ?_, ?_⟩
  · have := h.upper x ((hm x).2 (.inl hx))
    omega
  · rw [show w ∈ ({ f with trails := rest } : Frontier ν).reached ↔ _ from h.mem_reached w,
      hheads.mem_iff, List.mem_cons, List.mem_cons]
    rw [or_left_comm, or_assoc]
  · by_cases hk : t.steps ≤ k
    · exact h.within t ht hk
    · cases ht with
      | start => simp at hk
      | @extend t v ht hv =>
        rw [Trail.steps_extend] at hk htk
        exact hc _ (hdone (by omega) t ht (by omega)) v hv
  · by_cases hk : t.steps < k
    · exact List.mem_cons_of_mem _ (h.nearer t ht hk)
    · exact List.mem_cons_of_mem _ (hdone (by omega) t ht (by omega))
  · have := ((hheads.append_right done).nodup_iff).1 h.nodup
    refine (List.Perm.nodup_iff ?_).2 this
    exact List.perm_middle

/-! ### The start -/

theorem entries_start : (Frontier.start v).trails.entries = #[⟨0, .start v⟩] := by
  rw [Frontier.start, Heap.push, Heap.lift]
  simp [Heap.empty]

variable [Std.TransOrd ν] [Std.LawfulEqOrd ν]

theorem layered_start : Layered next v (.start v) [] 0 where
  ordered := Heap.ordered_empty.push
  isTrail e he := by
    rw [entries_start] at he
    obtain rfl : e = ⟨0, .start v⟩ := by simpa using he
    exact .start
  rank_eq e he := by
    rw [entries_start] at he
    obtain rfl : e = ⟨0, .start v⟩ := by simpa using he
    rfl
  least e he t _ _ := by
    rw [entries_start] at he
    obtain rfl : e = ⟨0, .start v⟩ := by simpa using he
    exact Nat.zero_le _
  lower e _ := Nat.zero_le _
  upper e he := by
    rw [entries_start] at he
    obtain rfl : e = ⟨0, .start v⟩ := by simpa using he
    exact Nat.zero_le _
  mem_reached w := by
    rw [mem_heads, entries_start]
    simp [Frontier.start, Std.TreeSet.mem_insert]
  within t ht h0 := by
    cases ht with
    | start => simp [Frontier.start, Std.TreeSet.mem_insert]
    | extend ht hv => simp at h0
  nearer t _ h := by omega
  nodup := by simp [heads, entries_start]

/-! ### Continuing a trail -/

theorem mem_reached_discover {x : Ranked (Trail ν)} {w : ν} :
    w ∈ (discover x f v).reached ↔ w ∈ f.reached ∨ w = v := by
  simp only [discover]
  split
  · next h =>
    rw [Std.TreeSet.contains_iff_mem] at h
    exact ⟨.inl, fun hw => hw.elim id (· ▸ h)⟩
  · rw [Std.TreeSet.mem_insert, Std.compare_eq_iff_eq, eq_comm, or_comm]

theorem Layered.discover {x : Ranked (Trail ν)} (h : Layered next start f done x.rank)
    (ht : IsTrail next start x.item) (hx : x.rank = x.item.steps) (hv : v ∈ next x.item.head) :
    Layered next start (discover x f v) done x.rank := by
  simp only [Frontier.discover]
  split
  · exact h
  · next hr =>
    rw [Std.TreeSet.contains_iff_mem] at hr
    have hp : (f.trails.push (x.rank + 1) (x.item.extend v)).entries.Perm
        (f.trails.entries.push ⟨x.rank + 1, x.item.extend v⟩) := Heap.perm_push
    have hm : ∀ e, e ∈ (f.trails.push (x.rank + 1) (x.item.extend v)).entries ↔
        e ∈ f.trails.entries ∨ e = ⟨x.rank + 1, x.item.extend v⟩ :=
      fun e => hp.mem_iff.trans Array.mem_push
    have hnew := mt (h.mem_reached v).2 hr
    refine ⟨h.ordered.push, fun e he => ?_, fun e he => ?_, fun e he => ?_, fun e he => ?_,
      fun e he => ?_, fun w => ?_, fun s hs hsk => ?_, h.nearer, ?_⟩
    · rcases (hm e).1 he with he | rfl
      · exact h.isTrail e he
      · exact ht.extend hv
    · rcases (hm e).1 he with he | rfl
      · exact h.rank_eq e he
      · exact congrArg (· + 1) hx
    · rcases (hm e).1 he with he | rfl
      · exact h.least e he
      · intro s hs hsv
        by_cases hsk : s.steps ≤ x.rank
        · have hw := h.within s hs hsk
          rw [hsv] at hw
          exact absurd hw hr
        · simp only; omega
    · rcases (hm e).1 he with he | rfl
      · exact h.lower e he
      · simp only; omega
    · rcases (hm e).1 he with he | rfl
      · exact h.upper e he
      · simp only; omega
    · rw [mem_heads]
      simp only [hm, Std.TreeSet.mem_insert, Std.compare_eq_iff_eq, h.mem_reached w, mem_heads]
      grind [Trail.head_extend]
    · exact Std.TreeSet.mem_insert.2 (.inr (h.within s hs hsk))
    · have hheads : (heads ⟨f.trails.push (x.rank + 1) (x.item.extend v),
          f.reached.insert v⟩).Perm (v :: f.heads) := by
        have := (Array.perm_iff_toList_perm.1 hp).map (·.item.head)
        simp only [Array.toList_push, List.map_append] at this
        exact this.trans (List.perm_append_singleton _ _)
      refine ((hheads.append_right done).nodup_iff).2 ?_
      simp only [List.cons_append, List.nodup_cons, List.mem_append]
      exact ⟨fun h => hnew h.symm, h.nodup⟩

theorem Layered.foldl_discover {x : Ranked (Trail ν)} (ht : IsTrail next start x.item)
    (hx : x.rank = x.item.steps) (ws : List ν) (hws : ∀ w ∈ ws, w ∈ next x.item.head)
    {f : Frontier ν} (h : Layered next start f done x.rank) :
    Layered next start (ws.foldl (Frontier.discover x) f) done x.rank ∧
      ∀ w, w ∈ (ws.foldl (Frontier.discover x) f).reached ↔ w ∈ f.reached ∨ w ∈ ws := by
  induction ws generalizing f with
  | nil => simp [h]
  | cons w ws ih =>
    have hw := h.discover ht hx (hws w (by simp))
    obtain ⟨hl, hr⟩ := ih (fun y hy => hws y (by simp [hy])) hw
    refine ⟨hl, fun y => ?_⟩
    rw [List.foldl_cons, hr, mem_reached_discover, List.mem_cons, or_assoc]

/-! ### The search -/

variable [DecidableEq ν]

theorem Layered.search_eq_some {fuel : Nat} {t : Trail ν} (h : Layered next start f done k)
    (hc : Closed next f done) (hs : search next goal fuel f = some t) :
    IsTrail next start t ∧ t.head = goal ∧
      ∀ t', IsTrail next start t' → t'.head = goal → t.steps ≤ t'.steps := by
  induction fuel generalizing f done k with
  | zero => simp [search] at hs
  | succ fuel ih =>
    simp only [search] at hs
    cases he : f.trails.pop? with
    | none => simp [he] at hs
    | some p =>
      obtain ⟨e, rest⟩ := p
      have hin : e ∈ f.trails.entries := ((Heap.perm_of_pop? he).mem_iff).2 (by simp)
      simp only [he] at hs
      split at hs
      · next hg =>
        obtain rfl := Option.some.inj hs
        refine ⟨h.isTrail e hin, hg, fun t' ht' hg' => ?_⟩
        rw [← h.rank_eq e hin]
        exact h.least e hin t' ht' (hg'.trans hg.symm)
      · obtain ⟨hl, hr⟩ := (h.pop? hc he).foldl_discover (h.isTrail e hin) (h.rank_eq e hin)
          (next e.item.head) (fun _ => id)
        refine ih hl (fun v hv w hw => (hr w).2 ?_) hs
        rcases List.mem_cons.1 hv with rfl | hv
        · exact .inr hw
        · exact .inl (hc v hv w hw)

/-- In a graph whose reachable vertices are among `vs`, a search that may take as many trails as
there are vertices left arrives if any trail does. -/
theorem Layered.search_ne_none {fuel : Nat} {vs : List ν} {t : Trail ν}
    (h : Layered next start f done k) (hc : Closed next f done) (hg : goal ∉ done)
    (hvs : ∀ t, IsTrail next start t → t.head ∈ vs) (hdone : done ⊆ vs)
    (hfuel : vs.length ≤ done.length + fuel) (ht : IsTrail next start t) (hgoal : t.head = goal) :
    search next goal fuel f ≠ none := by
  induction fuel generalizing f done k with
  | zero =>
    have hnd : done.Nodup := (List.nodup_append.1 h.nodup).2.1
    have hperm := (List.subperm_of_subset hnd hdone).perm_of_length_le hfuel
    exact absurd (hperm.mem_iff.2 (hgoal ▸ hvs t ht)) hg
  | succ fuel ih =>
    simp only [search]
    cases he : f.trails.pop? with
    | none =>
      have hempty : f.heads = [] := by simp [heads, Heap.pop?_eq_none_iff.1 he]
      have hall : ∀ t, IsTrail next start t → t.head ∈ done := by
        intro t ht
        have key : t.head ∈ f.reached := by
          induction ht with
          | start => exact h.within _ .start (Nat.zero_le k)
          | @extend t v ht hv ih =>
            have := (h.mem_reached _).1 ih
            rw [hempty] at this
            exact hc _ (by simpa using this) v hv
        have := (h.mem_reached _).1 key
        rw [hempty] at this
        simpa using this
      exact absurd (hgoal ▸ hall t ht) hg
    | some p =>
      obtain ⟨e, rest⟩ := p
      have hin : e ∈ f.trails.entries := ((Heap.perm_of_pop? he).mem_iff).2 (by simp)
      simp only
      split
      · simp
      · next hne =>
        obtain ⟨hl, hr⟩ := (h.pop? hc he).foldl_discover (h.isTrail e hin) (h.rank_eq e hin)
          (next e.item.head) (fun _ => id)
        refine ih hl (fun v hv w hw => (hr w).2 ?_) ?_ ?_ ?_
        · rcases List.mem_cons.1 hv with rfl | hv
          · exact .inr hw
          · exact .inl (hc v hv w hw)
        · rw [List.mem_cons]
          rintro (rfl | hd)
          · exact hne rfl
          · exact hg hd
        · exact List.cons_subset.2 ⟨hvs _ (h.isTrail e hin), hdone⟩
        · rw [List.length_cons]
          omega

end Frontier

variable [Ord ν] [Std.TransOrd ν] [Std.LawfulEqOrd ν] [DecidableEq ν] {next : ν → List ν}
  {start goal : ν} {size : Nat}

/-- A path that is found is the way of a trail to the goal, and no trail to the goal is shorter. -/
theorem exists_isTrail_of_shortestPath? {path : List ν}
    (h : shortestPath? next size start goal = some path) :
    ∃ t, IsTrail next start t ∧ t.head = goal ∧ t.vertices = path ∧
      ∀ t', IsTrail next start t' → t'.head = goal → t.steps ≤ t'.steps := by
  obtain ⟨t, ht, rfl⟩ := Option.map_eq_some_iff.1 h
  obtain ⟨h₁, h₂, h₃⟩ := Frontier.layered_start.search_eq_some (fun _ hv => by cases hv) ht
  exact ⟨t, h₁, h₂, rfl, h₃⟩

/-- In a graph of at most `size` vertices, a path is found if some trail leads to the goal. -/
theorem shortestPath?_ne_none {vs : List ν} {t : Trail ν}
    (hvs : ∀ t, IsTrail next start t → t.head ∈ vs) (hsize : vs.length ≤ size)
    (ht : IsTrail next start t) (hgoal : t.head = goal) :
    shortestPath? next size start goal ≠ none := by
  have := Frontier.layered_start.search_ne_none (fun _ hv => by cases hv) (by simp) hvs (by simp)
    (by simpa using hsize) ht hgoal
  simpa [shortestPath?] using this

end LatticeSurgery
