import LatticeSurgery.Search.Heap

/-!
# Order and contents of heaps

A heap is ordered when no entry has a smaller rank than its parent; the top entry then has the
least rank of all. Both moves of a heap swap an entry along one path. While an entry moves, all
pairs of parent and child that it does not belong to stay in order, and so do the pairs that
closing the gap around it would make (`OrderedAway`). An entry at the bottom is in order with the
children it does not have, and lifting it keeps it in order with its children until it is in order
with its parent too.

`Heap.push` and `Heap.pop?` keep the order (`Ordered.push`, `Ordered.pop?`), neither loses or
invents an entry (`perm_push`, `perm_of_pop?`), and what is taken out has least rank
(`Ordered.rank_le`).
-/

namespace LatticeSurgery

namespace Heap

variable {α : Type} {d : Array (Ranked α)} {pos i j : Nat}

/-- The rank at a position, and zero past the end. -/
def rankAt (d : Array (Ranked α)) (i : Nat) : Nat := (d[i]?.map Ranked.rank).getD 0

theorem rankAt_eq (h : i < d.size) : rankAt d i = d[i].rank := by
  simp [rankAt, h]

theorem rankAt_swap (hi : i < d.size) (hj : j < d.size) (k : Nat) :
    rankAt (d.swap i j) k =
      if k = i then rankAt d j else if k = j then rankAt d i else rankAt d k := by
  by_cases hk : k < d.size
  · rw [rankAt_eq (by simpa using hk), Array.getElem_swap]
    split
    · rw [rankAt_eq hj]
    · split
      · rw [rankAt_eq hi]
      · rw [rankAt_eq hk]
  · have hi' : k ≠ i := by omega
    have hj' : k ≠ j := by omega
    simp [rankAt, hk, hi', hj']

/-- No entry has a smaller rank than its parent. -/
def IsOrdered (d : Array (Ranked α)) : Prop :=
  ∀ i, 0 < i → i < d.size → rankAt d ((i - 1) / 2) ≤ rankAt d i

/-- The pairs of parent and child without the entry at `pos` are in order, and so are its parent and
its children. -/
structure OrderedAway (d : Array (Ranked α)) (pos : Nat) : Prop where
  away : ∀ i, 0 < i → i < d.size → i ≠ pos → (i - 1) / 2 ≠ pos → rankAt d ((i - 1) / 2) ≤ rankAt d i
  across : ∀ i, 0 < i → i < d.size → (i - 1) / 2 = pos → 0 < pos →
    rankAt d ((pos - 1) / 2) ≤ rankAt d i

/-- The entry at `pos` is in order with its children. -/
def AboveChildren (d : Array (Ranked α)) (pos : Nat) : Prop :=
  ∀ i, 0 < i → i < d.size → (i - 1) / 2 = pos → rankAt d pos ≤ rankAt d i

/-! ### Contents -/

theorem perm_lift (d : Array (Ranked α)) (pos : Nat) : (lift d pos).Perm d := by
  fun_induction lift d pos with
  | case1 d pos h hlt ih => exact ih.trans (Array.swap_perm _ _)
  | case2 => exact .refl _
  | case3 => exact .refl _

theorem perm_sink (d : Array (Ranked α)) (pos : Nat) : (sink d pos).1.Perm d := by
  fun_induction sink d pos with
  | case1 d pos h hle ih => exact ih.trans (Array.swap_perm _ _)
  | case2 d pos h hle ih => exact ih.trans (Array.swap_perm _ _)
  | case3 => exact Array.swap_perm _ _
  | case4 => exact .refl _

/-! ### Order -/

theorem OrderedAway.swap_parent (h : OrderedAway d pos) (hc : AboveChildren d pos) (hpos : 0 < pos)
    (hlt : pos < d.size) (hr : rankAt d pos < rankAt d ((pos - 1) / 2)) :
    OrderedAway (d.swap pos ((pos - 1) / 2)) ((pos - 1) / 2) ∧
      AboveChildren (d.swap pos ((pos - 1) / 2)) ((pos - 1) / 2) := by
  have hp : (pos - 1) / 2 < d.size := by omega
  have up : 0 < (pos - 1) / 2 → rankAt d (((pos - 1) / 2 - 1) / 2) ≤ rankAt d ((pos - 1) / 2) :=
    fun h0 => h.away _ h0 hp (by omega) (by omega)
  refine ⟨⟨fun i h0 hi hne hpar => ?_, fun i h0 hi hpar hp0 => ?_⟩, fun i h0 hi hpar => ?_⟩
  all_goals
    rw [Array.size_swap] at hi
    simp only [rankAt_swap hlt hp]
    have hout := h.away i h0 hi
    have hin := h.across i h0 hi
    have hbelow := hc i h0 hi
    grind

theorem OrderedAway.lift (h : OrderedAway d pos) (hc : AboveChildren d pos) :
    IsOrdered (Heap.lift d pos) := by
  fun_induction Heap.lift d pos with
  | case1 d pos hpos hlt ih =>
    have hr : rankAt d pos < rankAt d ((pos - 1) / 2) := by
      rwa [rankAt_eq hpos.2, rankAt_eq (by omega)]
    have := h.swap_parent hc hpos.1 hpos.2 hr
    exact ih this.1 this.2
  | case2 d pos hpos hlt =>
    intro i h0 hi
    by_cases hi' : i = pos
    · subst hi'
      rw [rankAt_eq hi, rankAt_eq (by omega)]
      omega
    · by_cases hp : (i - 1) / 2 = pos
      · rw [hp]; exact hc i h0 hi hp
      · exact h.away i h0 hi hi' hp
  | case3 d pos hpos =>
    intro i h0 hi
    by_cases hp : (i - 1) / 2 = pos
    · rw [hp]; exact hc i h0 hi hp
    · exact h.away i h0 hi (by omega) hp

/-- Moving a child of least rank up past the entry at `pos` keeps the rest in order. -/
theorem OrderedAway.swap_child {c : Nat} (h : OrderedAway d pos) (hlt : pos < d.size)
    (hc0 : 0 < c) (hc : c < d.size) (hpar : (c - 1) / 2 = pos)
    (hmin : ∀ i, 0 < i → i < d.size → (i - 1) / 2 = pos → rankAt d c ≤ rankAt d i) :
    OrderedAway (d.swap pos c) c := by
  refine ⟨fun i h0 hi hne hp => ?_, fun i h0 hi hp hp0 => ?_⟩
  all_goals
    rw [Array.size_swap] at hi
    simp only [rankAt_swap hlt hc]
    have hout := h.away i h0 hi
    have hin := h.across i h0 hi
    have hleast := hmin i h0 hi
    have hup := h.across c hc0 hc hpar
    grind

theorem OrderedAway.sink (h : OrderedAway d pos) (hlt : pos < d.size) :
    OrderedAway (Heap.sink d pos).1 (Heap.sink d pos).2 ∧
      AboveChildren (Heap.sink d pos).1 (Heap.sink d pos).2 := by
  fun_induction Heap.sink d pos with
  | case1 d pos hr hle ih =>
    refine ih (h.swap_child hlt (by omega) hr (by omega) fun i h0 hi hp => ?_) (by simpa using hr)
    have hle : rankAt d (2 * pos + 2) ≤ rankAt d (2 * pos + 1) := by
      rwa [rankAt_eq hr, rankAt_eq (by omega)]
    obtain rfl | rfl : i = 2 * pos + 1 ∨ i = 2 * pos + 2 := by omega
    · exact hle
    · exact Nat.le_refl _
  | case2 d pos hr hle ih =>
    refine ih (h.swap_child hlt (by omega) (by omega) (by omega) fun i h0 hi hp => ?_)
      (by simp; omega)
    have hle : ¬ rankAt d (2 * pos + 2) ≤ rankAt d (2 * pos + 1) := by
      rwa [rankAt_eq hr, rankAt_eq (by omega)]
    obtain rfl | rfl : i = 2 * pos + 1 ∨ i = 2 * pos + 2 := by omega
    · exact Nat.le_refl _
    · omega
  | case3 d pos hr hl =>
    refine ⟨h.swap_child hlt (by omega) hl (by omega) fun i h0 hi hp => ?_, fun i h0 hi hp => ?_⟩
    · obtain rfl : i = 2 * pos + 1 := by omega
      exact Nat.le_refl _
    · rw [Array.size_swap] at hi
      omega
  | case4 d pos hr hl =>
    exact ⟨h, fun i h0 hi hp => by simp only at hi hp; omega⟩

theorem IsOrdered.rankAt_zero_le (h : IsOrdered d) : ∀ i, i < d.size → rankAt d 0 ≤ rankAt d i := by
  intro i
  induction i using Nat.strongRecOn with
  | ind i ih =>
    intro hi
    rcases Nat.eq_zero_or_pos i with rfl | h0
    · exact Nat.le_refl _
    · exact Nat.le_trans (ih ((i - 1) / 2) (by omega) (by omega)) (h i h0 hi)

/-! ### The queue -/

/-- The entries are in order. -/
def Ordered (h : Heap α) : Prop := IsOrdered h.entries

variable {h h' : Heap α} {e : Ranked α} {rank : Nat} {item : α}

theorem ordered_empty : (empty : Heap α).Ordered := fun i _ hi => by simp [empty] at hi

theorem perm_push : (h.push rank item).entries.Perm (h.entries.push ⟨rank, item⟩) := perm_lift _ _

theorem rankAt_push (hi : i < d.size) : rankAt (d.push e) i = rankAt d i := by
  rw [rankAt_eq (by simp; omega), rankAt_eq hi, Array.getElem_push_lt hi]

theorem Ordered.push (ho : h.Ordered) : (h.push rank item).Ordered := by
  refine OrderedAway.lift ⟨fun i h0 hi hne _ => ?_, fun i h0 hi hp _ => ?_⟩ fun i h0 hi hp => ?_
  all_goals simp only [Array.size_push] at hi
  · rw [rankAt_push (by omega), rankAt_push (by omega)]
    exact ho i h0 (by omega)
  · omega
  · omega

theorem pop?_eq_none_iff : h.pop? = none ↔ h.entries = #[] := by
  simp only [pop?]
  cases hb : h.entries.back? with
  | none => simpa using hb
  | some last =>
    have : h.entries ≠ #[] := by rintro he; simp [he] at hb
    simp only [this, iff_false]
    split <;> simp

/-- Taking the last entry off and putting it in the place of the top one loses the top one only. -/
theorem perm_set_zero {last : Ranked α} (hd : 0 < d.size) :
    (d.push last).Perm ((d.set 0 last).push d[0]) := by
  obtain ⟨l⟩ := d
  cases l with
  | nil => simp at hd
  | cons a l =>
    simp only [List.push_toArray, List.set_toArray, List.set_cons_zero, List.getElem_toArray,
      List.getElem_cons_zero, Array.perm_iff_toList_perm, List.cons_append]
    exact ((List.perm_append_singleton last l).cons a).trans
      ((List.Perm.swap last a l).trans ((List.perm_append_singleton a l).symm.cons last))

theorem pop?_push {last : Ranked α} :
    pop? ⟨d.push last⟩ =
      if hd : 0 < d.size then
        some (d[0], ⟨Heap.lift (Heap.sink (d.set 0 last) 0).1 (Heap.sink (d.set 0 last) 0).2⟩)
      else some (last, ⟨d⟩) := by
  simp [pop?]

theorem exists_push_of_pop? (he : h.pop? = some (e, h')) :
    ∃ (d : Array (Ranked α)) (last : Ranked α), h = ⟨d.push last⟩ := by
  have hne : h.entries ≠ #[] := fun h0 => by simp [pop?_eq_none_iff.2 h0] at he
  obtain ⟨d, last, hd⟩ := Array.eq_push_of_size_ne_zero (by simpa using hne : h.entries.size ≠ 0)
  exact ⟨d, last, by rw [← hd]⟩

theorem perm_of_pop? (he : h.pop? = some (e, h')) : h.entries.Perm (h'.entries.push e) := by
  obtain ⟨d, last, rfl⟩ := exists_push_of_pop? he
  rw [pop?_push] at he
  split at he
  · next hd =>
    obtain ⟨rfl, rfl⟩ := Prod.mk.inj (Option.some.inj he)
    exact (perm_set_zero hd).trans (((perm_lift _ _).trans (perm_sink _ _)).symm.push d[0])
  · obtain ⟨rfl, rfl⟩ := Prod.mk.inj (Option.some.inj he)
    exact .refl _

theorem rankAt_set_zero {last : Ranked α} (hd : 0 < d.size) (h0 : 0 < i) :
    rankAt (d.set 0 last) i = rankAt d i := by
  simp only [rankAt]
  rw [Array.getElem?_set_ne hd (by omega)]

theorem Ordered.pop? (ho : h.Ordered) (he : h.pop? = some (e, h')) : h'.Ordered := by
  obtain ⟨d, last, rfl⟩ := exists_push_of_pop? he
  rw [pop?_push] at he
  split at he
  · next hd =>
    obtain ⟨-, rfl⟩ := Prod.mk.inj (Option.some.inj he)
    have away : OrderedAway (d.set 0 last) 0 := by
      refine ⟨fun i h0 hi _ hp => ?_, fun i _ _ _ h0 => by omega⟩
      rw [Array.size_set] at hi
      rw [rankAt_set_zero hd (by omega), rankAt_set_zero hd h0]
      have := ho i h0 (by simp; omega)
      rwa [rankAt_push (by omega), rankAt_push hi] at this
    have := away.sink (by simpa using hd)
    exact this.1.lift this.2
  · next hd =>
    obtain ⟨-, rfl⟩ := Prod.mk.inj (Option.some.inj he)
    exact fun i h0 hi => absurd (Nat.lt_trans h0 hi) hd

theorem Ordered.rank_le (ho : h.Ordered) (he : h.pop? = some (e, h')) {x : Ranked α}
    (hx : x ∈ h.entries) : e.rank ≤ x.rank := by
  obtain ⟨d, last, rfl⟩ := exists_push_of_pop? he
  obtain ⟨i, hi, rfl⟩ := Array.mem_iff_getElem.1 hx
  rw [← rankAt_eq hi]
  refine Nat.le_trans ?_ (ho.rankAt_zero_le i hi)
  rw [pop?_push] at he
  split at he
  · next hd =>
    obtain ⟨rfl, -⟩ := Prod.mk.inj (Option.some.inj he)
    exact Nat.le_of_eq ((rankAt_push hd).trans (rankAt_eq hd)).symm
  · next hd =>
    obtain ⟨rfl, -⟩ := Prod.mk.inj (Option.some.inj he)
    have : d = #[] := Array.eq_empty_of_size_eq_zero (by omega)
    subst this
    exact Nat.le_refl _

end Heap

end LatticeSurgery
