import LatticeSurgery.Proofs.Grid.Distance

/-!
# Walks along a row

A walk steps from cell to adjacent cell. One that stays in a row cannot pass a cell without a visit,
so on its way from `a` to `b` it visits every cell between them (`mem_of_isChain`). It takes at least
as many steps as there are columns to cross, and if it takes no more it is the straight line
(`eq_between_of_isChain`), whose cells are listed by `Cell.between`.
-/

namespace LatticeSurgery

namespace Cell

variable {a b c d : Cell} {path : List Cell}

/-- How many columns the cells are apart. -/
def columnsApart (a b : Cell) : Nat := (a.col.val - b.col.val).natAbs

/-- The cells strictly between two cells of a row, from the first to the second. -/
def between (a b : Cell) : List Cell :=
  (List.range (a.columnsApart b - 1)).map fun k : Nat =>
    ⟨a.row, .clamp (if a.col < b.col then a.col.val + (k + 1) else a.col.val - (k + 1))⟩

@[simp] theorem length_between : (a.between b).length = a.columnsApart b - 1 := by
  simp [between]

theorem mem_between :
    c ∈ a.between b ↔ c.row = a.row ∧ (a.col < c.col ∧ c.col < b.col ∨
      b.col < c.col ∧ c.col < a.col) := by
  have := a.col.le_val
  have := a.col.val_le
  have := b.col.le_val
  have := b.col.val_le
  simp only [between, List.mem_map, List.mem_range, columnsApart, Coord.lt_iff]
  constructor
  · intro hmem
    obtain ⟨k, hk, rfl⟩ := hmem
    refine ⟨rfl, ?_⟩
    simp only [Coord.val_clamp]
    split_ifs <;> omega
  · intro hmem
    obtain ⟨hrow, hcol⟩ := hmem
    refine ⟨c.columnsApart a - 1, ?_, Cell.ext hrow.symm (Coord.ext ?_)⟩
    · simp only [columnsApart]
      omega
    · simp only [Coord.val_clamp, columnsApart]
      split_ifs <;> omega

theorem between_eq_cons (hrow : a.row = c.row) (hstep : a.columnsApart c = 1)
    (hgap : a.columnsApart b = c.columnsApart b + 1) (hne : c.columnsApart b ≠ 0) :
    a.between b = c :: c.between b := by
  have := c.col.le_val
  have := c.col.val_le
  obtain ⟨n, hn⟩ : ∃ n, c.columnsApart b = n + 1 := Nat.exists_eq_succ_of_ne_zero hne
  have hdir : a.col < b.col ↔ c.col < b.col := by
    simp only [Coord.lt_iff, columnsApart] at *
    omega
  unfold between
  rw [hgap, hn, Nat.add_sub_cancel, Nat.add_sub_cancel, List.range_succ_eq_map, List.map_cons,
    List.map_map]
  congr 1
  · refine Cell.ext hrow (Coord.ext ?_)
    simp only [Coord.val_clamp, Coord.lt_iff, columnsApart] at *
    split_ifs <;> omega
  · apply List.map_congr_left
    intro k hk
    refine Cell.ext hrow (congrArg Coord.clamp ?_)
    simp only [hdir, Coord.lt_iff, columnsApart] at *
    split_ifs <;> omega

/-! ### Walks -/

theorem columnsApart_le_of_isChain (h : (a :: path ++ [b]).IsChain Adjacent) :
    a.columnsApart b ≤ path.length + 1 :=
  Nat.le_trans (Nat.le_add_left _ _) (distance_of_isChain h).1

theorem columnsApart_eq_one (h : a.Adjacent b) (hrow : a.row = b.row) : a.columnsApart b = 1 := by
  unfold Adjacent columnsApart at *
  rw [hrow] at h
  omega

theorem columnsApart_ne_zero (hrow : a.row = b.row) (hne : a ≠ b) : a.columnsApart b ≠ 0 := by
  intro h
  refine hne (Cell.ext hrow (Coord.ext ?_))
  unfold columnsApart at h
  omega

theorem eq_between_of_isChain (h : (a :: path ++ [b]).IsChain Adjacent)
    (hrow : ∀ c ∈ path, c.row = a.row) (hlen : path.length + 1 ≤ a.columnsApart b) :
    path = a.between b := by
  induction path generalizing a with
  | nil =>
    have hle := columnsApart_le_of_isChain h
    symm
    apply List.eq_nil_of_length_eq_zero
    rw [length_between]
    simp only [List.length_nil] at hle
    omega
  | cons c path ih =>
    rw [List.cons_append, List.cons_append, List.isChain_cons_cons] at h
    have hac : a.row = c.row := (hrow c (by simp)).symm
    have hstep := columnsApart_eq_one h.1 hac
    have hle := columnsApart_le_of_isChain h.2
    rw [List.length_cons] at hlen
    -- the rest of the walk is as short as can be too, so the step was one towards `b`
    have hgap : a.columnsApart b = c.columnsApart b + 1 := by
      unfold columnsApart at *
      omega
    have hrest := ih h.2 (fun d hd => (hrow d (by simp [hd])).trans hac) (by omega)
    rw [between_eq_cons hac hstep hgap (by omega), ← hrest]

theorem mem_of_isChain (h : (a :: path ++ [b]).IsChain Adjacent) (hrow : ∀ c ∈ path, c.row = a.row)
    (hd : d ∈ a.between b) : d ∈ path := by
  induction path generalizing a with
  | nil =>
    have hle := columnsApart_le_of_isChain h
    have hlt := List.length_pos_of_mem hd
    rw [length_between] at hlt
    simp only [List.length_nil] at hle
    omega
  | cons c path ih =>
    rw [List.cons_append, List.cons_append, List.isChain_cons_cons] at h
    have hac : a.row = c.row := (hrow c (by simp)).symm
    have hstep := columnsApart_eq_one h.1 hac
    by_cases hdc : d = c
    · rw [hdc]
      exact List.mem_cons_self
    · -- the step from `a` did not get past `d`
      refine List.mem_cons_of_mem c (ih h.2 (fun e he => (hrow e (by simp [he])).trans hac) ?_)
      rw [mem_between] at hd ⊢
      refine ⟨hd.1.trans hac, ?_⟩
      have hcol : d.col.val ≠ c.col.val := fun heq =>
        hdc (Cell.ext (hd.1.trans hac) (Coord.ext heq))
      have hbetween := hd.2
      simp only [Coord.lt_iff, columnsApart] at *
      omega

theorem isChain_between (hrow : a.row = b.row) (hne : a ≠ b) :
    (a :: a.between b ++ [b]).IsChain Adjacent := by
  obtain ⟨n, hn⟩ := Nat.exists_eq_succ_of_ne_zero (columnsApart_ne_zero hrow hne)
  clear hne
  -- by induction on the columns that are left to cross
  induction n generalizing a with
  | zero =>
    have hnil : a.between b = [] := List.eq_nil_of_length_eq_zero (by rw [length_between, hn])
    have hab : a.Adjacent b := by
      unfold Adjacent columnsApart at *
      rw [hrow]
      omega
    rw [hnil]
    simpa using hab
  | succ n ih =>
    have := b.col.le_val
    have := b.col.val_le
    have := a.col.le_val
    have := a.col.val_le
    obtain ⟨c, hrowc, hstep, hgap⟩ : ∃ c : Cell, a.row = c.row ∧ a.columnsApart c = 1 ∧
        a.columnsApart b = c.columnsApart b + 1 := by
      refine ⟨⟨a.row, .clamp (if a.col < b.col then a.col.val + 1 else a.col.val - 1)⟩, rfl, ?_, ?_⟩
      all_goals
        simp only [columnsApart, Coord.val_clamp, Coord.lt_iff] at *
        split_ifs <;> omega
    rw [between_eq_cons hrowc hstep hgap (by omega), List.cons_append, List.cons_append,
      List.isChain_cons_cons]
    refine ⟨?_, ih (hrowc.symm.trans hrow) (by omega)⟩
    unfold Adjacent columnsApart at *
    rw [hrowc]
    omega

end Cell

end LatticeSurgery
