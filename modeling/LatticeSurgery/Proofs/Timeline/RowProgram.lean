import LatticeSurgery.Proofs.Layout.Row
import LatticeSurgery.Proofs.Routing.OneRow
import LatticeSurgery.Proofs.Timeline.Failure

/-!
# Programs on their own row

By default a program gets a row of square patches, one for each declared qubit and in the order of
their declaration. All that it can then measure jointly is Z on two qubits with nobody left between
them: X needs an edge above or below a patch, where there is no row to route in, and a channel along
the row is blocked by every patch that has not been measured out.

Columns grow with the position up to the end of their range, where they pile up; a row that is too
long for it does not pass the audit at the start. So in a program that compiles at all, they grow
strictly (`col_lt_col`).
-/

namespace LatticeSurgery

namespace Program

variable {p : Program} {t : Timeline} {q : PatchId} {i j k : Nat}

/-- The patch of the qubit at a position of the declaration. -/
def patchAt (p : Program) (k : Nat) (q : PatchId) : Patch :=
  { Patch.square (p.defaultLayout.cellOf k) with id := some q }

/-- Every qubit that is declared between two positions is measured out by the program. -/
def ClearedBetween (p : Program) (i j : Nat) : Prop :=
  ∀ k q, p.qubits[k]? = some q → (i < k ∧ k < j ∨ j < k ∧ k < i) → .measure q ∈ p.instructions

theorem spacing_nonneg : 0 ≤ p.defaultLayout.spacing.val := by
  show (0 : Int) ≤ 2
  decide

/-! ### The first slice -/

theorem mem_qubits_start_iff (h : Timeline.start p.defaultLayout.toLayout p.qubits = .ok t)
    {patch : Patch} :
    patch ∈ t.now.qubits ↔ ∃ k q, p.qubits[k]? = some q ∧ patch = p.patchAt k q := by
  obtain ⟨-, -, -, ids, -, rfl⟩ := Timeline.start_eq_ok_iff.1 h
  show patch ∈ ((Slice.ofLayout p.defaultLayout.toLayout).assignIds _).qubits ↔ _
  rw [Slice.qubits_assignIds, List.mem_iff_getElem?]
  show (∃ k, ((p.defaultLayout.cells.map Patch.square).mapIdx _)[k]? = _) ↔ _
  simp only [List.getElem?_mapIdx, List.getElem?_map]
  apply exists_congr
  intro k
  rcases Nat.lt_or_ge k p.qubits.length with hk | hk
  · rw [RowLayout.cells_getElem? (l := p.defaultLayout) hk, List.getElem?_eq_getElem hk]
    simp [patchAt, eq_comm]
  · have hcells : p.defaultLayout.cells[k]? = none := by
      rw [List.getElem?_eq_none_iff, RowLayout.length_cells]
      exact hk
    rw [hcells, List.getElem?_eq_none_iff.2 hk]
    simp

theorem col_lt_col (h : Timeline.start p.defaultLayout.toLayout p.qubits = .ok t) (hij : i < j)
    (hj : j < p.qubits.length) :
    (p.defaultLayout.cellOf i).col < (p.defaultLayout.cellOf j).col := by
  obtain ⟨-, -, haudit, -⟩ := Timeline.start_eq_ok_iff.1 h
  rw [Slice.audit_eq_ok_iff, RowLayout.patchCells_ofLayout_toLayout] at haudit
  have hle := RowLayout.col_cellOf_le (l := p.defaultLayout) spacing_nonneg (Nat.le_of_lt hij)
  have hne : (p.defaultLayout.cellOf i).col.val ≠ (p.defaultLayout.cellOf j).col.val := by
    intro heq
    have hcell : p.defaultLayout.cellOf i = p.defaultLayout.cellOf j :=
      Cell.ext rfl (Coord.ext heq)
    have hinj := List.inj_on_of_nodup_map haudit (List.mem_range.2 (Nat.lt_trans hij hj))
      (List.mem_range.2 hj) hcell
    omega
  rw [Coord.le_iff] at hle
  rw [Coord.lt_iff]
  omega

theorem cellOf_ne_cellOf (h : Timeline.start p.defaultLayout.toLayout p.qubits = .ok t)
    (hi : i < p.qubits.length) (hj : j < p.qubits.length) (hij : i ≠ j) :
    p.defaultLayout.cellOf i ≠ p.defaultLayout.cellOf j := by
  intro heq
  have hcol := congrArg (fun c : Cell => c.col.val) heq
  rcases Nat.lt_or_gt_of_ne hij with hlt | hlt
  · exact absurd hcol (Int.ne_of_lt (col_lt_col h hlt hj))
  · exact absurd hcol.symm (Int.ne_of_lt (col_lt_col h hlt hi))

/-! ### The slice of a joint measurement -/

theorem mem_survivors_iff (h : Timeline.start p.defaultLayout.toLayout p.qubits = .ok t)
    {patch : Patch} :
    patch ∈ (t.now.survivors p.instructions).qubits ↔
      ∃ k q, p.qubits[k]? = some q ∧ .measure q ∉ p.instructions ∧ patch = p.patchAt k q := by
  show patch ∈ (t.now.qubits.filter _).map _ ↔ _
  rw [List.mem_map]
  constructor
  · intro hmem
    obtain ⟨r, hr, rfl⟩ := hmem
    obtain ⟨hr, hsurvives⟩ := List.mem_filter.1 hr
    obtain ⟨k, q, hk, rfl⟩ := (mem_qubits_start_iff h).1 hr
    exact ⟨k, q, hk, (Patch.survives_iff.1 hsurvives).2 q rfl, rfl⟩
  · intro hmem
    obtain ⟨k, q, hk, hlive, rfl⟩ := hmem
    refine ⟨p.patchAt k q, List.mem_filter.2 ⟨(mem_qubits_start_iff h).2 ⟨k, q, hk, rfl⟩, ?_⟩, rfl⟩
    refine Patch.survives_iff.2 ⟨Activity.noConfusion, fun id hid => ?_⟩
    cases hid
    exact hlive

theorem mem_patchCells_iff (h : Timeline.start p.defaultLayout.toLayout p.qubits = .ok t) {c : Cell} :
    c ∈ (t.now.survivors p.instructions).patchCells ↔
      ∃ k q, p.qubits[k]? = some q ∧ .measure q ∉ p.instructions ∧
        c = p.defaultLayout.cellOf k := by
  show c ∈ ((t.now.survivors p.instructions).qubits ++ []).flatMap Patch.cells ↔ _
  rw [List.append_nil, List.mem_flatMap]
  constructor
  · intro hmem
    obtain ⟨patch, hpatch, hc⟩ := hmem
    obtain ⟨k, q, hk, hlive, rfl⟩ := (mem_survivors_iff h).1 hpatch
    exact ⟨k, q, hk, hlive, List.mem_singleton.1 hc⟩
  · intro hmem
    obtain ⟨k, q, hk, hlive, rfl⟩ := hmem
    exact ⟨p.patchAt k q, (mem_survivors_iff h).2 ⟨k, q, hk, hlive, rfl⟩, List.mem_singleton_self _⟩

theorem oneRow_survivors (h : Timeline.start p.defaultLayout.toLayout p.qubits = .ok t) :
    (t.now.survivors p.instructions).OneRow where
  row_eq c hc := by
    obtain ⟨k, q, -, -, rfl⟩ := (mem_patchCells_iff h).1 hc
    rfl
  col_nonneg c hc := by
    obtain ⟨k, q, -, -, rfl⟩ := (mem_patchCells_iff h).1 hc
    exact RowLayout.col_cellOf_nonneg spacing_nonneg
  noChannels := rfl
  noReserved := by
    obtain ⟨-, -, -, ids, -, rfl⟩ := Timeline.start_eq_ok_iff.1 h
    rfl

theorem tile?_survivors (h : Timeline.start p.defaultLayout.toLayout p.qubits = .ok t)
    (hk : p.qubits[k]? = some q) (hlive : .measure q ∉ p.instructions) :
    (t.now.survivors p.instructions).tile? q =
      some (.ofKinds (p.defaultLayout.cellOf k) .rough .smooth) := by
  obtain ⟨-, hids, hnd⟩ := Timeline.ids_start h
  rw [← hids] at hnd
  have hfind : (t.now.survivors p.instructions).qubits.find? (·.id = some q) =
      some (p.patchAt k q) :=
    (Slice.find?_eq_some_iff_of_nodup (hnd.sublist Slice.ids_survivors_sublist)).2
      ⟨(mem_survivors_iff h).2 ⟨k, q, hk, hlive, rfl⟩, rfl⟩
  unfold Slice.tile?
  rw [hfind]
  rfl

theorem clearBetween_iff (h : Timeline.start p.defaultLayout.toLayout p.qubits = .ok t)
    (hi : i < p.qubits.length) (hj : j < p.qubits.length) :
    (t.now.survivors p.instructions).ClearBetween (p.defaultLayout.cellOf i)
      (p.defaultLayout.cellOf j) ↔ p.ClearedBetween i j := by
  unfold Slice.ClearBetween ClearedBetween
  simp only [Cell.mem_between]
  constructor
  · intro hclear k q hk hbetween
    by_contra hlive
    have hlt := (List.getElem?_eq_some_iff.1 hk).1
    refine hclear (p.defaultLayout.cellOf k) ⟨rfl, ?_⟩ ((mem_patchCells_iff h).2
      ⟨k, q, hk, hlive, rfl⟩)
    rcases hbetween with ⟨h1, h2⟩ | ⟨h1, h2⟩
    · exact .inl ⟨col_lt_col h h1 hlt, col_lt_col h h2 hj⟩
    · exact .inr ⟨col_lt_col h h1 hlt, col_lt_col h h2 hi⟩
  · intro hcleared c hc hmem
    obtain ⟨k, q, hk, hlive, rfl⟩ := (mem_patchCells_iff h).1 hmem
    -- columns grow with the position, so the patch was declared between the two
    have hpos : ∀ {m n : Nat},
        (p.defaultLayout.cellOf m).col < (p.defaultLayout.cellOf n).col → m < n := by
      intro m n hlt
      by_contra hnot
      have hle := RowLayout.col_cellOf_le (l := p.defaultLayout) spacing_nonneg (Nat.not_lt.1 hnot)
      rw [Coord.le_iff] at hle
      rw [Coord.lt_iff] at hlt
      omega
    refine hlive (hcleared k q hk ?_)
    rcases hc.2 with ⟨h1, h2⟩ | ⟨h1, h2⟩
    · exact .inl ⟨hpos h1, hpos h2⟩
    · exact .inr ⟨hpos h1, hpos h2⟩

/-! ### What can be measured jointly -/

theorem step_joint {o : Observable} {a b : PatchId} {opA opB : Pauli} (h : p.compile = .ok t)
    (ho : o.factors = [(a, opA), (b, opB)]) (hopA : opA = .x ∨ opA = .z)
    (hopB : opB = .x ∨ opB = .z) (hi : p.qubits[i]? = some a) (hj : p.qubits[j]? = some b)
    (ha : .measure a ∉ p.instructions) (hb : .measure b ∉ p.instructions) :
    (opA = .z ∧ opB = .z ∧ p.ClearedBetween i j → ∃ u region, t.step (.joint o) = .ok u ∧
      u.now.channels = [region] ∧
      (u.now.tile? a).map Tile.cell = some (p.defaultLayout.cellOf i) ∧
      (u.now.tile? b).map Tile.cell = some (p.defaultLayout.cellOf j) ∧
      region.cells = (p.defaultLayout.cellOf i).between (p.defaultLayout.cellOf j)) ∧
    (¬ (opA = .z ∧ opB = .z ∧ p.ClearedBetween i j) →
      t.step (.joint o) = .error (.noRoute a b)) := by
  obtain ⟨start, hstart, hunrolled⟩ := Timeline.unrolled_of_compileOn h
  have hilt := (List.getElem?_eq_some_iff.1 hi).1
  have hjlt := (List.getElem?_eq_some_iff.1 hj).1
  have hab : a ≠ b := by
    have hincreasing := o.increasing
    rw [ho, List.pairwise_pair] at hincreasing
    intro heq
    exact PatchId.lt_irrefl b (heq ▸ hincreasing)
  have hij : i ≠ j := by
    intro heq
    rw [heq, hj] at hi
    exact hab (Option.some.inj hi).symm
  have htileA := tile?_survivors hstart hi ha
  have htileB := tile?_survivors hstart hj hb
  have hroute := Slice.route_of_oneRow (oneRow_survivors hstart) hab htileA htileB
    (cellOf_ne_cellOf hstart hilt hjlt hij) hopA hopB
  rw [clearBetween_iff hstart hilt hjlt] at hroute
  constructor
  · intro hclear
    obtain ⟨region, hregion, hline⟩ := hroute.1 hclear
    have hperform : t.now.next.perform (.joint o) =
        .ok ((start.now.survivors p.instructions).addChannel region) := by
      rw [hunrolled.next_eq]
      exact Slice.measureJointly_eq ho hregion
    refine ⟨_, region, Timeline.step_eq_ok_iff.2 ⟨_, hperform, rfl⟩, rfl, ?_, ?_, hline⟩
    · exact congrArg (Option.map Tile.cell) htileA
    · exact congrArg (Option.map Tile.cell) htileB
  · intro hnot
    rw [Timeline.step_eq_error_iff, hunrolled.next_eq]
    exact Slice.measureJointly_eq ho (hroute.2 hnot)

/-- **Joint measurements in a row.** After a program that compiles on its own row, a joint measurement
of X or Z on two live qubits compiles exactly when it is Z on both and every qubit declared between
them has been measured out. Its channel then consists of the cells of the row between the two patches,
from the smaller id to the larger. Otherwise there is no route, whatever follows. -/
theorem compile_joint {o : Observable} {a b : PatchId} {opA opB : Pauli} (h : p.compile = .ok t)
    (ho : o.factors = [(a, opA), (b, opB)]) (hopA : opA = .x ∨ opA = .z)
    (hopB : opB = .x ∨ opB = .z) (hi : p.qubits[i]? = some a) (hj : p.qubits[j]? = some b)
    (ha : .measure a ∉ p.instructions) (hb : .measure b ∉ p.instructions) :
    ((∃ u, (p.followedBy [.joint o]).compile = .ok u) ↔
      opA = .z ∧ opB = .z ∧ p.ClearedBetween i j) ∧
    (∀ u, (p.followedBy [.joint o]).compile = .ok u → ∃ region, u.now.channels = [region] ∧
      (u.now.tile? a).map Tile.cell = some (p.defaultLayout.cellOf i) ∧
      (u.now.tile? b).map Tile.cell = some (p.defaultLayout.cellOf j) ∧
      region.cells = (p.defaultLayout.cellOf i).between (p.defaultLayout.cellOf j)) ∧
    (opA = .x ∨ opB = .x ∨ ¬ p.ClearedBetween i j →
      ∀ rest, (p.followedBy (.joint o :: rest)).compile = .error (.noRoute a b)) := by
  have hcompile : ∀ rest, (p.followedBy (.joint o :: rest)).compile =
      t.step (.joint o) >>= rest.foldlM Timeline.step := by
    intro rest
    rw [Timeline.compile_followedBy h, List.foldlM_cons]
  obtain ⟨hclears, hblocks⟩ := step_joint h ho hopA hopB hi hj ha hb
  by_cases hclear : opA = .z ∧ opB = .z ∧ p.ClearedBetween i j
  · obtain ⟨u, region, hstep, hregion⟩ := hclears hclear
    have hu : (p.followedBy [.joint o]).compile = .ok u := by
      rw [hcompile, hstep]
      rfl
    refine ⟨⟨fun _ => hclear, fun _ => ⟨u, hu⟩⟩, fun v hv => ?_, fun hnot => ?_⟩
    · cases hu.symm.trans hv
      exact ⟨region, hregion⟩
    · obtain ⟨rfl, rfl, hcleared⟩ := hclear
      simp [hcleared] at hnot
  · have hfails : ∀ rest, (p.followedBy (.joint o :: rest)).compile = .error (.noRoute a b) := by
      intro rest
      rw [hcompile, hblocks hclear, error_bind]
    refine ⟨⟨fun hok => ?_, fun hok => absurd hok hclear⟩, fun u hu => ?_, fun _ => hfails⟩
    · obtain ⟨u, hu⟩ := hok
      cases (hfails []).symm.trans hu
    · cases (hfails []).symm.trans hu

/-- A program that measures out the qubit between its two others, which are declared in the opposite
order of their ids. -/
def crossingProgram : Program where
  qubits := [.clamp 9, .clamp 4, .clamp 1]
  instructions := [.joint (.ofList [(.clamp 4, .z), (.clamp 1, .z)]), .measure (.clamp 4)]

theorem compile_joint_crossingProgram :
    ∃ u region,
      (crossingProgram.followedBy
        [.joint (.ofList [(.clamp 9, .z), (.clamp 1, .z)])]).compile = .ok u ∧
      u.now.channels = [region] ∧ region.cells = [.clamp 0 3, .clamp 0 2, .clamp 0 1] ∧
      ∀ rest, (crossingProgram.followedBy
        (.joint (.ofList [(.clamp 9, .z), (.clamp 1, .x)]) :: rest)).compile =
          .error (.noRoute (.clamp 1) (.clamp 9)) := by
  have hok : crossingProgram.compile.isOk = true := by decide +kernel
  cases h : crossingProgram.compile with
  | error e =>
    rw [h] at hok
    cases hok
  | ok t =>
    have hcleared : crossingProgram.ClearedBetween 2 0 := by
      intro k q hk hbetween
      obtain rfl : k = 1 := by omega
      cases hk
      decide
    obtain ⟨hiff, hline, -⟩ := compile_joint (i := 2) (j := 0) (a := .clamp 1) (b := .clamp 9) h
      (o := .ofList [(.clamp 9, .z), (.clamp 1, .z)]) (by decide) (.inr rfl) (.inr rfl) rfl rfl
      (by decide) (by decide)
    obtain ⟨u, hu⟩ := hiff.2 ⟨rfl, rfl, hcleared⟩
    obtain ⟨region, hregion, -, -, hcells⟩ := hline u hu
    refine ⟨u, region, hu, hregion, by rw [hcells]; decide, ?_⟩
    exact (compile_joint (i := 2) (j := 0) h (by decide) (.inl rfl) (.inr rfl) rfl rfl (by decide)
      (by decide)).2.2 (.inl rfl)

end Program

end LatticeSurgery
