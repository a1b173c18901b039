import LatticeSurgery.Proofs.Layout.Row
import LatticeSurgery.Proofs.Timeline.Failure
import LatticeSurgery.Proofs.Timeline.Start

/-!
# How many patches a row holds

A row piles up its patches at the end of the range of the columns, so it has a capacity: the number of
patches up to which they stand on different cells. For a program on its own row this is the only thing that
can go wrong with the layout. The row has a patch for each declared qubit, and no instruction is ever blamed
for a lack of patches or for a cell that is taken (`Fault.OfInstruction`), so such a fault comes from the start
(`startFault_or_ofInstruction`).
-/

namespace LatticeSurgery

/-- The faults of instructions. All others are found before the first one is carried out. -/
def Fault.OfInstruction : Fault → Prop
  | .unknownPatch _ | .severalCells _ | .wrongArity _ | .noEdgeFor _ | .noRoute _ _ => True
  | .tooFewPatches _ _ | .repeatedId _ | .cellTaken _ | .idsExhausted => False

/-! ### Faults of instructions -/

variable {e : Fault}

namespace Slice

variable {s : Slice}

theorem ofInstruction_of_measureJointly {o : Observable} (h : s.measureJointly o = .error e) :
    e.OfInstruction := by
  rcases measureJointly_fault_cases h with ⟨-, rfl⟩ | ⟨op, rfl⟩ | ⟨id, rfl | rfl⟩ | ⟨source, target, rfl⟩
  all_goals trivial

theorem ofInstruction_of_perform {i : Instruction} (h : s.perform i = .error e) :
    e.OfInstruction := by
  have hset : ∀ id a, s.setActivity id a = .error e → e.OfInstruction := by
    intro id a hset
    obtain ⟨-, rfl⟩ := (setActivity_eq_error_iff e).1 hset
    trivial
  cases i with
  | measure target => exact hset target _ h
  | pauli target => exact hset target _ h
  | joint o => exact ofInstruction_of_measureJointly h
  | requestMagic target => cases h

end Slice

namespace Program

variable {p : Program} {layout : Layout}

theorem startFault_or_ofInstruction (h : p.compileOn layout = .error e) :
    Timeline.StartFault layout p.qubits e ∨ e.OfInstruction := by
  unfold compileOn at h
  cases hstart : Timeline.start layout p.qubits with
  | error e' =>
    rw [hstart, error_bind] at h
    cases h
    exact .inl (Timeline.start_eq_error_iff.1 hstart)
  | ok t =>
    rw [hstart, ok_bind] at h
    refine .inr (foldlM_fault (fun t i e he => ?_) _ _ _ h)
    exact Slice.ofInstruction_of_perform ((Timeline.step_eq_error_iff e).1 he)

theorem compileOn_of_startFault (h : Timeline.StartFault layout p.qubits e) :
    p.compileOn layout = .error e := by
  unfold compileOn
  rw [Timeline.start_of_startFault h, error_bind]

/-! ### Programs on their own row -/

theorem length_initialPatches_defaultLayout (p : Program) :
    p.defaultLayout.toLayout.initialPatches.length = p.qubits.length := by
  rw [RowLayout.initialPatches_toLayout, List.length_map, RowLayout.length_cells]
  rfl

theorem compile_ne_tooFewPatches (required available : Nat) :
    p.compile ≠ .error (.tooFewPatches required available) := by
  intro h
  rcases startFault_or_ofInstruction h with ⟨-, hrequired, havailable, hlt⟩ | h
  · rw [length_initialPatches_defaultLayout] at havailable
    omega
  · exact h

theorem nodup_cells_defaultLayout_iff : p.defaultLayout.cells.Nodup ↔ p.qubits.length ≤ 1073741825 := by
  have hspacing : p.defaultLayout.spacing.val = 2 := rfl
  have hcount : p.defaultLayout.count = p.qubits.length := rfl
  rw [RowLayout.nodup_cells_iff, hspacing, hcount]
  omega

theorem exists_compile_cellTaken_iff :
    (∃ c, p.compile = .error (.cellTaken c)) ↔ p.qubits.Nodup ∧ 1073741825 < p.qubits.length := by
  rw [← Nat.not_le, ← nodup_cells_defaultLayout_iff, ← RowLayout.flatMap_initialPatches_toLayout]
  constructor
  · intro h
    obtain ⟨c, hc⟩ := h
    rcases startFault_or_ofInstruction hc with ⟨hnd, -, hrepeat⟩ | h
    · refine ⟨hnd, fun hcells => ?_⟩
      rw [isFirstRepeat_iff, firstRepeat?_eq_none_iff.2 hcells] at hrepeat
      cases hrepeat
    · exact h.elim
  · intro h
    obtain ⟨hnd, hcells⟩ := h
    obtain ⟨c, hc⟩ := exists_isFirstRepeat hcells
    have hlength := Nat.le_of_eq p.length_initialPatches_defaultLayout.symm
    exact ⟨c, compileOn_of_startFault ⟨hnd, hlength, hc⟩⟩

end Program

namespace RowLayout

/-- **The capacity of a row.** The patches of a row stand on different cells exactly when there is at most
one, or the spacing is not zero, the number of the last patch is in the range of the coordinates, and the
column of the last patch but one falls short of both ends of it. Patch `i` is in column `i` times the spacing
where both numbers are in range. A program on its own row never lacks patches, and fails for a cell that is
taken exactly when its ids are different and more than 2³⁰ + 1. -/
theorem row_capacity (l : RowLayout) :
    ((l.toLayout.initialPatches.flatMap Patch.cells).Nodup ↔
      l.count ≤ 1 ∨ l.spacing.val ≠ 0 ∧ l.count - 1 ≤ 2147483647 ∧
        -2147483648 < l.spacing.val * ((l.count : Int) - 2) ∧
        l.spacing.val * ((l.count : Int) - 2) < 2147483647) ∧
    (∀ (i : Nat) (col : Coord), i < l.count → i ≤ 2147483647 → col.val = l.spacing.val * i →
      l.toLayout.initialPatches[i]? = some (.square ⟨l.row, col⟩)) ∧
    ∀ p : Program, (∀ required available, p.compile ≠ .error (.tooFewPatches required available)) ∧
      ((∃ c, p.compile = .error (.cellTaken c)) ↔ p.qubits.Nodup ∧ 1073741825 < p.qubits.length) := by
  refine ⟨?_, fun i col hi hrange hcol => ?_,
    fun p => ⟨Program.compile_ne_tooFewPatches, Program.exists_compile_cellTaken_iff⟩⟩
  · rw [flatMap_initialPatches_toLayout]
    exact nodup_cells_iff
  · rw [initialPatches_toLayout, List.getElem?_map, cells_getElem? hi, cellOf_eq hrange hcol]
    rfl

/-- As long as a row can be. It goes to the left, where there is one column more than to the right, and so its
last patch is not at the end. -/
def longestRow : RowLayout := { count := 2147483648, row := .clamp 3, spacing := .clamp (-1) }

theorem row_capacity_longestRow :
    (longestRow.toLayout.initialPatches.flatMap Patch.cells).Nodup ∧
    longestRow.toLayout.initialPatches[2147483647]? = some (.square (.clamp 3 (-2147483647))) := by
  obtain ⟨hnodup, hplace, -⟩ := row_capacity longestRow
  refine ⟨hnodup.2 (.inr (by decide)), ?_⟩
  exact hplace 2147483647 (.clamp (-2147483647)) (by decide) (by decide) (by decide)

end RowLayout

end LatticeSurgery
