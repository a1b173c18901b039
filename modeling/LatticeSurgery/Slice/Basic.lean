import LatticeSurgery.Layout.Basic
import LatticeSurgery.Repetition

/-!
# Slices

A slice is the state of the lattice during one step of a program: which qubit patches are alive
and what happens to them, which magic states wait, and which channels are routed. A cell is free
when it is not set aside for distillation and no patch or channel covers it (`Slice.isFree`), and
patches are placed on free cells only (`Slice.placeQubit`, `Slice.placeMagicState`). Placement
looks at what is there already, so a patch that lists a cell of its own twice passes it;
`Slice.audit` reports that as well.
-/

namespace LatticeSurgery

/-- The state of the lattice during one step. -/
structure Slice where
  layout : Layout
  /-- The live qubit patches, in the order in which they were placed. -/
  qubits : List Patch
  /-- The magic states that wait to be used. -/
  magicStates : List Patch
  /-- The channels of this step. -/
  channels : List Region

namespace Slice

/-- The slice with nothing on it. -/
def empty (layout : Layout) : Slice := ⟨layout, [], [], []⟩

/-- The slice with the layout's own patches. -/
def ofLayout (layout : Layout) : Slice := ⟨layout, layout.initialPatches, [], []⟩

/-- The qubit patches and then the magic states. -/
def patches (s : Slice) : List Patch := s.qubits ++ s.magicStates

/-! ### What is on a cell -/

/-- The qubit patch on the cell. -/
def qubitAt? (s : Slice) (c : Cell) : Option Patch := s.qubits.find? (·.covers c)

/-- The magic state on the cell. -/
def magicStateAt? (s : Slice) (c : Cell) : Option Patch := s.magicStates.find? (·.covers c)

/-- The patch on the cell, a qubit patch if there is one. -/
def patchAt? (s : Slice) (c : Cell) : Option Patch := (s.qubitAt? c).or (s.magicStateAt? c)

/-- Whether the cell is neither reserved nor covered by a patch or a channel. -/
def isFree (s : Slice) (c : Cell) : Bool :=
  !s.layout.reserves c && (s.patchAt? c).isNone && !s.channels.any (·.covers c)

/-- The first deposit cell of a distillation region that is free. -/
def freeDeposit? (s : Slice) (region : Nat) : Option Cell :=
  (s.layout.depositCells region).find? s.isFree

/-- The cells of all patches, in order. -/
def patchCells (s : Slice) : List Cell := s.patches.flatMap Patch.cells

/-- The cells of all channels, in order. -/
def channelCells (s : Slice) : List Cell := s.channels.flatMap Region.cells

/-- The least cell that is at or beyond the origin and every covered cell. -/
def extent (s : Slice) : Cell := (s.patchCells ++ s.channelCells).foldl Cell.sup .origin

/-- Succeeds when no cell is covered twice, by two patches or by one. -/
def audit (s : Slice) : Except Fault Unit :=
  match firstRepeat? s.patchCells with
  | none => .ok ()
  | some c => .error (.cellTaken c)

/-! ### Placing -/

/-- Succeeds when every cell of the patch is free, and otherwise blames the first that is not. -/
def clearFor (s : Slice) (p : Patch) : Except Fault Unit :=
  match p.cells.find? (!s.isFree ·) with
  | none => .ok ()
  | some c => .error (.cellTaken c)

/-- Places a qubit patch on free cells. -/
def placeQubit (s : Slice) (p : Patch) : Except Fault Slice := do
  s.clearFor p
  return { s with qubits := s.qubits ++ [p] }

/-- Places a magic state on free cells. -/
def placeMagicState (s : Slice) (p : Patch) : Except Fault Slice := do
  s.clearFor p
  return { s with magicStates := s.magicStates ++ [p] }

/-- Records a channel, wherever it runs. -/
def addChannel (s : Slice) (r : Region) : Slice := { s with channels := s.channels ++ [r] }

/-! ### Patches by id -/

/-- The qubit patch with the id. -/
def qubit (s : Slice) (id : PatchId) : Except Fault Patch :=
  match s.qubits.find? (·.id = some id) with
  | some p => .ok p
  | none => .error (.unknownPatch id)

/-- Sets what happens to the qubit patch with the id. -/
def setActivity (s : Slice) (id : PatchId) (a : Activity) : Except Fault Slice :=
  match s.qubits.findIdx? (·.id = some id) with
  | some i => .ok { s with qubits := s.qubits.modify i fun p => { p with activity := a } }
  | none => .error (.unknownPatch id)

/-- Names the qubit patches in order; those without a name in the list become anonymous. -/
def assignIds (s : Slice) (ids : List (Option PatchId)) : Slice :=
  let names := ids.toArray
  { s with qubits := s.qubits.mapIdx fun i p => { p with id := names[i]?.join } }

/-! ### Time -/

/-- The slice with which the next step starts: no magic states, no channels, only live qubit
patches. -/
def next (s : Slice) : Slice := ⟨s.layout, s.qubits.filterMap Patch.next?, [], []⟩

/-! ### Free cells, placement and the audit, said of the covered cells -/

variable {s t : Slice} {c : Cell} {p : Patch}

theorem patchAt?_isNone_iff : (s.patchAt? c).isNone ↔ c ∉ s.patchCells := by
  simp only [patchAt?, qubitAt?, magicStateAt?, Option.isNone_iff_eq_none, Option.or_eq_none_iff,
    List.find?_eq_none, Patch.covers_iff, patchCells, patches, List.mem_flatMap, List.mem_append]
  grind

theorem isFree_iff :
    s.isFree c ↔ ¬ s.layout.reserves c ∧ c ∉ s.patchCells ∧ c ∉ s.channelCells := by
  simp only [isFree, Bool.and_eq_true, patchAt?_isNone_iff, Bool.not_eq_true', and_assoc,
    Bool.not_eq_true, channelCells, List.mem_flatMap, List.any_eq_false, Region.covers_iff]
  grind

theorem isFree_iff_forall :
    s.isFree c ↔ (∀ d ∈ s.layout.reserved, c ∉ d.cells) ∧ (∀ p ∈ s.patches, c ∉ p.cells) ∧
      ∀ r ∈ s.channels, c ∉ r.cells := by
  rw [isFree_iff, Layout.reserves_iff, patchCells, channelCells, List.mem_flatMap, List.mem_flatMap]
  simp only [not_exists, not_and]

theorem clearFor_eq_ok_iff : s.clearFor p = .ok () ↔ ∀ c ∈ p.cells, s.isFree c := by
  simp only [clearFor]
  cases h : p.cells.find? (!s.isFree ·) with
  | none => simpa using h
  | some c =>
    have hc := List.find?_some h
    simp only [reduceCtorEq, false_iff]
    exact fun hall => by simp [hall c (List.mem_of_find?_eq_some h)] at hc

theorem placeQubit_eq_ok_iff :
    s.placeQubit p = .ok t ↔
      (∀ c ∈ p.cells, s.isFree c) ∧ t = { s with qubits := s.qubits ++ [p] } := by
  rw [← clearFor_eq_ok_iff]
  simp only [placeQubit]
  cases s.clearFor p with
  | ok => simp [bind, Except.bind, pure, Except.pure, eq_comm]
  | error e => simp [bind, Except.bind]

theorem placeMagicState_eq_ok_iff :
    s.placeMagicState p = .ok t ↔
      (∀ c ∈ p.cells, s.isFree c) ∧ t = { s with magicStates := s.magicStates ++ [p] } := by
  rw [← clearFor_eq_ok_iff]
  simp only [placeMagicState]
  cases s.clearFor p with
  | ok => simp [bind, Except.bind, pure, Except.pure, eq_comm]
  | error e => simp [bind, Except.bind]

theorem audit_eq_ok_iff : s.audit = .ok () ↔ s.patchCells.Nodup := by
  rw [← firstRepeat?_eq_none_iff]
  simp only [audit]
  cases firstRepeat? s.patchCells <;> simp

end Slice

end LatticeSurgery
