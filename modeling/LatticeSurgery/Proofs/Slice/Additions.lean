import LatticeSurgery.Proofs.Sequence
import LatticeSurgery.Proofs.Slice.Extent
import Mathlib.Tactic.Tauto

/-!
# What an addition takes up

Three things can be added to a slice: a qubit patch or a magic state, which are placed on free cells only,
and a channel, which is recorded wherever it runs. They join different lists, but for the cells it makes
no difference which: afterwards those cells are covered that were covered before, and the added ones
(`covered_add_iff`). So an addition takes just its own cells from the free ones (`isFree_add_iff`), and one
that stays within the extent leaves the extent as it is (`extent_add`).
-/

namespace LatticeSurgery

/-- Something to put on a slice. -/
inductive Addition where
  | qubit (p : Patch)
  | magicState (p : Patch)
  | channel (r : Region)

/-- The cells that it takes up. -/
def Addition.cells : Addition → List Cell
  | .qubit p | .magicState p => p.cells
  | .channel r => r.cells

/-- The patch, if it is one. -/
def Addition.patch? : Addition → Option Patch
  | .qubit p | .magicState p => some p
  | .channel _ => none

namespace Slice

variable {s t : Slice} {a : Addition} {c : Cell}

/-- Puts something on the slice; patches need free cells. -/
def add (s : Slice) : Addition → Except Fault Slice
  | .qubit p => s.placeQubit p
  | .magicState p => s.placeMagicState p
  | .channel r => return s.addChannel r

/-- The slice after an attempt to put something on it. It stays as it was if that is refused. -/
def attempt (s : Slice) (a : Addition) : Slice :=
  match s.add a with
  | .ok t => t
  | .error _ => s

theorem add_cases (h : s.add a = .ok t) :
    (∃ p, a = .qubit p ∧ t = { s with qubits := s.qubits ++ [p] }) ∨
    (∃ p, a = .magicState p ∧ t = { s with magicStates := s.magicStates ++ [p] }) ∨
    (∃ r, a = .channel r ∧ t = { s with channels := s.channels ++ [r] }) := by
  cases a with
  | qubit p => exact .inl ⟨p, rfl, (placeQubit_eq_ok_iff.1 h).2⟩
  | magicState p => exact .inr (.inl ⟨p, rfl, (placeMagicState_eq_ok_iff.1 h).2⟩)
  | channel r => exact .inr (.inr ⟨r, rfl, pure_eq_ok_iff.1 h⟩)

theorem isFree_of_add {p : Patch} (hp : a.patch? = some p) (h : s.add a = .ok t) :
    ∀ c ∈ p.cells, s.isFree c := by
  cases a with
  | qubit q =>
    cases hp
    exact (placeQubit_eq_ok_iff.1 h).1
  | magicState q =>
    cases hp
    exact (placeMagicState_eq_ok_iff.1 h).1
  | channel r => cases hp

theorem layout_add (h : s.add a = .ok t) : t.layout = s.layout := by
  rcases add_cases h with ⟨p, rfl, rfl⟩ | ⟨p, rfl, rfl⟩ | ⟨r, rfl, rfl⟩
  · rfl
  · rfl
  · rfl

theorem covered_add_iff (h : s.add a = .ok t) :
    (c ∈ t.patchCells ∨ c ∈ t.channelCells) ↔
      (c ∈ s.patchCells ∨ c ∈ s.channelCells) ∨ c ∈ a.cells := by
  rcases add_cases h with ⟨p, rfl, rfl⟩ | ⟨p, rfl, rfl⟩ | ⟨r, rfl, rfl⟩
  all_goals
    simp only [patchCells, patches, channelCells, Addition.cells, List.flatMap_append,
      List.flatMap_singleton, List.mem_append]
    tauto

theorem isFree_add_iff (h : s.add a = .ok t) : t.isFree c ↔ s.isFree c ∧ c ∉ a.cells := by
  rw [isFree_iff, isFree_iff, layout_add h, ← not_or, covered_add_iff h, not_or, not_or,
    and_assoc (a := ¬ s.layout.reserves c)]

theorem extent_add (h : s.add a = .ok t) (hin : ∀ c ∈ a.cells, c.Within s.extent) :
    t.extent = s.extent := by
  refine Cell.Within.antisymm (extent_within ?_ fun c hc => ?_) (extent_within ?_ fun c hc => ?_)
  · exact Cell.within_foldl_sup _ _
  · rcases (covered_add_iff h).1 hc with hc | hc
    · exact within_extent hc
    · exact hin c hc
  · exact Cell.within_foldl_sup _ _
  · exact within_extent ((covered_add_iff h).2 (.inl hc))

end Slice

end LatticeSurgery
