import LatticeSurgery.Proofs.Slice.Additions
import LatticeSurgery.Proofs.Timeline.Steps

/-!
# Free cells from operation to operation

Whether a cell is free is read off four places: the reserved regions, the qubit patches, the magic states and
the channels. Every operation on a slice has its exact effect on the free cells all the same. A patch is
accepted where all its cells are free, and otherwise the first of them that is not is blamed
(`add_eq_error_iff`). What is added takes its own cells and no others (`isFree_add_iff`). A step forward gives
cells back and takes none: only reserved cells and those of the patches that live on stay taken
(`isFree_next_iff`).
-/

namespace LatticeSurgery

namespace Slice

variable {s t : Slice} {a : Addition} {c : Cell} {p : Patch}

/-- The first of the patch's cells that is not free. -/
def IsFirstTaken (s : Slice) (p : Patch) (c : Cell) : Prop :=
  ∃ pre post, p.cells = pre ++ c :: post ∧ (∀ d ∈ pre, s.isFree d) ∧ ¬ s.isFree c

/-! ### Refusals -/

theorem isFirstTaken_iff : s.IsFirstTaken p c ↔ p.cells.find? (!s.isFree ·) = some c := by
  rw [List.find?_eq_some_iff_append]
  constructor
  · intro h
    obtain ⟨pre, post, hcells, hfree, htaken⟩ := h
    exact ⟨by simpa using htaken, pre, post, hcells, by simpa using hfree⟩
  · intro h
    obtain ⟨htaken, pre, post, hcells, hfree⟩ := h
    exact ⟨pre, post, hcells, by simpa using hfree, by simpa using htaken⟩

theorem clearFor_eq_error_iff {e : Fault} :
    s.clearFor p = .error e ↔ ∃ c, s.IsFirstTaken p c ∧ e = .cellTaken c := by
  simp only [isFirstTaken_iff, clearFor]
  cases p.cells.find? (!s.isFree ·) with
  | none => simp
  | some c => simp [eq_comm]

theorem add_eq_error_iff {e : Fault} (hp : a.patch? = some p) :
    s.add a = .error e ↔ ∃ c, s.IsFirstTaken p c ∧ e = .cellTaken c := by
  rw [← clearFor_eq_error_iff]
  cases a with
  | qubit q =>
    cases hp
    exact bind_pure_eq_error_iff
  | magicState q =>
    cases hp
    exact bind_pure_eq_error_iff
  | channel r => cases hp

theorem exists_add_iff (hp : a.patch? = some p) :
    (∃ t, s.add a = .ok t) ↔ ∀ c ∈ p.cells, s.isFree c := by
  constructor
  · intro h
    obtain ⟨t, ht⟩ := h
    exact isFree_of_add hp ht
  · intro hfree
    cases h : s.add a with
    | ok t => exact ⟨t, rfl⟩
    | error e =>
      obtain ⟨c, ⟨pre, post, hcells, -, htaken⟩, -⟩ := (add_eq_error_iff hp).1 h
      exact absurd (hfree c (by simp [hcells])) htaken

theorem attempt_of_refused {e : Fault} (h : s.add a = .error e) : s.attempt a = s := by
  unfold attempt
  rw [h]

/-! ### The next step -/

theorem isFree_next_iff :
    s.next.isFree c ↔ (∀ d ∈ s.layout.reserved, c ∉ d.cells) ∧
      ∀ p ∈ s.qubits, p.activity ≠ .measurement → c ∉ p.cells := by
  have hpatches : s.next.patches = s.next.qubits := List.append_nil _
  rw [isFree_iff_forall, hpatches, qubits_next]
  simp only [List.forall_mem_map, List.mem_filter, decide_eq_true_eq, and_imp]
  constructor
  · intro h
    exact ⟨h.1, h.2.1⟩
  · intro h
    exact ⟨h.1, h.2, by simp [next]⟩

theorem isFree_next (h : s.isFree c) : s.next.isFree c := by
  obtain ⟨hreserved, hpatch, -⟩ := isFree_iff_forall.1 h
  refine isFree_next_iff.2 ⟨hreserved, fun p hp _ => hpatch p ?_⟩
  exact List.mem_append_left _ hp

/-- **The free cells after every operation.** A patch is accepted exactly when all its cells are free.
Otherwise the first of its cells that is not free is blamed, and the slice stays as it was. Channels are
always accepted. What is accepted takes just its own cells from the free ones. A step forward takes none, and
of the others it gives back those that are neither reserved nor covered by a patch that lives on. -/
theorem isFree_after (s : Slice) :
    (∀ a p, a.patch? = some p →
      ((∃ t, s.add a = .ok t) ↔ ∀ c ∈ p.cells, s.isFree c) ∧
      (∀ e, s.add a = .error e ↔ ∃ c, s.IsFirstTaken p c ∧ e = .cellTaken c) ∧
      ((∃ e, s.add a = .error e) → s.attempt a = s)) ∧
    (∀ r, s.add (.channel r) = .ok (s.addChannel r)) ∧
    (∀ a t, s.add a = .ok t → ∀ c, t.isFree c ↔ s.isFree c ∧ c ∉ a.cells) ∧
    (∀ c, s.isFree c → s.next.isFree c) ∧
    ∀ c, ¬ s.isFree c → (s.next.isFree c ↔ (∀ d ∈ s.layout.reserved, c ∉ d.cells) ∧
      ∀ p ∈ s.qubits, p.activity ≠ .measurement → c ∉ p.cells) := by
  refine ⟨fun a p hp => ⟨exists_add_iff hp, fun e => add_eq_error_iff hp, fun h => ?_⟩,
    fun r => rfl, fun a t h c => isFree_add_iff h, fun c => isFree_next, fun c _ => isFree_next_iff⟩
  obtain ⟨e, he⟩ := h
  exact attempt_of_refused he

/-- A patch with a free cell, a reserved one and one that a patch of `obstructed` covers. -/
def straddling : Patch :=
  { shape := .multi [.bare (.clamp 0 1), .bare (.clamp 1 2), .bare (.clamp 0 0)] }

/-- On `obstructed` the reserved cell is blamed, which comes before the covered one. The step forward gives
back the cell of the earlier channel and that of the magic state. -/
theorem isFree_after_obstructed :
    obstructed.add (.qubit straddling) = .error (.cellTaken (.clamp 1 2)) ∧
    obstructed.attempt (.qubit straddling) = obstructed ∧
    (∀ c, (obstructed.addChannel detour).isFree c ↔ obstructed.isFree c ∧ c ∉ detour.cells) ∧
    ¬ obstructed.isFree (.clamp 2 4) ∧ obstructed.next.isFree (.clamp 2 4) := by
  obtain ⟨hplace, hchannel, htakes, -, hnext⟩ := isFree_after obstructed
  obtain ⟨-, hblame, hsame⟩ := hplace (.qubit straddling) straddling rfl
  have herror : obstructed.add (.qubit straddling) = .error (.cellTaken (.clamp 1 2)) := by
    refine (hblame _).2 ⟨.clamp 1 2, ⟨[.clamp 0 1], [.clamp 0 0], by decide, ?_, ?_⟩, rfl⟩
    · decide
    · decide
  have htaken : ¬ obstructed.isFree (.clamp 2 4) := by decide
  refine ⟨herror, hsame ⟨_, herror⟩, htakes _ _ (hchannel detour), htaken, (hnext _ htaken).2 ?_⟩
  decide

end Slice

end LatticeSurgery
