import LatticeSurgery.Proofs.Slice.Roster

/-!
# How a compilation starts

Before the first instruction four things can be wrong, and they are looked for in a fixed order: a declared
id is repeated, the layout has fewer patches than there are ids, a cell is covered twice, or the largest id is
declared, so that no fresh one is left. `StartFault` is that order, said fault by fault. Where a list
repeats something, the blame falls on the first element that was there before (`IsFirstRepeat`), which is not
the same as the first element that comes again later.

The audit reads the cells of all patches of the layout, also of those that get no name. Names are given only
after it: each patch takes the declared id in its place, or none, and loses the one that the layout had put
on it.
-/

namespace LatticeSurgery

/-- The element is the first of the list that was there before: the elements up to it are all different, and
it is one of them. -/
def IsFirstRepeat {α : Type} (l : List α) (a : α) : Prop :=
  ∃ pre post, l = pre ++ a :: post ∧ pre.Nodup ∧ a ∈ pre

theorem isFirstRepeat_iff {α : Type} [Ord α] [Std.TransOrd α] [Std.LawfulEqOrd α] {l : List α} {a : α} :
    IsFirstRepeat l a ↔ firstRepeat? l = some a :=
  firstRepeat?_eq_some_iff.symm

theorem exists_isFirstRepeat {α : Type} [Ord α] [Std.TransOrd α] [Std.LawfulEqOrd α] {l : List α}
    (h : ¬ l.Nodup) : ∃ a, IsFirstRepeat l a := by
  simp only [isFirstRepeat_iff]
  rwa [← Option.ne_none_iff_exists', ne_eq, firstRepeat?_eq_none_iff]

namespace Slice

variable {s : Slice}

theorem audit_eq_error_iff {e : Fault} :
    s.audit = .error e ↔ ∃ c, IsFirstRepeat s.patchCells c ∧ e = .cellTaken c := by
  simp only [isFirstRepeat_iff, audit]
  cases firstRepeat? s.patchCells with
  | none => simp
  | some c => simp [eq_comm]

theorem patchCells_ofLayout (layout : Layout) :
    (ofLayout layout).patchCells = layout.initialPatches.flatMap Patch.cells := by
  show (layout.initialPatches ++ []).flatMap Patch.cells = _
  rw [List.append_nil]

end Slice

namespace Timeline

variable {layout : Layout} {qubits : List PatchId}

/-- The faults with which a compilation does not start. Each is reported only where those above it do not
occur. -/
def StartFault (layout : Layout) (qubits : List PatchId) : Fault → Prop
  | .repeatedId id => IsFirstRepeat qubits id
  | .tooFewPatches required available =>
    qubits.Nodup ∧ required = qubits.length ∧ available = layout.initialPatches.length ∧
      available < required
  | .cellTaken c =>
    qubits.Nodup ∧ qubits.length ≤ layout.initialPatches.length ∧
      IsFirstRepeat (layout.initialPatches.flatMap Patch.cells) c
  | .idsExhausted =>
    qubits.Nodup ∧ qubits.length ≤ layout.initialPatches.length ∧
      (layout.initialPatches.flatMap Patch.cells).Nodup ∧ .last ∈ qubits
  | _ => False

theorem start_of_repeat {id : PatchId} (h : IsFirstRepeat qubits id) :
    start layout qubits = .error (.repeatedId id) := by
  unfold start
  rw [isFirstRepeat_iff.1 h]
  rfl

theorem start_of_few (hnd : qubits.Nodup) (hlen : layout.initialPatches.length < qubits.length) :
    start layout qubits = .error (.tooFewPatches qubits.length layout.initialPatches.length) := by
  unfold start
  rw [firstRepeat?_eq_none_iff.2 hnd]
  exact if_pos hlen

theorem start_of_enough (hnd : qubits.Nodup) (hlen : qubits.length ≤ layout.initialPatches.length) :
    start layout qubits = (do
      (Slice.ofLayout layout).audit
      let ids ← IdSource.above qubits
      return ⟨[], (Slice.ofLayout layout).assignIds (qubits.map some), ids⟩) := by
  have hids : ((Slice.ofLayout layout).assignIds (qubits.map some)).qubits.filterMap Patch.id = qubits :=
    Slice.ids_assignIds hlen
  have hlen' : ¬ (Slice.ofLayout layout).qubits.length < qubits.length := Nat.not_lt.2 hlen
  unfold start
  rw [firstRepeat?_eq_none_iff.2 hnd]
  simp only [hids]
  rw [if_neg hlen']

theorem start_of_overlap {c : Cell} (hnd : qubits.Nodup)
    (hlen : qubits.length ≤ layout.initialPatches.length)
    (h : IsFirstRepeat (layout.initialPatches.flatMap Patch.cells) c) :
    start layout qubits = .error (.cellTaken c) := by
  rw [← Slice.patchCells_ofLayout] at h
  rw [start_of_enough hnd hlen, Slice.audit_eq_error_iff.2 ⟨c, h, rfl⟩, error_bind]

theorem start_of_last (hnd : qubits.Nodup) (hlen : qubits.length ≤ layout.initialPatches.length)
    (hcells : (layout.initialPatches.flatMap Patch.cells).Nodup) (hlast : .last ∈ qubits) :
    start layout qubits = .error .idsExhausted := by
  rw [← Slice.patchCells_ofLayout] at hcells
  rw [start_of_enough hnd hlen, Slice.audit_eq_ok_iff.2 hcells, ok_bind,
    IdSource.above_eq_error_iff.2 ⟨hlast, rfl⟩, error_bind]

theorem start_of_startFault {e : Fault} (h : StartFault layout qubits e) :
    start layout qubits = .error e := by
  cases e with
  | repeatedId id => exact start_of_repeat h
  | tooFewPatches required available =>
    obtain ⟨hnd, rfl, rfl, hlen⟩ := h
    exact start_of_few hnd hlen
  | cellTaken c => exact start_of_overlap h.1 h.2.1 h.2.2
  | idsExhausted => exact start_of_last h.1 h.2.1 h.2.2.1 h.2.2.2
  | _ => exact h.elim

theorem exists_startFault_or (layout : Layout) (qubits : List PatchId) :
    (∃ e, StartFault layout qubits e) ∨
      qubits.Nodup ∧ qubits.length ≤ layout.initialPatches.length ∧
        (layout.initialPatches.flatMap Patch.cells).Nodup ∧ .last ∉ qubits := by
  by_cases hnd : qubits.Nodup
  · by_cases hlen : qubits.length ≤ layout.initialPatches.length
    · by_cases hcells : (layout.initialPatches.flatMap Patch.cells).Nodup
      · by_cases hlast : PatchId.last ∈ qubits
        · exact .inl ⟨.idsExhausted, hnd, hlen, hcells, hlast⟩
        · exact .inr ⟨hnd, hlen, hcells, hlast⟩
      · obtain ⟨c, hc⟩ := exists_isFirstRepeat hcells
        exact .inl ⟨.cellTaken c, hnd, hlen, hc⟩
    · exact .inl ⟨.tooFewPatches _ _, hnd, rfl, rfl, Nat.not_le.1 hlen⟩
  · obtain ⟨id, hid⟩ := exists_isFirstRepeat hnd
    exact .inl ⟨.repeatedId id, hid⟩

theorem exists_start (hnd : qubits.Nodup) (hlen : qubits.length ≤ layout.initialPatches.length)
    (hcells : (layout.initialPatches.flatMap Patch.cells).Nodup) (hlast : .last ∉ qubits) :
    ∃ t, start layout qubits = .ok t ∧
      t.slices = [⟨layout, layout.initialPatches.mapIdx fun i p => { p with id := qubits[i]? },
        [], []⟩] := by
  obtain ⟨ids, hids⟩ := IdSource.exists_above hlast
  rw [← Slice.patchCells_ofLayout] at hcells
  rw [start_of_enough hnd hlen, Slice.audit_eq_ok_iff.2 hcells, ok_bind, hids, ok_bind]
  refine ⟨_, rfl, ?_⟩
  show [(⟨layout, ((Slice.ofLayout layout).assignIds (qubits.map some)).qubits, [], []⟩ : Slice)] = _
  rw [Slice.qubits_assignIds]
  rfl

theorem start_eq_error_iff {e : Fault} :
    start layout qubits = .error e ↔ StartFault layout qubits e := by
  refine ⟨fun h => ?_, start_of_startFault⟩
  -- there is one answer, so the fault that is reported is the one that is there
  rcases exists_startFault_or layout qubits with ⟨e', hfault⟩ | ⟨hnd, hlen, hcells, hlast⟩
  · cases h.symm.trans (start_of_startFault hfault)
    exact hfault
  · obtain ⟨t, ht, -⟩ := exists_start hnd hlen hcells hlast
    cases h.symm.trans ht

theorem compileOn_nil : Program.compileOn ⟨qubits, []⟩ layout = start layout qubits := by
  unfold Program.compileOn
  cases start layout qubits with
  | error e => rfl
  | ok t => rfl

/-- **Every outcome of a start.** Without instructions, a compilation fails exactly with the first of the
faults that there is. It succeeds exactly when there is none: the declared ids are different, the layout has a
patch for each, covers no cell twice, and the largest id is not declared. Then it makes one slice of the
layout's patches, where patch `i` bears the declared id `i` if there is one, and no id otherwise. -/
theorem compileOn_nil_answers (layout : Layout) (qubits : List PatchId) :
    (∀ e, Program.compileOn ⟨qubits, []⟩ layout = .error e ↔ StartFault layout qubits e) ∧
    ((∃ t, Program.compileOn ⟨qubits, []⟩ layout = .ok t ∧
        t.slices = [⟨layout, layout.initialPatches.mapIdx fun i p => { p with id := qubits[i]? },
          [], []⟩]) ↔
      qubits.Nodup ∧ qubits.length ≤ layout.initialPatches.length ∧
        (layout.initialPatches.flatMap Patch.cells).Nodup ∧ .last ∉ qubits) := by
  simp only [compileOn_nil, start_eq_error_iff, implies_true, true_and]
  constructor
  · intro h
    obtain ⟨t, ht, -⟩ := h
    rcases exists_startFault_or layout qubits with ⟨e, hfault⟩ | hnone
    · cases ht.symm.trans (start_of_startFault hfault)
    · exact hnone
  · intro h
    obtain ⟨hnd, hlen, hcells, hlast⟩ := h
    exact exists_start hnd hlen hcells hlast

/-- Everything is wrong with this start, and it is the first repetition of an id that counts. -/
example :
    (start (RowLayout.toLayout { count := 1 }) [.last, .first, .first, .last]).map (fun _ => ()) =
      .error (.repeatedId .first) := by
  decide +kernel

end Timeline

end LatticeSurgery
