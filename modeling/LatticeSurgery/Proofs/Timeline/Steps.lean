import LatticeSurgery.Proofs.Sequence
import LatticeSurgery.Timeline.Compile

/-!
# The steps of a timeline

What can become of a timeline, each operation said once: how a compilation starts
(`start_eq_ok_iff`), what an instruction does to the slice it is carried out on (`perform_cases`),
and what a step and a placement leave as they were (`step_eq_ok_iff`, `placeQubit_eq_ok_iff`).

After the compilation a timeline is edited: slices are appended and patches are placed
(`Timeline.run`). A property that both keep holds after every run of edits (`run_induct`).
-/

namespace LatticeSurgery

theorem Patch.next?_eq (p : Patch) :
    p.next? = if p.activity = .measurement then none else some { p with activity := .idle } := by
  obtain ⟨shape, role, id, activity⟩ := p
  cases activity <;> rfl

/-- The program with more instructions at its end. -/
def Program.followedBy (p : Program) (rest : List Instruction) : Program :=
  { p with instructions := p.instructions ++ rest }

namespace Slice

variable {s t : Slice} {p : Patch} {id : PatchId}

theorem qubits_next :
    s.next.qubits =
      (s.qubits.filter (·.activity ≠ .measurement)).map fun p => { p with activity := .idle } := by
  show s.qubits.filterMap Patch.next? = _
  induction s.qubits with
  | nil => rfl
  | cons p ps ih =>
    by_cases h : p.activity = .measurement
    · have hp : p.next? = none := by rw [Patch.next?_eq, if_pos h]
      rw [List.filterMap_cons_none hp, ih, List.filter_cons_of_neg (by simpa using h)]
    · have hp : p.next? = some { p with activity := .idle } := by rw [Patch.next?_eq, if_neg h]
      rw [List.filterMap_cons_some hp, ih, List.filter_cons_of_pos (by simpa using h),
        List.map_cons]

theorem setActivity_eq_ok_iff {a : Activity} :
    s.setActivity id a = .ok t ↔ ∃ i, s.qubits.findIdx? (·.id = some id) = some i ∧
      t = { s with qubits := s.qubits.modify i fun p => { p with activity := a } } := by
  unfold setActivity
  cases s.qubits.findIdx? (·.id = some id) with
  | none => simp
  | some i => simp [eq_comm]

theorem measureJointly_eq {o : Observable} {source target : PatchId} {sourceOp targetOp : Pauli}
    {answer : Option Region} (ho : o.factors = [(source, sourceOp), (target, targetOp)])
    (h : s.route source sourceOp target targetOp = .ok answer) :
    s.measureJointly o =
      answer.elim (.error (.noRoute source target)) fun region => .ok (s.addChannel region) := by
  unfold measureJointly
  rw [ho]
  show (s.route source sourceOp target targetOp >>= _) = _
  rw [h, ok_bind]
  cases answer with
  | none => rfl
  | some region => rfl

theorem measureJointly_of_length_ne {o : Observable} (h : o.factors.length ≠ 2) :
    s.measureJointly o = .error (.wrongArity o.factors.length) := by
  unfold measureJointly
  split
  · next hfactors =>
    rw [hfactors] at h
    exact absurd rfl h
  · rfl

/-- An instruction marks one patch, or adds the channel that the router finds, or does nothing. -/
theorem perform_cases {i : Instruction} (h : s.perform i = .ok t) :
    (∃ id a, (i = .measure id ∧ a = .measurement ∨ i = .pauli id ∧ a = .unitary) ∧
      s.setActivity id a = .ok t) ∨
    (∃ o source sourceOp target targetOp region, i = .joint o ∧
      o.factors = [(source, sourceOp), (target, targetOp)] ∧
      s.route source sourceOp target targetOp = .ok (some region) ∧ t = s.addChannel region) ∨
    (∃ id, i = .requestMagic id ∧ t = s) := by
  cases i with
  | measure id => exact .inl ⟨id, .measurement, .inl ⟨rfl, rfl⟩, h⟩
  | pauli id => exact .inl ⟨id, .unitary, .inr ⟨rfl, rfl⟩, h⟩
  | requestMagic id => exact .inr (.inr ⟨id, rfl, pure_eq_ok_iff.1 h⟩)
  | joint o =>
    refine .inr (.inl ?_)
    change s.measureJointly o = .ok t at h
    unfold measureJointly at h
    split at h
    · next source sourceOp target targetOp hf =>
      obtain ⟨answer, hroute, h⟩ := bind_eq_ok_iff.1 h
      cases answer with
      | none => cases h
      | some region =>
        exact ⟨o, source, sourceOp, target, targetOp, region, rfl, hf, hroute,
          pure_eq_ok_iff.1 h⟩
    · cases h

end Slice

namespace Timeline

variable {t u : Timeline} {layout : Layout}

theorem forall_mem_slices {P : Slice → Prop} :
    (∀ s ∈ t.slices, P s) ↔ (∀ s ∈ t.past, P s) ∧ P t.now := by
  unfold slices
  rw [List.forall_mem_append, List.forall_mem_singleton]

theorem start_eq_ok_iff {qubits : List PatchId} :
    start layout qubits = .ok t ↔
      firstRepeat? qubits = none ∧ qubits.length ≤ layout.initialPatches.length ∧
      (Slice.ofLayout layout).audit = .ok () ∧
      ∃ ids, IdSource.above (((Slice.ofLayout layout).assignIds (qubits.map some)).qubits.filterMap
          Patch.id) = .ok ids ∧
        t = ⟨[], (Slice.ofLayout layout).assignIds (qubits.map some), ids⟩ := by
  unfold start
  cases firstRepeat? qubits with
  | some id => simp
  | none =>
    by_cases hlen : (Slice.ofLayout layout).qubits.length < qubits.length
    · have hlen' : ¬ qubits.length ≤ layout.initialPatches.length := Nat.not_le.2 hlen
      simp [hlen, hlen']
    · have hlen' : qubits.length ≤ layout.initialPatches.length := Nat.not_lt.1 hlen
      simp only [hlen, hlen', if_false, true_and, bind_eq_ok_iff, pure_eq_ok_iff]
      constructor
      · intro h
        obtain ⟨_, haudit, ids, hids, rfl⟩ := h
        exact ⟨haudit, ids, hids, rfl⟩
      · intro h
        obtain ⟨haudit, ids, hids, rfl⟩ := h
        exact ⟨_, haudit, ids, hids, rfl⟩

theorem step_eq_ok_iff {i : Instruction} :
    t.step i = .ok u ↔ ∃ s, t.now.next.perform i = .ok s ∧ u = ⟨t.slices, s, t.ids⟩ := by
  unfold step
  simp only [bind_eq_ok_iff, pure_eq_ok_iff]
  rfl

theorem placeQubit_eq_ok_iff {p : Patch} {id : PatchId} :
    t.placeQubit p = .ok (id, u) ↔
      ∃ now ids, t.now.placeQubit { p with id := some t.ids.next } = .ok now ∧
        t.ids.draw = .ok (id, ids) ∧ u = ⟨t.past, now, ids⟩ := by
  unfold placeQubit
  simp only [bind_eq_ok_iff, pure_eq_ok_iff, Prod.exists, Prod.mk.injEq]
  constructor
  · intro h
    obtain ⟨now, hnow, _, ids, hdraw, rfl, rfl⟩ := h
    exact ⟨now, ids, hnow, hdraw, rfl⟩
  · intro h
    obtain ⟨now, ids, hnow, hdraw, rfl⟩ := h
    exact ⟨now, hnow, id, ids, hdraw, rfl, rfl⟩

theorem compileOn_followedBy {p : Program} (h : p.compileOn layout = .ok t)
    (rest : List Instruction) : (p.followedBy rest).compileOn layout = rest.foldlM step t := by
  obtain ⟨first, hstart, hsteps⟩ := bind_eq_ok_iff.1 h
  unfold Program.compileOn Program.followedBy
  rw [hstart, ok_bind, List.foldlM_append, hsteps, ok_bind]

theorem compile_followedBy {p : Program} (h : p.compile = .ok t) (rest : List Instruction) :
    (p.followedBy rest).compile = rest.foldlM step t :=
  compileOn_followedBy h rest

/-! ### Edits -/

/-- A change to a timeline after its compilation. -/
inductive Edit where
  /-- Appends a slice. -/
  | newSlice
  /-- Places a patch in the last slice. -/
  | place (p : Patch)

/-- Carries out an edit. -/
def edit (t : Timeline) : Edit → Except Fault Timeline
  | .newSlice => return t.advance
  | .place p => return (← t.placeQubit p).2

/-- The timeline after a run of edits. A patch that is refused leaves it as it was; the edits end
when there is no fresh id. -/
def run (t : Timeline) : List Edit → Timeline
  | [] => t
  | e :: edits =>
    match t.edit e with
    | .ok u => u.run edits
    | .error .idsExhausted => t
    | .error _ => t.run edits

theorem run_induct {P : Timeline → Prop} (hadvance : ∀ t, P t → P t.advance)
    (hplace : ∀ t u p id, P t → t.placeQubit p = .ok (id, u) → P u) (edits : List Edit) :
    ∀ t, P t → P (t.run edits) := by
  have hedit : ∀ t u e, P t → t.edit e = .ok u → P u := by
    intro t u e ht h
    cases e with
    | newSlice =>
      rw [pure_eq_ok_iff.1 h]
      exact hadvance t ht
    | place p =>
      obtain ⟨⟨id, v⟩, hv, hu⟩ := bind_eq_ok_iff.1 h
      rw [pure_eq_ok_iff.1 hu]
      exact hplace t v p id ht hv
  induction edits with
  | nil => exact fun t ht => ht
  | cons e edits ih =>
    intro t ht
    unfold run
    split
    · next u hu => exact ih u (hedit t u e ht hu)
    · exact ht
    · exact ih t ht

end Timeline

end LatticeSurgery
