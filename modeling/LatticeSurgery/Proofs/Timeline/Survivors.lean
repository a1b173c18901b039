import LatticeSurgery.Proofs.Slice.Roster

/-!
# What is left of the first slice

A compilation copies, drops, resets and marks patches, one step after another. None of that leaves a
trace beyond the next step except a measurement, so every slice can be written down from the first
one: an instruction finds the patches that no earlier measurement took (`Slice.survivors`), all idle
and with no channel around, whatever the instructions in between were. `Timeline.Unrolled` is the
invariant: the step after the last one starts on the survivors, and every slice so far is what its
instruction makes of the survivors at its time.

The ids of the first slice are all different. Without that a mark would reach only one of several
patches with an id, and a measurement would leave the others behind.
-/

namespace LatticeSurgery

/-- What the instruction does to the patch with the given name. -/
def Instruction.activityOn (i : Instruction) (name : Option PatchId) : Activity :=
  match i with
  | .measure target => if name = some target then .measurement else .idle
  | .pauli target => if name = some target then .unitary else .idle
  | .joint _ | .requestMagic _ => .idle

/-- Whether a patch of the first slice outlives the instructions: it is not measured out in that
slice, and by none of them. -/
def Patch.survives (done : List Instruction) (p : Patch) : Bool :=
  p.activity ≠ .measurement ∧ ∀ id ∈ p.id, .measure id ∉ done

namespace Patch

variable {p : Patch} {done : List Instruction} {i : Instruction}

theorem survives_iff :
    p.survives done ↔ p.activity ≠ .measurement ∧ ∀ id, p.id = some id → .measure id ∉ done := by
  simp only [survives, decide_eq_true_eq, Option.mem_def]

theorem activityOn_eq_measurement_iff {name : Option PatchId} :
    i.activityOn name = .measurement ↔ ∃ id, name = some id ∧ i = .measure id := by
  cases i with
  | measure target =>
    simp only [Instruction.activityOn, Instruction.measure.injEq]
    split
    · next h => simp [h]
    · next h => simp [h]
  | pauli target =>
    simp only [Instruction.activityOn]
    split <;> simp
  | joint o => simp [Instruction.activityOn]
  | requestMagic target => simp [Instruction.activityOn]

theorem survives_concat :
    p.survives (done ++ [i]) ↔ p.survives done ∧ i.activityOn p.id ≠ .measurement := by
  simp only [survives_iff, ne_eq, activityOn_eq_measurement_iff, List.mem_append,
    List.mem_singleton, not_or, not_exists, not_and, and_assoc]
  constructor
  · intro h
    exact ⟨h.1, fun id hid => (h.2 id hid).1, fun id hid heq => (h.2 id hid).2 heq.symm⟩
  · intro h
    exact ⟨h.1, fun id hid => ⟨h.2.1 id hid, fun heq => h.2.2 id hid heq.symm⟩⟩

end Patch

namespace Slice

variable {s t first : Slice} {done : List Instruction} {i : Instruction}

/-- The slice that an instruction finds after those in `done`: the patches that outlive them. -/
def survivors (first : Slice) (done : List Instruction) : Slice where
  layout := first.layout
  qubits := (first.qubits.filter (·.survives done)).map (·.withActivity .idle)
  magicStates := []
  channels := []

theorem next_eq_survivors (s : Slice) : s.next = s.survivors [] := by
  have hqubits : s.next.qubits = (s.survivors []).qubits := by
    rw [qubits_next]
    show _ = (s.qubits.filter _).map _
    congr 2
    funext p
    simp [Patch.survives]
  show (⟨s.layout, s.next.qubits, [], []⟩ : Slice) = _
  rw [hqubits]
  rfl

theorem ids_survivors_sublist : (first.survivors done).ids.Sublist first.ids := by
  unfold ids survivors
  rw [List.filterMap_map]
  exact List.filter_sublist.filterMap Patch.id

/-! ### One instruction -/

theorem qubits_perform (hnd : s.ids.Nodup) (hidle : ∀ p ∈ s.qubits, p.activity = .idle)
    (h : s.perform i = .ok t) :
    t.qubits = s.qubits.map fun p => p.withActivity (i.activityOn p.id) := by
  have hkeep : ∀ p ∈ s.qubits, p = p.withActivity .idle := by
    intro p hp
    rw [← hidle p hp]
    exact p.withActivity_activity.symm
  rcases perform_cases h with ⟨id, a, hi, hset⟩ | ⟨o, _, _, _, _, region, rfl, _, _, rfl⟩ |
    ⟨id, rfl, rfl⟩
  · rw [qubits_setActivity hnd hset]
    apply List.map_congr_left
    intro p hp
    rcases hi with ⟨rfl, rfl⟩ | ⟨rfl, rfl⟩
    all_goals
      by_cases hid : p.id = some id
      · simp only [Instruction.activityOn, if_pos hid]
      · simp only [Instruction.activityOn, if_neg hid]
        exact hkeep p hp
  · exact (List.map_id' _).symm.trans (List.map_congr_left hkeep)
  · exact (List.map_id' _).symm.trans (List.map_congr_left hkeep)

theorem layout_perform (h : s.perform i = .ok t) : t.layout = s.layout := by
  rcases perform_cases h with ⟨_, _, _, hset⟩ | ⟨_, _, _, _, _, _, _, _, _, rfl⟩ | ⟨_, _, rfl⟩
  · obtain ⟨_, -, rfl⟩ := setActivity_eq_ok_iff.1 hset
    rfl
  · rfl
  · rfl

theorem qubits_perform_survivors (hnd : first.ids.Nodup)
    (h : (first.survivors done).perform i = .ok t) :
    t.qubits = (first.qubits.filter (·.survives done)).map
      fun p => p.withActivity (i.activityOn p.id) := by
  have hidle : ∀ p ∈ (first.survivors done).qubits, p.activity = .idle := by
    intro p hp
    obtain ⟨q, -, rfl⟩ := List.mem_map.1 hp
    rfl
  rw [qubits_perform (hnd.sublist ids_survivors_sublist) hidle h]
  show ((first.qubits.filter _).map _).map _ = _
  rw [List.map_map]
  rfl

theorem next_perform_survivors (hnd : first.ids.Nodup)
    (h : (first.survivors done).perform i = .ok t) : t.next = first.survivors (done ++ [i]) := by
  have hqubits : t.next.qubits = (first.survivors (done ++ [i])).qubits := by
    rw [qubits_next, qubits_perform_survivors hnd h, List.filter_map, List.map_map,
      List.filter_filter]
    show _ = (first.qubits.filter _).map _
    congr 2
    funext p
    rw [Bool.eq_iff_iff, Patch.survives_concat, Bool.and_eq_true, and_comm]
    exact and_congr_right fun _ => decide_eq_true_iff
  show (⟨t.layout, t.next.qubits, [], []⟩ : Slice) = _
  rw [hqubits, layout_perform h]
  rfl

end Slice

namespace Timeline

variable {t u : Timeline} {layout : Layout} {first : Slice} {done : List Instruction}
  {i : Instruction}

/-! ### Whole compilations -/

/-- A timeline that starts with the slice `first` and has one more slice for each instruction of
`done`. -/
structure Unrolled (first : Slice) (done : List Instruction) (t : Timeline) : Prop where
  next_eq : t.now.next = first.survivors done
  length_eq : t.slices.length = done.length + 1
  first_eq : t.slices[0]? = some first
  slice_eq : ∀ k i, done[k]? = some i →
    ∃ s, t.slices[k + 1]? = some s ∧ (first.survivors (done.take k)).perform i = .ok s

theorem unrolled_start {qubits : List PatchId} (h : start layout qubits = .ok t) :
    t.Unrolled t.now [] := by
  have hslices : t.slices = [t.now] := by
    unfold slices
    rw [(ids_start h).1, List.nil_append]
  refine ⟨t.now.next_eq_survivors, ?_, ?_, fun k i hi => ?_⟩
  · rw [hslices]
    rfl
  · rw [hslices]
    rfl
  · cases hi

theorem Unrolled.step (hnd : first.ids.Nodup) (h : t.Unrolled first done)
    (hs : t.step i = .ok u) : u.Unrolled first (done ++ [i]) := by
  obtain ⟨s, hperform, rfl⟩ := step_eq_ok_iff.1 hs
  rw [h.next_eq] at hperform
  have hlen := h.length_eq
  refine ⟨Slice.next_perform_survivors hnd hperform, ?_, ?_, fun k j hj => ?_⟩
  · show (t.slices ++ [s]).length = _
    simp only [List.length_append, hlen, List.length_singleton]
  · show (t.slices ++ [s])[0]? = _
    rw [List.getElem?_append_left (by omega)]
    exact h.first_eq
  · show ∃ s', (t.slices ++ [s])[k + 1]? = some s' ∧ _
    rcases Nat.lt_or_ge k done.length with hk | hk
    · rw [List.getElem?_append_left hk] at hj
      rw [List.getElem?_append_left (by omega), List.take_append_of_le_length (Nat.le_of_lt hk)]
      exact h.slice_eq k j hj
    · have hk' : k = done.length := by
        have := (List.getElem?_eq_some_iff.1 hj).1
        rw [List.length_append, List.length_singleton] at this
        omega
      subst hk'
      rw [List.getElem?_concat_length] at hj
      cases hj
      rw [List.take_left' rfl, ← hlen, List.getElem?_concat_length]
      exact ⟨s, rfl, hperform⟩

theorem unrolled_of_compileOn {p : Program} (h : p.compileOn layout = .ok t) :
    ∃ start, Timeline.start layout p.qubits = .ok start ∧
      t.Unrolled start.now p.instructions := by
  obtain ⟨start, hstart, hsteps⟩ := bind_eq_ok_iff.1 h
  obtain ⟨-, hids, hnd⟩ := ids_start hstart
  rw [← hids] at hnd
  refine ⟨start, hstart, ?_⟩
  exact foldlM_induct (fun _ _ _ _ hb hs => Unrolled.step hnd hb hs) p.instructions [] start t
    (unrolled_start hstart) hsteps

/-- **Every compiled slice in closed form.** There is one slice more than instructions. After the
first one, a slice holds the patches of the first that no measurement took before, in their order,
each idle but for the target of the slice's own instruction. The channel of a joint measurement is
the router's answer on those patches alone. -/
theorem slices_of_compileOn {p : Program} (h : p.compileOn layout = .ok t) :
    t.slices.length = p.instructions.length + 1 ∧
    ∃ first, t.slices[0]? = some first ∧ ∀ k i, p.instructions[k]? = some i →
      ∃ s, t.slices[k + 1]? = some s ∧
        s.qubits = (first.qubits.filter (·.survives (p.instructions.take k))).map
          (fun q => q.withActivity (i.activityOn q.id)) ∧
        ∀ o, i = .joint o → ∃ source sourceOp target targetOp region,
          o.factors = [(source, sourceOp), (target, targetOp)] ∧ s.channels = [region] ∧
          (first.survivors (p.instructions.take k)).route source sourceOp target targetOp =
            .ok (some region) := by
  obtain ⟨start, hstart, hunrolled⟩ := unrolled_of_compileOn h
  obtain ⟨-, hids, hnd⟩ := ids_start hstart
  rw [← hids] at hnd
  refine ⟨hunrolled.length_eq, start.now, hunrolled.first_eq, fun k i hi => ?_⟩
  obtain ⟨s, hs, hperform⟩ := hunrolled.slice_eq k i hi
  refine ⟨s, hs, Slice.qubits_perform_survivors hnd hperform, ?_⟩
  rintro o rfl
  rcases Slice.perform_cases hperform with ⟨_, _, hi, _⟩ |
    ⟨_, source, sourceOp, target, targetOp, region, heq, hfactors, hroute, rfl⟩ | ⟨_, hi, _⟩
  · rcases hi with ⟨hi, -⟩ | ⟨hi, -⟩
    · cases hi
    · cases hi
  · cases heq
    exact ⟨source, sourceOp, target, targetOp, region, hfactors, rfl, hroute⟩
  · cases hi

/-- A layout with work going on in its first slice: the second patch is being measured out there and
the third has a Pauli applied. The fourth patch has two cells. -/
def busyLayout : Layout where
  initial := .pure
    [.square (.clamp 0 0), (Patch.square (.clamp 0 2)).withActivity .measurement,
      (Patch.square (.clamp 0 4)).withActivity .unitary,
      { shape := .multi [.bare (.clamp 1 3), .bare (.clamp 1 4)] }]
  extent := .clamp 1 4

/-- A program for `busyLayout` with every kind of instruction, which names three of its patches. -/
def busyProgram : Program where
  qubits := [.clamp 7, .clamp 3, .clamp 5]
  instructions :=
    [.pauli (.clamp 7), .joint (.ofList [(.clamp 7, .z), (.clamp 5, .z)]), .measure (.clamp 7),
      .requestMagic (.clamp 7), .pauli (.clamp 5)]

theorem slices_busyProgram :
    ∃ t s, busyProgram.compileOn busyLayout = .ok t ∧ t.slices[5]? = some s ∧
      s.qubits =
        [{ Patch.square (.clamp 0 4) with id := some (.clamp 5), activity := .unitary },
          { shape := .multi [.bare (.clamp 1 3), .bare (.clamp 1 4)] }] := by
  have hfirst : (busyProgram.compileOn busyLayout).map (·.slices[0]?.map Slice.qubits) =
      .ok (some
        [{ Patch.square (.clamp 0 0) with id := some (.clamp 7) },
          { Patch.square (.clamp 0 2) with id := some (.clamp 3), activity := .measurement },
          { Patch.square (.clamp 0 4) with id := some (.clamp 5), activity := .unitary },
          { shape := .multi [.bare (.clamp 1 3), .bare (.clamp 1 4)] }]) := by
    decide +kernel
  cases h : busyProgram.compileOn busyLayout with
  | error e =>
    rw [h] at hfirst
    cases hfirst
  | ok t =>
    obtain ⟨-, first, hzero, hslices⟩ := slices_of_compileOn h
    obtain ⟨s, hs, hqubits, -⟩ := hslices 4 _ rfl
    simp only [h, Except.map, hzero, Option.map_some, Except.ok.injEq, Option.some.injEq] at hfirst
    refine ⟨t, s, rfl, hs, ?_⟩
    rw [hqubits, hfirst]
    decide

end Timeline

end LatticeSurgery
