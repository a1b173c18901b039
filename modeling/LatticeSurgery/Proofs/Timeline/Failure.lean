import LatticeSurgery.Proofs.Routing.Outcome
import LatticeSurgery.Proofs.Timeline.Survivors

/-!
# Which instruction fails, and how

Whether an instruction can be carried out depends on the instructions before it only through the
patches that they measured out. `Slice.instructionFault?` is its fault, read off the first slice and
the list of the instructions before it: an id that is not live is blamed, the checks of a joint
measurement have a fixed order, and a request for a magic state is never at fault. A compilation fails
exactly when one of its instructions has a fault, and it reports the first one.
-/

namespace LatticeSurgery

namespace Slice

variable {s first : Slice} {declared : List PatchId} {done : List Instruction} {id : PatchId}

/-! ### Faults of instructions -/

/-- An id is live after the instructions in `done`: it is declared, its patch is not measured out in
the first slice, and none of the instructions measured it out. -/
def Live (first : Slice) (declared : List PatchId) (done : List Instruction) (id : PatchId) : Prop :=
  id ∈ declared ∧ (∀ p ∈ first.qubits, p.id = some id → p.activity ≠ .measurement) ∧
    .measure id ∉ done

instance : Decidable (first.Live declared done id) := inferInstanceAs (Decidable (_ ∧ _ ∧ _))

/-- The fault of an end of a channel: its id is not live, or its patch has several cells. -/
def endFault? (first : Slice) (declared : List PatchId) (done : List Instruction) (id : PatchId) :
    Option Fault :=
  if ¬ first.Live declared done id then some (.unknownPatch id)
  else if ∃ p ∈ first.qubits, p.id = some id ∧ p.singleTile? = none then some (.severalCells id)
  else none

/-- The fault of an instruction after those in `done`. -/
def instructionFault? (first : Slice) (declared : List PatchId) (done : List Instruction) :
    Instruction → Option Fault
  | .measure target | .pauli target =>
    if first.Live declared done target then none else some (.unknownPatch target)
  | .requestMagic _ => none
  | .joint o =>
    match o.factors with
    | [(smaller, smallerOp), (larger, largerOp)] =>
      smallerOp.fault?.or <| largerOp.fault?.or <|
        (first.endFault? declared done smaller).or <| (first.endFault? declared done larger).or <|
          if (first.survivors done).route smaller smallerOp larger largerOp = .ok none then
            some (.noRoute smaller larger)
          else none
    | factors => some (.wrongArity factors.length)

/-! ### Live ids are the ids of the survivors -/

theorem mem_ids_survivors :
    id ∈ (first.survivors done).ids ↔ ∃ p ∈ first.qubits, p.id = some id ∧ p.survives done := by
  unfold ids survivors
  simp only [List.filterMap_map, List.mem_filterMap, List.mem_filter, Function.comp_apply,
    Patch.id_withActivity]
  constructor
  · intro h
    obtain ⟨p, ⟨hp, hs⟩, hid⟩ := h
    exact ⟨p, hp, hid, hs⟩
  · intro h
    obtain ⟨p, hp, hid, hs⟩ := h
    exact ⟨p, ⟨hp, hs⟩, hid⟩

theorem live_iff (hnd : first.ids.Nodup) :
    first.Live first.ids done id ↔ id ∈ (first.survivors done).ids := by
  rw [mem_ids_survivors]
  unfold Live
  simp only [Patch.survives_iff]
  constructor
  · intro hlive
    obtain ⟨hid, hactive, hdone⟩ := hlive
    obtain ⟨p, hp, hpid⟩ := mem_ids.1 hid
    refine ⟨p, hp, hpid, hactive p hp hpid, fun id' hid' => ?_⟩
    cases hpid.symm.trans hid'
    exact hdone
  · intro hsurvivor
    obtain ⟨p, hp, hpid, hactive, hdone⟩ := hsurvivor
    refine ⟨mem_ids.2 ⟨p, hp, hpid⟩, fun q hq hqid => ?_, hdone id hpid⟩
    rwa [← eq_of_id_eq hnd hp hq hpid hqid]

theorem patchFault?_survivors (hnd : first.ids.Nodup) :
    (first.survivors done).patchFault? id = first.endFault? first.ids done id := by
  have hnd' : (first.survivors done).ids.Nodup := hnd.sublist ids_survivors_sublist
  have habsent : (∀ p ∈ (first.survivors done).qubits, p.id ≠ some id) ↔
      ¬ first.Live first.ids done id := by
    rw [live_iff hnd, mem_ids]
    simp
  unfold patchFault? endFault?
  simp only [habsent]
  split
  · rfl
  · next hlive =>
    rw [not_not, live_iff hnd, mem_ids_survivors] at hlive
    obtain ⟨p, hp, hpid, hps⟩ := hlive
    have hq : p.withActivity .idle ∈ (first.survivors done).qubits :=
      List.mem_map.2 ⟨p, List.mem_filter.2 ⟨hp, hps⟩, rfl⟩
    -- the patch that is found is the one of the first slice, whatever its activity was there
    have hfind : (first.survivors done).qubits.find? (·.id = some id) =
        some (p.withActivity .idle) :=
      (find?_eq_some_iff_of_nodup hnd').2 ⟨hq, hpid⟩
    have hmulti : (∃ q ∈ first.qubits, q.id = some id ∧ q.singleTile? = none) ↔
        p.singleTile? = none := by
      constructor
      · intro hmulti
        obtain ⟨q, hq, hqid, hqt⟩ := hmulti
        rwa [eq_of_id_eq hnd hp hq hpid hqid]
      · exact fun h => ⟨p, hp, hpid, h⟩
    simp only [hfind, Option.any_some, Patch.singleTile?_withActivity, Option.isNone_iff_eq_none,
      hmulti]

/-! ### What the survivors allow -/

theorem measureJointly_eq_error_iff {o : Observable} {source target : PatchId}
    {sourceOp targetOp : Pauli} (ho : o.factors = [(source, sourceOp), (target, targetOp)])
    (e : Fault) :
    s.measureJointly o = .error e ↔
      ((s.routeFault? source sourceOp target targetOp).or
        (if s.route source sourceOp target targetOp = .ok none then some (.noRoute source target)
        else none)) = some e := by
  unfold measureJointly
  rw [ho]
  refine bind_eq_error_iff_or route_eq_error_iff (fun answer hanswer e => ?_) e
  cases answer with
  | none => simp [hanswer]
  | some region => simp [hanswer]

theorem measureJointly_fault_cases {o : Observable} {e : Fault} (h : s.measureJointly o = .error e) :
    (o.factors.length ≠ 2 ∧ e = .wrongArity o.factors.length) ∨ (∃ op, e = .noEdgeFor op) ∨
      (∃ id, e = .unknownPatch id ∨ e = .severalCells id) ∨ ∃ source target, e = .noRoute source target := by
  by_cases hlength : o.factors.length = 2
  · obtain ⟨⟨source, sourceOp⟩, ⟨target, targetOp⟩, ho⟩ := List.length_eq_two.1 hlength
    rw [measureJointly_eq_error_iff ho, Option.or_eq_some_iff] at h
    rcases h with h | ⟨-, h⟩
    · exact .inr ((routeFault?_cases h).imp_right .inl)
    · split at h
      · exact .inr (.inr (.inr ⟨source, target, (Option.some.inj h).symm⟩))
      · cases h
  · rw [measureJointly_of_length_ne hlength] at h
    exact .inl ⟨hlength, (Except.error.inj h).symm⟩

theorem perform_survivors_eq_error_iff {i : Instruction} (hnd : first.ids.Nodup) (e : Fault) :
    (first.survivors done).perform i = .error e ↔
      first.instructionFault? first.ids done i = some e := by
  have hset : ∀ target a, (first.survivors done).setActivity target a = .error e ↔
      (if first.Live first.ids done target then none else some (Fault.unknownPatch target)) =
        some e := by
    intro target a
    rw [setActivity_eq_error_iff, ← live_iff hnd]
    split
    · next h => simp [h]
    · next h => simp [h, eq_comm]
  cases i with
  | measure target => exact hset target .measurement
  | pauli target => exact hset target .unitary
  | requestMagic target => simp [perform, instructionFault?]
  | joint o =>
    show (first.survivors done).measureJointly o = .error e ↔ _
    simp only [instructionFault?]
    split
    · next ho =>
      rw [measureJointly_eq_error_iff ho, routeFault?, patchFault?_survivors hnd,
        patchFault?_survivors hnd, Option.or_assoc, Option.or_assoc, Option.or_assoc]
    · next hother =>
      unfold measureJointly
      split
      · next ho => exact absurd ho (hother _ _ _ _)
      · simp

end Slice

namespace Timeline

variable {t : Timeline} {layout : Layout}

theorem step_eq_error_iff {i : Instruction} (e : Fault) :
    t.step i = .error e ↔ t.now.next.perform i = .error e := by
  unfold step
  exact bind_pure_eq_error_iff

/-- **Failure of a compilation.** Once the declared qubits are in place, a compilation fails exactly
when one of the instructions has a fault, and with the fault of the first that has one. -/
theorem compileOn_fails_iff {qubits : List PatchId} (h : start layout qubits = .ok t)
    (instructions : List Instruction) :
    ((∃ e, Program.compileOn ⟨qubits, instructions⟩ layout = .error e) ↔
      ∃ k i, instructions[k]? = some i ∧
        t.now.instructionFault? qubits (instructions.take k) i ≠ none) ∧
    ∀ e, Program.compileOn ⟨qubits, instructions⟩ layout = .error e ↔
      ∃ k i, instructions[k]? = some i ∧
        t.now.instructionFault? qubits (instructions.take k) i = some e ∧
        ∀ j < k, ∀ i', instructions[j]? = some i' →
          t.now.instructionFault? qubits (instructions.take j) i' = none := by
  obtain ⟨-, hids, hnd⟩ := ids_start h
  subst hids
  have hfirst : ∀ e, Program.compileOn ⟨t.now.ids, instructions⟩ layout = .error e ↔
      firstFault? (t.now.instructionFault? t.now.ids) [] instructions = some e := by
    intro e
    unfold Program.compileOn
    rw [h, ok_bind]
    refine foldlM_eq_error_iff (fun _ _ _ _ hb hs => Unrolled.step hnd hb hs)
      (fun done i u hu e => ?_) instructions [] t (unrolled_start h) e
    rw [step_eq_error_iff, hu.next_eq, Slice.perform_survivors_eq_error_iff hnd]
  have hexact := fun e => (hfirst e).trans (firstFault?_eq_some_iff instructions [])
  simp only [List.nil_append] at hexact
  refine ⟨?_, hexact⟩
  constructor
  · intro hfails
    obtain ⟨e, he⟩ := hfails
    obtain ⟨k, i, hi, hk, -⟩ := (hexact e).1 he
    exact ⟨k, i, hi, by rw [hk]; exact Option.some_ne_none e⟩
  · intro hfault
    obtain ⟨k, i, hi, hk⟩ := hfault
    cases hc : Program.compileOn ⟨t.now.ids, instructions⟩ layout with
    | error e => exact ⟨e, rfl⟩
    | ok u =>
      -- then the instruction was carried out
      obtain ⟨start, hstart, hunrolled⟩ := unrolled_of_compileOn hc
      cases h.symm.trans hstart
      obtain ⟨s, -, hperform⟩ := hunrolled.slice_eq k i hi
      obtain ⟨e, he⟩ := Option.ne_none_iff_exists'.1 hk
      rw [(Slice.perform_survivors_eq_error_iff hnd e).2 he] at hperform
      cases hperform

/-- Of three instructions on patches that are gone, the request is let through and the joint
measurement is blamed, not the Pauli after it. -/
theorem compileOn_fails_busyLayout :
    ∃ t, start busyLayout busyProgram.qubits = .ok t ∧
      Program.compileOn ⟨busyProgram.qubits,
        [.measure (.clamp 5), .requestMagic (.clamp 5),
          .joint (.ofList [(.clamp 7, .z), (.clamp 5, .z)]), .pauli (.clamp 3)]⟩ busyLayout =
        .error (.unknownPatch (.clamp 5)) := by
  have hstart : start busyLayout busyProgram.qubits =
      .ok ⟨[], (Slice.ofLayout busyLayout).assignIds (busyProgram.qubits.map some),
        ⟨.clamp 8⟩⟩ :=
    start_eq_ok_iff.2 ⟨by decide +kernel, by decide, by decide +kernel, ⟨.clamp 8⟩,
      by decide +kernel, rfl⟩
  refine ⟨_, hstart, ((compileOn_fails_iff hstart _).2 _).2 ⟨2, _, rfl, by decide +kernel, ?_⟩⟩
  intro j hj i hi
  have hcases : j = 0 ∨ j = 1 := by omega
  rcases hcases with rfl | rfl
  · cases hi
    decide +kernel
  · cases hi
    decide +kernel

end Timeline

end LatticeSurgery
