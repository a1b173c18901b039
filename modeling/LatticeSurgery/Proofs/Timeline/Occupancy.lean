import LatticeSurgery.Proofs.Routing.Outcome
import LatticeSurgery.Proofs.Timeline.Steps
import Mathlib.Data.List.Nodup

/-!
# Who is on which cell, over whole runs

Occupancy is audited once, when a compilation starts. Afterwards it rests on three facts: a step
forward keeps every patch on its cells or drops it, a placement uses free cells only, and so does
the router. `Slice.WellPlaced` is what all slices have in common because of that, along every
compilation and every run of edits after it: different patches are on different cells, and the
channel of the slice, of which there is at most one, keeps clear of patches and reserved cells and
visits no cell twice.

A patch that is placed later may name one of its own cells twice, so the audit is a law of the
compiled slices only.
-/

namespace LatticeSurgery

/-- How many channels the slice of an instruction has. -/
def Instruction.channelCount : Instruction → Nat
  | .joint _ => 1
  | .measure _ | .pauli _ | .requestMagic _ => 0

namespace Slice

variable {s t : Slice} {layout : Layout}

/-- What holds of the cells of every slice of a run on the layout. -/
structure WellPlaced (layout : Layout) (s : Slice) : Prop where
  layout_eq : s.layout = layout
  disjoint : s.qubits.Pairwise fun p q => p.cells.Disjoint q.cells
  noMagic : s.magicStates = []
  clear : ∀ r ∈ s.channels, ∀ c ∈ r.cells,
    (∀ p ∈ s.patches, c ∉ p.cells) ∧ ∀ d ∈ layout.reserved, c ∉ d.cells
  nodup : s.channelCells.Nodup
  atMostOne : s.channels.length ≤ 1

/-! ### The cells of the qubit patches -/

/-- The cells of each qubit patch. -/
def footprints (s : Slice) : List (List Cell) := s.qubits.map Patch.cells

theorem patchCells_eq_flatten (h : s.magicStates = []) : s.patchCells = s.footprints.flatten := by
  unfold patchCells patches footprints
  rw [h, List.append_nil, List.flatMap_def]

theorem pairwise_footprints :
    s.footprints.Pairwise List.Disjoint ↔
      s.qubits.Pairwise fun p q => p.cells.Disjoint q.cells :=
  List.pairwise_map

theorem footprints_next : s.next.footprints.Sublist s.footprints := by
  unfold footprints
  rw [qubits_next, List.map_map]
  exact List.filter_sublist.map Patch.cells

theorem footprints_setActivity {id : PatchId} {a : Activity} (h : s.setActivity id a = .ok t) :
    t.footprints = s.footprints := by
  obtain ⟨i, -, rfl⟩ := setActivity_eq_ok_iff.1 h
  unfold footprints
  apply List.ext_getElem?
  intro k
  simp only [List.getElem?_map, List.getElem?_modify]
  cases s.qubits[k]? with
  | none => rfl
  | some p => split <;> rfl

theorem footprints_assignIds (ids : List (Option PatchId)) :
    (s.assignIds ids).footprints = s.footprints := by
  unfold footprints assignIds
  apply List.ext_getElem?
  intro k
  simp only [List.getElem?_map, List.getElem?_mapIdx, Option.map_map]
  rfl

theorem footprints_perform {i : Instruction} (h : s.perform i = .ok t) :
    t.footprints = s.footprints := by
  rcases perform_cases h with ⟨_, _, _, hset⟩ | ⟨_, _, _, _, _, _, _, _, _, rfl⟩ | ⟨_, _, rfl⟩
  · exact footprints_setActivity hset
  · rfl
  · rfl

theorem audit_eq_ok_iff_footprints (hm : s.magicStates = []) :
    s.audit = .ok () ↔
      (∀ cells ∈ s.footprints, cells.Nodup) ∧ s.footprints.Pairwise List.Disjoint := by
  rw [audit_eq_ok_iff, patchCells_eq_flatten hm, List.nodup_flatten]

theorem audit_of_sublist (hs : s.magicStates = []) (ht : t.magicStates = [])
    (h : t.footprints.Sublist s.footprints) (ha : s.audit = .ok ()) : t.audit = .ok () := by
  rw [audit_eq_ok_iff_footprints hs] at ha
  rw [audit_eq_ok_iff_footprints ht]
  exact ⟨fun cells hcells => ha.1 cells (h.subset hcells), ha.2.sublist h⟩

/-! ### What keeps the invariant -/

theorem wellPlaced_of_channels_eq_nil (hl : s.layout = layout)
    (hd : s.footprints.Pairwise List.Disjoint) (hm : s.magicStates = []) (hc : s.channels = []) :
    s.WellPlaced layout where
  layout_eq := hl
  disjoint := pairwise_footprints.1 hd
  noMagic := hm
  clear := by simp [hc]
  nodup := by simp [channelCells, hc]
  atMostOne := by simp [hc]

theorem WellPlaced.next (h : s.WellPlaced layout) : s.next.WellPlaced layout :=
  wellPlaced_of_channels_eq_nil h.layout_eq
    ((pairwise_footprints.2 h.disjoint).sublist footprints_next) rfl rfl

/-- The router puts a channel on free cells only and on none of them twice. -/
theorem WellPlaced.addChannel {source target : PatchId} {sourceOp targetOp : Pauli}
    {region : Region} (h : s.WellPlaced layout) (hc : s.channels = [])
    (hr : s.route source sourceOp target targetOp = .ok (some region)) :
    (s.addChannel region).WellPlaced layout := by
  have hchannels : (s.addChannel region).channels = [region] := by
    show s.channels ++ [region] = _
    rw [hc, List.nil_append]
  refine ⟨h.layout_eq, h.disjoint, h.noMagic, ?_, ?_, ?_⟩
  · intro r hmem c hcell
    rw [hchannels, List.mem_singleton] at hmem
    subst hmem
    obtain ⟨hreserved, hpatch, -⟩ := isFree_iff_forall.1 (passable_of_route hr c hcell).2
    rw [h.layout_eq] at hreserved
    exact ⟨hpatch, hreserved⟩
  · unfold channelCells
    rw [hchannels, List.flatMap_singleton]
    exact nodup_of_route hr
  · rw [hchannels]
    exact Nat.le_refl 1

theorem WellPlaced.perform {i : Instruction} (h : s.WellPlaced layout) (hc : s.channels = [])
    (hp : s.perform i = .ok t) : t.WellPlaced layout ∧ t.channels.length = i.channelCount := by
  rcases perform_cases hp with ⟨id, a, hi, hset⟩ | ⟨o, _, _, _, _, region, rfl, _, hroute, rfl⟩ |
    ⟨id, rfl, rfl⟩
  · have hfoot : t.footprints.Pairwise List.Disjoint := by
      rw [footprints_setActivity hset]
      exact pairwise_footprints.2 h.disjoint
    obtain ⟨k, -, rfl⟩ := setActivity_eq_ok_iff.1 hset
    refine ⟨wellPlaced_of_channels_eq_nil h.layout_eq hfoot h.noMagic hc, ?_⟩
    rcases hi with ⟨rfl, -⟩ | ⟨rfl, -⟩
    · exact congrArg List.length hc
    · exact congrArg List.length hc
  · refine ⟨h.addChannel hc hroute, ?_⟩
    show (s.channels ++ [region]).length = 1
    rw [hc]
    rfl
  · exact ⟨h, congrArg List.length hc⟩

theorem WellPlaced.placeQubit {p : Patch} (h : s.WellPlaced layout) (hp : s.placeQubit p = .ok t) :
    t.WellPlaced layout := by
  obtain ⟨hfree, rfl⟩ := placeQubit_eq_ok_iff.1 hp
  have hclearing := fun c hc => isFree_iff_forall.1 (hfree c hc)
  refine ⟨h.layout_eq, ?_, h.noMagic, ?_, h.nodup, h.atMostOne⟩
  · refine List.pairwise_append.2 ⟨h.disjoint, List.pairwise_singleton _ _, ?_⟩
    intro q hq p' hp' c hcq hcp
    rw [List.mem_singleton] at hp'
    subst hp'
    exact (hclearing c hcp).2.1 q (List.mem_append_left _ hq) hcq
  · intro r hr c hc
    obtain ⟨hclear, hreserved⟩ := h.clear r hr c hc
    refine ⟨fun q hq => ?_, hreserved⟩
    unfold patches at hq hclear
    simp only [List.mem_append, List.mem_singleton] at hq hclear
    rcases hq with (hq | rfl) | hq
    · exact hclear q (.inl hq)
    · intro hcq
      exact (hclearing c hcq).2.2 r hr hc
    · exact hclear q (.inr hq)

end Slice

namespace Timeline

variable {t u : Timeline} {layout : Layout}

/-! ### Compilations -/

/-- What holds of a timeline once the instructions in `done` are compiled. -/
structure Compiled (layout : Layout) (done : List Instruction) (t : Timeline) : Prop where
  placed : ∀ s ∈ t.slices, s.WellPlaced layout
  audited : ∀ s ∈ t.slices, s.audit = .ok ()
  counts : t.slices.map (·.channels.length) = 0 :: done.map Instruction.channelCount

theorem compiled_start {qubits : List PatchId} (h : start layout qubits = .ok t) :
    t.Compiled layout [] := by
  obtain ⟨-, -, haudit, ids, -, rfl⟩ := start_eq_ok_iff.1 h
  have hfoot := Slice.footprints_assignIds (s := .ofLayout layout) (qubits.map some)
  have hplaced : ((Slice.ofLayout layout).assignIds (qubits.map some)).WellPlaced layout := by
    refine Slice.wellPlaced_of_channels_eq_nil rfl ?_ rfl rfl
    rw [hfoot]
    exact ((Slice.audit_eq_ok_iff_footprints rfl).1 haudit).2
  have haudited : ((Slice.ofLayout layout).assignIds (qubits.map some)).audit = .ok () := by
    refine Slice.audit_of_sublist rfl rfl ?_ haudit
    rw [hfoot]
  refine ⟨forall_mem_slices.2 ⟨by simp, hplaced⟩, forall_mem_slices.2 ⟨by simp, haudited⟩, rfl⟩

theorem Compiled.step {done : List Instruction} {i : Instruction} (h : t.Compiled layout done)
    (hs : t.step i = .ok u) : u.Compiled layout (done ++ [i]) := by
  obtain ⟨s, hperform, rfl⟩ := step_eq_ok_iff.1 hs
  have hnow := (forall_mem_slices.1 h.placed).2
  obtain ⟨hplaced, hcount⟩ := hnow.next.perform rfl hperform
  have hsub : s.footprints.Sublist t.now.footprints := by
    rw [Slice.footprints_perform hperform]
    exact Slice.footprints_next
  have haudit := Slice.audit_of_sublist hnow.noMagic hplaced.noMagic hsub
    (forall_mem_slices.1 h.audited).2
  refine ⟨forall_mem_slices.2 ⟨h.placed, hplaced⟩, forall_mem_slices.2 ⟨h.audited, haudit⟩, ?_⟩
  show (t.slices ++ [s]).map _ = _
  rw [List.map_append, h.counts, List.map_append]
  simp [hcount]

theorem compiled_of_compileOn {p : Program} (h : p.compileOn layout = .ok t) :
    t.Compiled layout p.instructions := by
  obtain ⟨first, hstart, hsteps⟩ := bind_eq_ok_iff.1 h
  exact foldlM_induct (fun _ _ _ _ hb hs => Compiled.step hb hs) p.instructions [] first t
    (compiled_start hstart) hsteps

/-! ### Edits -/

/-- What holds of a timeline after edits; its channel counts begin with those of the compilation. -/
structure Edited (layout : Layout) (counts : List Nat) (t : Timeline) : Prop where
  placed : ∀ s ∈ t.slices, s.WellPlaced layout
  counts_isPrefix : counts <+: t.slices.map (·.channels.length)

theorem Edited.advance {counts : List Nat} (h : t.Edited layout counts) :
    t.advance.Edited layout counts := by
  have hnow := (forall_mem_slices.1 h.placed).2
  refine ⟨forall_mem_slices.2 ⟨h.placed, hnow.next⟩, ?_⟩
  show counts <+: (t.slices ++ [t.now.next]).map _
  rw [List.map_append]
  exact h.counts_isPrefix.trans (List.prefix_append _ _)

theorem Edited.placeQubit {counts : List Nat} {p : Patch} {id : PatchId}
    (h : t.Edited layout counts) (hp : t.placeQubit p = .ok (id, u)) : u.Edited layout counts := by
  obtain ⟨now, ids, hnow, -, rfl⟩ := placeQubit_eq_ok_iff.1 hp
  obtain ⟨hpast, hlast⟩ := forall_mem_slices.1 h.placed
  refine ⟨forall_mem_slices.2 ⟨hpast, hlast.placeQubit hnow⟩, ?_⟩
  obtain ⟨-, rfl⟩ := Slice.placeQubit_eq_ok_iff.1 hnow
  -- a placement adds no channel
  have hcounts := h.counts_isPrefix
  unfold slices at hcounts ⊢
  rwa [List.map_append] at hcounts ⊢

theorem edited_run {done : List Instruction} (h : t.Compiled layout done) (edits : List Edit) :
    (t.run edits).Edited layout (0 :: done.map Instruction.channelCount) := by
  apply run_induct
  · exact fun t ht => ht.advance
  · exact fun t u p id ht hp => ht.placeQubit hp
  · exact ⟨h.placed, h.counts ▸ List.prefix_refl _⟩

/-- **Occupancy over whole runs.** After every compilation and every run of edits, all slices are
well placed. The slice of an instruction has one channel if the instruction measures jointly, and
none otherwise. The slices of the compilation itself pass the audit. -/
theorem wellPlaced_run {p : Program} (h : p.compileOn layout = .ok t) (edits : List Edit) :
    (∀ s ∈ (t.run edits).slices, s.WellPlaced layout) ∧
    (∀ k i, p.instructions[k]? = some i →
      ∃ s, (t.run edits).slices[k + 1]? = some s ∧ s.channels.length = i.channelCount) ∧
    (∀ s ∈ t.slices, s.audit = .ok ()) := by
  have hcompiled := compiled_of_compileOn h
  have hedited := edited_run hcompiled edits
  refine ⟨hedited.placed, fun k i hi => ?_, hcompiled.audited⟩
  obtain ⟨rest, hrest⟩ := hedited.counts_isPrefix
  have hcount : ((t.run edits).slices.map (·.channels.length))[k + 1]? = some i.channelCount := by
    have hk : k < p.instructions.length := (List.getElem?_eq_some_iff.1 hi).1
    rw [← hrest, List.cons_append, List.getElem?_cons_succ,
      List.getElem?_append_left (by simpa using hk), List.getElem?_map, hi, Option.map_some]
  rw [List.getElem?_map] at hcount
  exact Option.map_eq_some_iff.1 hcount

/-- A program that measures its outer qubits jointly once the one between them is gone. -/
def clearingProgram : Program where
  qubits := [.clamp 0, .clamp 1, .clamp 2]
  instructions :=
    [.joint (.ofList [(.clamp 0, .z), (.clamp 1, .z)]), .measure (.clamp 1),
      .requestMagic (.clamp 1), .joint (.ofList [(.clamp 2, .z), (.clamp 0, .z)])]

/-- Edits of which the first is refused: its patch stands in the channel of the last slice. -/
def clearingEdits : List Edit :=
  [.place (.square (.clamp 0 2)), .newSlice, .place (.square (.clamp 0 2))]

theorem wellPlaced_clearingProgram :
    ∃ t, clearingProgram.compile = .ok t ∧
      (∀ s ∈ (t.run clearingEdits).slices,
        s.WellPlaced clearingProgram.defaultLayout.toLayout) ∧
      ∃ s, (t.run clearingEdits).slices[4]? = some s ∧ s.channels.length = 1 := by
  have hok : clearingProgram.compile.isOk = true := by decide +kernel
  cases h : clearingProgram.compile with
  | error e =>
    rw [h] at hok
    cases hok
  | ok t =>
    obtain ⟨hplaced, hcounts, -⟩ := wellPlaced_run h clearingEdits
    exact ⟨t, rfl, hplaced, hcounts 3 _ rfl⟩

end Timeline

end LatticeSurgery
