import LatticeSurgery.Proofs.Slice.Additions
import LatticeSurgery.Proofs.Timeline.Occupancy

/-!
# The search box along a compilation

The router looks for channels in the box from the origin to the extent of the slice, and the extent counts
the cells of channels as well as those of patches. What keeps it from growing is that the router stays in the
box: a channel that it finds lies within the extent of the patches, so recording it changes nothing
(`extent_perform`). Every slice of a compilation is therefore bounded by its qubit patches alone
(`Slice.Snug`), and since a step forward only drops patches, the extent of a slice lies within that of the
slice before (`extent_next_within`).
-/

namespace LatticeSurgery

namespace Slice

variable {s t : Slice} {c : Cell} {i : Instruction}

/-- The extent is that of the origin and the cells of the qubit patches. -/
def Snug (s : Slice) : Prop := s.extent = s.footprints.flatten.foldl Cell.sup .origin

theorem mem_flatten_footprints : c ∈ s.footprints.flatten ↔ ∃ p ∈ s.qubits, c ∈ p.cells :=
  List.mem_flatMap

theorem patchCells_eq_append :
    s.patchCells = s.footprints.flatten ++ s.magicStates.flatMap Patch.cells :=
  List.flatMap_append

theorem snug_of_bare (hm : s.magicStates = []) (hc : s.channels = []) : s.Snug := by
  unfold Snug extent
  rw [patchCells_eq_flatten hm, channelCells, hc, List.flatMap_nil, List.append_nil]

theorem origin_within_extent : Cell.origin.Within s.extent := Cell.within_foldl_sup _ _

theorem within_extent_of_footprints (hc : c ∈ s.footprints.flatten) : c.Within s.extent := by
  refine within_extent (.inl ?_)
  rw [patchCells_eq_append]
  exact List.mem_append_left _ hc

theorem Snug.extent_within {bound : Cell} (hs : s.Snug) (ho : Cell.origin.Within bound)
    (h : ∀ c ∈ s.footprints.flatten, c.Within bound) : s.extent.Within bound := by
  rw [hs]
  exact Cell.foldl_sup_within ho h

/-! ### One step -/

/-- An instruction leaves the extent as it is: its channel was found within it. -/
theorem extent_perform (h : s.perform i = .ok t) : t.extent = s.extent := by
  rcases perform_cases h with ⟨id, a, -, hset⟩ |
    ⟨o, source, sourceOp, target, targetOp, region, -, -, hroute, rfl⟩ | ⟨id, -, rfl⟩
  · obtain ⟨k, -, ht⟩ := setActivity_eq_ok_iff.1 hset
    have hmagic : t.magicStates = s.magicStates := by rw [ht]
    have hchannels : t.channels = s.channels := by rw [ht]
    unfold extent channelCells
    rw [patchCells_eq_append, patchCells_eq_append, footprints_setActivity hset, hmagic, hchannels]
  · have hadd : s.add (.channel region) = .ok (s.addChannel region) := rfl
    refine extent_add hadd fun c hc => ?_
    exact (Cell.mem_upTo_iff.1 (passable_of_route hroute c hc).1).2
  · rfl

theorem snug_next : s.next.Snug := snug_of_bare rfl rfl

theorem Snug.perform (hs : s.Snug) (h : s.perform i = .ok t) : t.Snug := by
  unfold Snug at hs ⊢
  rw [extent_perform h, footprints_perform h]
  exact hs

theorem extent_next_within : s.next.extent.Within s.extent := by
  apply snug_next.extent_within origin_within_extent
  intro c hc
  obtain ⟨cells, hcells, hc⟩ := List.mem_flatten.1 hc
  apply within_extent_of_footprints
  exact List.mem_flatten.2 ⟨cells, footprints_next.subset hcells, hc⟩

end Slice

namespace Timeline

variable {t u : Timeline} {layout : Layout} {i : Instruction}

/-! ### Whole compilations -/

/-- What holds of the extents along a compilation. -/
structure Shrinking (t : Timeline) : Prop where
  snug : ∀ s ∈ t.slices, s.Snug
  shrinks : t.slices.IsChain fun s s' => s'.extent.Within s.extent

theorem shrinking_start {qubits : List PatchId} (h : start layout qubits = .ok t) : t.Shrinking := by
  obtain ⟨-, -, -, ids, -, rfl⟩ := start_eq_ok_iff.1 h
  refine ⟨forall_mem_slices.2 ⟨by simp, Slice.snug_of_bare rfl rfl⟩, ?_⟩
  exact List.isChain_singleton _

theorem Shrinking.step (h : t.Shrinking) (hs : t.step i = .ok u) : u.Shrinking := by
  obtain ⟨s, hperform, rfl⟩ := step_eq_ok_iff.1 hs
  refine ⟨forall_mem_slices.2 ⟨h.snug, Slice.snug_next.perform hperform⟩, ?_⟩
  have hwithin : s.extent.Within t.now.extent := by
    rw [Slice.extent_perform hperform]
    exact Slice.extent_next_within
  show (t.slices ++ [s]).IsChain _
  refine List.isChain_append.2 ⟨h.shrinks, List.isChain_singleton _, fun x hx y hy => ?_⟩
  unfold slices at hx
  rw [List.getLast?_concat, Option.mem_some] at hx
  rw [List.head?_singleton, Option.mem_some] at hy
  rwa [← hx, ← hy]

theorem shrinking_of_compileOn {p : Program} (h : p.compileOn layout = .ok t) : t.Shrinking := by
  obtain ⟨first, hstart, hsteps⟩ := bind_eq_ok_iff.1 h
  exact foldlM_induct (P := fun _ t => t.Shrinking) (fun _ _ _ _ hb hs => hb.step hs)
    p.instructions [] first t (shrinking_start hstart) hsteps

/-- **The search box never grows.** The extent of every slice of a compilation is the maximum, by rows and by
columns, of the origin and the cells of its qubit patches. It is the least cell that bounds them all, and it
bounds the extent of the slice after. -/
theorem extent_of_compileOn {p : Program} {k : Nat} {s : Slice} (h : p.compileOn layout = .ok t)
    (hs : t.slices[k]? = some s) :
    s.extent = (s.qubits.flatMap Patch.cells).foldl Cell.sup .origin ∧
    (Cell.origin.Within s.extent ∧ ∀ q ∈ s.qubits, ∀ c ∈ q.cells, c.Within s.extent) ∧
    (∀ bound, Cell.origin.Within bound → (∀ q ∈ s.qubits, ∀ c ∈ q.cells, c.Within bound) →
      s.extent.Within bound) ∧
    ∀ s', t.slices[k + 1]? = some s' → s'.extent.Within s.extent := by
  have hshrinking := shrinking_of_compileOn h
  have hsnug := hshrinking.snug s (List.mem_of_getElem? hs)
  refine ⟨hsnug, ⟨Slice.origin_within_extent, fun q hq c hc => ?_⟩, fun bound ho hbound => ?_,
    fun s' hs' => ?_⟩
  · exact Slice.within_extent_of_footprints (Slice.mem_flatten_footprints.2 ⟨q, hq, hc⟩)
  · refine hsnug.extent_within ho fun c hc => ?_
    obtain ⟨q, hq, hcq⟩ := Slice.mem_flatten_footprints.1 hc
    exact hbound q hq c hcq
  · obtain ⟨hk, rfl⟩ := List.getElem?_eq_some_iff.1 hs
    obtain ⟨hk', rfl⟩ := List.getElem?_eq_some_iff.1 hs'
    exact List.isChain_iff_getElem.1 hshrinking.shrinks k hk'

/-- A program that measures out the last qubit of its row between two joint measurements of the others. -/
def trimmingProgram : Program where
  qubits := [.clamp 0, .clamp 1, .clamp 2]
  instructions :=
    [.joint (.ofList [(.clamp 0, .z), (.clamp 1, .z)]), .measure (.clamp 2),
      .joint (.ofList [(.clamp 0, .z), (.clamp 1, .z)])]

/-- The extent goes back with the patch that is measured out, and the channels make no difference to it. -/
theorem extent_trimmingProgram :
    ∃ t s s', trimmingProgram.compile = .ok t ∧ t.slices[2]? = some s ∧ t.slices[3]? = some s' ∧
      s'.extent = (s'.qubits.flatMap Patch.cells).foldl Cell.sup .origin ∧
      s'.extent.Within s.extent ∧ s.extent = .clamp 0 4 ∧ s'.extent = .clamp 0 2 := by
  have hextents : trimmingProgram.compile.map (·.slices.map Slice.extent) =
      .ok [.clamp 0 4, .clamp 0 4, .clamp 0 4, .clamp 0 2] := by
    decide +kernel
  obtain ⟨t, ht, hextents⟩ := map_eq_ok_iff.1 hextents
  have hat : ∀ (k : Nat) (e : Cell), (t.slices.map Slice.extent)[k]? = some e →
      ∃ s : Slice, t.slices[k]? = some s ∧ s.extent = e := by
    intro k e he
    rw [List.getElem?_map] at he
    exact Option.map_eq_some_iff.1 he
  rw [hextents] at hat
  obtain ⟨s, hs, hextent⟩ := hat 2 _ rfl
  obtain ⟨s', hs', hextent'⟩ := hat 3 _ rfl
  obtain ⟨-, -, -, hshrinks⟩ := extent_of_compileOn ht hs
  exact ⟨t, s, s', ht, hs, hs', (extent_of_compileOn ht hs').1, hshrinks s' hs', hextent, hextent'⟩

end Timeline

end LatticeSurgery
