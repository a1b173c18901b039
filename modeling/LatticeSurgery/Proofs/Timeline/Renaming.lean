import LatticeSurgery.Proofs.Program.Renaming
import LatticeSurgery.Proofs.Routing.Comparison
import LatticeSurgery.Proofs.Timeline.Occupancy
import LatticeSurgery.Proofs.Timeline.Replay

/-!
# Ids are only names

A compilation looks ids up and compares them, and nothing else. So the slices of a renamed program are
the renamed slices, with one exception: a joint measurement routes from the smaller id to the larger, and
a renaming that exchanges the two exchanges the ends of the channel. The router then answers another
request, for which it finds a channel exactly when it did before, and one of the same length
(`perform_rename`).

The largest id must not be declared under either name, since a compilation needs an id above all declared
ones.
-/

namespace LatticeSurgery

/-- The patch under its new name. -/
def Patch.rename (π : Equiv.Perm PatchId) (p : Patch) : Patch := { p with id := p.id.map π }

namespace Patch

variable {π : Equiv.Perm PatchId} {p : Patch} {id : PatchId}

theorem id_rename_eq_some_iff : (p.rename π).id = some (π id) ↔ p.id = some id := by
  show p.id.map π = some (π id) ↔ _
  rw [← Option.map_some, (Option.map_injective π.injective).eq_iff]

theorem decide_id_rename :
    ((fun p : Patch => decide (p.id = some (π id))) ∘ rename π) =
      fun p => decide (p.id = some id) := by
  funext p
  exact decide_eq_decide.2 id_rename_eq_some_iff

end Patch

namespace Slice

variable {π : Equiv.Perm PatchId} {s s' t : Slice} {id source target : PatchId}
  {sourceOp targetOp : Pauli} {i : Instruction}

/-- The slice with all its patches under their new names. -/
def rename (π : Equiv.Perm PatchId) (s : Slice) : Slice :=
  { s with qubits := s.qubits.map (·.rename π), magicStates := s.magicStates.map (·.rename π) }

/-- The slices have the same patches in the same order but for their names, and as many channels of the
same lengths. -/
structure Renamed (π : Equiv.Perm PatchId) (s s' : Slice) : Prop where
  layout_eq : s'.layout = s.layout
  qubits_eq : s'.qubits = s.qubits.map (·.rename π)
  lengths_eq : s'.channels.map (·.tiles.length) = s.channels.map (·.tiles.length)

theorem renamed_rename (π : Equiv.Perm PatchId) (s : Slice) : s.Renamed π (s.rename π) :=
  ⟨rfl, rfl, rfl⟩

theorem Renamed.next (h : s.Renamed π s') : s'.next = s.next.rename π := by
  have hqubits : s'.next.qubits = (s.next.rename π).qubits := by
    show _ = s.next.qubits.map _
    rw [qubits_next, qubits_next, h.qubits_eq, List.filter_map, List.map_map, List.map_map]
    rfl
  show (⟨s'.layout, s'.next.qubits, [], []⟩ : Slice) = _
  rw [h.layout_eq, hqubits]
  rfl

/-! ### What does not depend on names -/

theorem patchCells_rename : (s.rename π).patchCells = s.patchCells := by
  show (s.qubits.map _ ++ s.magicStates.map _).flatMap Patch.cells = _
  rw [← List.map_append, List.flatMap_map]
  rfl

theorem extent_rename : (s.rename π).extent = s.extent := by
  unfold extent
  rw [patchCells_rename]
  rfl

theorem isFree_rename : (s.rename π).isFree = s.isFree := by
  funext c
  rw [Bool.eq_iff_iff, isFree_iff, isFree_iff, patchCells_rename]
  rfl

theorem tile?_rename : (s.rename π).tile? (π id) = s.tile? id := by
  unfold tile?
  show ((s.qubits.map (·.rename π)).find? _).bind _ = _
  rw [List.find?_map, Patch.decide_id_rename]
  cases s.qubits.find? (·.id = some id) with
  | none => rfl
  | some p => rfl

theorem setActivity_rename {a : Activity} (h : s.setActivity id a = .ok t) :
    (s.rename π).setActivity (π id) a = .ok (t.rename π) := by
  obtain ⟨k, hk, rfl⟩ := setActivity_eq_ok_iff.1 h
  refine setActivity_eq_ok_iff.2 ⟨k, ?_, ?_⟩
  · show (s.qubits.map (·.rename π)).findIdx? _ = _
    rw [List.findIdx?_map, Patch.decide_id_rename, hk]
  · have hmodify : (s.qubits.modify k fun p => { p with activity := a }).map (·.rename π) =
        (s.qubits.map (·.rename π)).modify k fun p => { p with activity := a } := by
      apply List.ext_getElem?
      intro j
      simp only [List.getElem?_map, List.getElem?_modify]
      cases s.qubits[j]? with
      | none => rfl
      | some p => split <;> rfl
    unfold rename
    rw [hmodify]

theorem route_rename {answer : Option Region}
    (h : s.route source sourceOp target targetOp = .ok answer) :
    (s.rename π).route (π source) sourceOp (π target) targetOp = .ok answer := by
  obtain ⟨r, hr, hanswer⟩ := route_eq_ok_iff.1 h
  refine route_eq_ok_iff.2 ⟨r, ?_, hanswer⟩
  obtain ⟨sourceKind, targetKind, a, b, hsk, htk, ha, hb, rfl⟩ := channelRequest_eq_ok_iff.1 hr
  refine channelRequest_eq_ok_iff.2 ⟨sourceKind, targetKind, a, b, hsk, htk, ?_, ?_, ?_⟩
  · rw [tile?_rename, ha]
  · rw [tile?_rename, hb]
  · rw [extent_rename, isFree_rename]
    simp only [ne_eq, π.injective.eq_iff]

/-! ### One instruction -/

/-- The channel of a renamed joint measurement: the same one if the order of the two patches is kept, and
one of the same length if it is not. -/
theorem measureJointly_rename {o : Observable} {region : Region}
    (ho : o.factors = [(source, sourceOp), (target, targetOp)])
    (h : s.route source sourceOp target targetOp = .ok (some region)) :
    ∃ region', (s.rename π).measureJointly (o.rename π) = .ok ((s.rename π).addChannel region') ∧
      region'.tiles.length = region.tiles.length ∧
      (o.factors.Pairwise (fun f g => π f.1 < π g.1) → region' = region) := by
  have hne : source ≠ target := by
    have hincreasing := o.increasing
    rw [ho, List.pairwise_pair] at hincreasing
    intro heq
    exact PatchId.lt_irrefl target (heq ▸ hincreasing)
  rcases PatchId.lt_trichotomy (π source) (π target) with hlt | heq | hgt
  · have hkept : o.factors.Pairwise fun f g => π f.1 < π g.1 := by
      rw [ho]
      exact List.pairwise_pair.2 hlt
    have hfactors := Observable.factors_rename_of_pairwise hkept
    rw [ho] at hfactors
    exact ⟨region, measureJointly_eq hfactors (route_rename h), rfl, fun _ => rfl⟩
  · exact absurd (π.injective heq) hne
  · have hfactors := Observable.factors_rename_of_gt ho hgt
    obtain ⟨region', hregion', hlen⟩ := exists_route_swap h
    refine ⟨region', measureJointly_eq hfactors (route_rename hregion'), hlen, fun hkept => ?_⟩
    rw [ho, List.pairwise_pair] at hkept
    exact absurd (PatchId.lt_trans hkept hgt) (PatchId.lt_irrefl _)

theorem perform_rename (π : Equiv.Perm PatchId) (h : s.perform i = .ok t) :
    ∃ t', (s.rename π).perform (i.rename π) = .ok t' ∧ t.Renamed π t' ∧
      (i.KeepsOrder π → t'.channels = t.channels) := by
  rcases perform_cases h with ⟨id, a, hi, hset⟩ |
    ⟨o, source, sourceOp, target, targetOp, region, rfl, ho, hroute, rfl⟩ | ⟨id, rfl, rfl⟩
  · refine ⟨t.rename π, ?_, t.renamed_rename π, fun _ => rfl⟩
    rcases hi with ⟨rfl, rfl⟩ | ⟨rfl, rfl⟩
    · exact setActivity_rename hset
    · exact setActivity_rename hset
  · obtain ⟨region', hregion', hlen, hkept⟩ := measureJointly_rename (π := π) ho hroute
    refine ⟨_, hregion', ⟨rfl, rfl, ?_⟩, fun hkeeps => ?_⟩
    · show (s.channels ++ [region']).map _ = (s.channels ++ [region]).map _
      rw [List.map_append, List.map_append, List.map_singleton, List.map_singleton, hlen]
    · show s.channels ++ [region'] = s.channels ++ [region]
      rw [hkept hkeeps]
  · exact ⟨t.rename π, rfl, t.renamed_rename π, fun _ => rfl⟩

theorem assignIds_rename (s : Slice) (hs : s.magicStates = []) (names : List PatchId) :
    s.assignIds ((names.map π).map some) = (s.assignIds (names.map some)).rename π := by
  have hqubits : (s.assignIds ((names.map π).map some)).qubits =
      (s.assignIds (names.map some)).qubits.map (·.rename π) := by
    rw [qubits_assignIds, qubits_assignIds]
    apply List.ext_getElem?
    intro k
    simp only [List.getElem?_map, List.getElem?_mapIdx, Option.map_map]
    rfl
  have hmagic : (s.assignIds (names.map some)).magicStates.map (·.rename π) = s.magicStates := by
    show s.magicStates.map _ = _
    rw [hs]
    rfl
  unfold rename
  rw [← hqubits, hmagic]
  rfl

end Slice

namespace Timeline

variable {π : Equiv.Perm PatchId} {t : Timeline} {layout : Layout} {p : Program}

theorem exists_start_rename {qubits : List PatchId} (h : start layout qubits = .ok t)
    (hlast : PatchId.last ∉ qubits.map π) :
    ∃ u, start layout (qubits.map π) = .ok u ∧ u.past = t.past ∧ u.now = t.now.rename π := by
  obtain ⟨hrepeat, hlen, haudit, ids, -, rfl⟩ := start_eq_ok_iff.1 h
  have hlen' : (qubits.map π).length ≤ layout.initialPatches.length := by
    rwa [List.length_map]
  obtain ⟨ids', hids'⟩ : ∃ ids', IdSource.above
      ((Slice.ofLayout layout).assignIds ((qubits.map π).map some)).ids = .ok ids' := by
    rw [Slice.ids_assignIds hlen']
    exact IdSource.exists_above hlast
  refine ⟨_, start_eq_ok_iff.2 ⟨?_, hlen', haudit, ids', hids', rfl⟩, rfl, ?_⟩
  · rw [firstRepeat?_eq_none_iff] at hrepeat ⊢
    exact hrepeat.map π.injective
  · exact Slice.assignIds_rename _ rfl qubits

theorem exists_compileOn_rename (h : p.compileOn layout = .ok t)
    (hlast : PatchId.last ∉ (p.rename π).qubits) :
    ∃ u, (p.rename π).compileOn layout = .ok u ∧
      List.Forall₂ (fun s s' => s.Renamed π s' ∧
        ((∀ i ∈ p.instructions, i.KeepsOrder π) → s.channels = s'.channels)) t.slices u.slices := by
  obtain ⟨first, new, hstart, hnew, rfl⟩ := compileOn_eq_ok_iff.1 h
  obtain ⟨first', hstart', hpast, hnow⟩ := exists_start_rename hstart hlast
  have hnext : first'.now.next = first.now.next.rename π := by
    rw [hnow]
    exact (first.now.renamed_rename π).next
  have hstep : ∀ i ∈ p.instructions, ∀ s s' t : Slice, s' = s.rename π → s.perform i = .ok t →
      True → ∃ t', s'.perform (i.rename π) = .ok t' ∧
        (t.Renamed π t' ∧
          ((∀ i ∈ p.instructions, i.KeepsOrder π) → t.channels = t'.channels)) ∧
        t'.next = t.next.rename π := by
    intro i hi s s' t hs hperform _
    obtain ⟨t', hperform', hrenamed, hkept⟩ := Slice.perform_rename π hperform
    rw [hs]
    exact ⟨t', hperform', ⟨hrenamed, fun hkeeps => (hkept (hkeeps i hi)).symm⟩, hrenamed.next⟩
  obtain ⟨new', hnew', hall⟩ := Slice.exists_performAll_of_step (S := fun s s' => s' = s.rename π)
    hstep hnext hnew fun _ _ => trivial
  refine ⟨first'.append new', compileOn_eq_ok_iff.2 ⟨first', new', hstart', hnew', rfl⟩, ?_⟩
  rw [slices_append, slices_append]
  refine List.rel_append ?_ hall
  unfold slices
  rw [hpast, (ids_start hstart).1, hnow]
  exact .cons ⟨first.now.renamed_rename π, fun _ => rfl⟩ .nil

/-- **Ids are only names.** Unless the largest id is declared under the old or the new names, a program
compiles exactly when its renaming does. The slices are then the same in number; each has the same patches
under their new names, and as many channels of the same lengths. If the renaming keeps the order of the
patches in every observable, the channels are the same. -/
theorem compileOn_rename (π : Equiv.Perm PatchId) (layout : Layout) {p : Program}
    (hlast : PatchId.last ∉ p.qubits) (hlast' : PatchId.last ∉ (p.rename π).qubits) :
    ((∃ t, p.compileOn layout = .ok t) ↔ ∃ u, (p.rename π).compileOn layout = .ok u) ∧
    ∀ t u, p.compileOn layout = .ok t → (p.rename π).compileOn layout = .ok u →
      List.Forall₂ (Slice.Renamed π) t.slices u.slices ∧
      ((∀ i ∈ p.instructions, i.KeepsOrder π) →
        t.slices.map Slice.channels = u.slices.map Slice.channels) := by
  refine ⟨⟨fun hok => ?_, fun hok => ?_⟩, fun t u ht hu => ?_⟩
  · obtain ⟨t, ht⟩ := hok
    obtain ⟨u, hu, -⟩ := exists_compileOn_rename ht hlast'
    exact ⟨u, hu⟩
  · obtain ⟨u, hu⟩ := hok
    rw [← p.rename_symm π] at hlast
    obtain ⟨t, ht, -⟩ := exists_compileOn_rename hu hlast
    rw [p.rename_symm π] at ht
    exact ⟨t, ht⟩
  · obtain ⟨u', hu', hall⟩ := exists_compileOn_rename ht hlast'
    cases hu.symm.trans hu'
    refine ⟨hall.imp fun _ _ hs => hs.1, fun hkeeps => ?_⟩
    rw [← List.forall₂_eq_eq_eq, List.forall₂_map_left_iff, List.forall₂_map_right_iff]
    exact hall.imp fun _ _ hs => hs.2 hkeeps

/-- Exchanging the ids of the outer qubits turns both channels of `clearingProgram` round; moving the
last one up leaves them as they are. -/
theorem compileOn_rename_clearingProgram :
    (∃ t u, clearingProgram.compile = .ok t ∧
      (clearingProgram.rename (Equiv.swap (.clamp 0) (.clamp 2))).compileOn
        clearingProgram.defaultLayout.toLayout = .ok u ∧
      List.Forall₂ (Slice.Renamed (Equiv.swap (.clamp 0) (.clamp 2))) t.slices u.slices) ∧
    ∃ t u, clearingProgram.compile = .ok t ∧
      (clearingProgram.rename (Equiv.swap (.clamp 2) (.clamp 9))).compileOn
        clearingProgram.defaultLayout.toLayout = .ok u ∧
      t.slices.map Slice.channels = u.slices.map Slice.channels := by
  have hok : clearingProgram.compile.map (fun _ => ()) = .ok () := by decide +kernel
  obtain ⟨t, ht, -⟩ := map_eq_ok_iff.1 hok
  constructor
  · obtain ⟨hiff, hslices⟩ := compileOn_rename (Equiv.swap (.clamp 0) (.clamp 2))
      clearingProgram.defaultLayout.toLayout (p := clearingProgram) (by decide) (by decide)
    obtain ⟨u, hu⟩ := hiff.1 ⟨t, ht⟩
    exact ⟨t, u, ht, hu, (hslices t u ht hu).1⟩
  · obtain ⟨hiff, hslices⟩ := compileOn_rename (Equiv.swap (.clamp 2) (.clamp 9))
      clearingProgram.defaultLayout.toLayout (p := clearingProgram) (by decide) (by decide)
    obtain ⟨u, hu⟩ := hiff.1 ⟨t, ht⟩
    exact ⟨t, u, ht, hu, (hslices t u ht hu).2 (by decide)⟩

end Timeline

end LatticeSurgery
