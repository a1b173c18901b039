import LatticeSurgery.Proofs.Routing.Comparison
import LatticeSurgery.Proofs.Slice.Additions

/-!
# Room for channels

The more cells there are to use, the shorter channels can be. One slice has more room than another when
its box reaches at least as far and what is free in the box of the other is free there too
(`Slice.Roomier`). Two such slices need have nothing else in common but the two patches to join. Their
boxes number the cells differently and the searches on them may take different turns, so it is not the
searches that are compared: the channel found where there is less room can be used where there is more
(`exists_route_of_roomier`).

Whatever is added to a slice inside its box leaves less room (`roomier_of_add`), and it does not change
which patches the ids stand for (`tile?_add`). So an addition can lengthen a channel or block it, but
never the other way round.
-/

namespace LatticeSurgery

namespace Slice

variable {s t : Slice} {a : Addition} {c : Cell} {id source target : PatchId}
  {sourceOp targetOp : Pauli} {region : Region}

/-- A channel may use at least the cells on the first slice that it may use on the second. -/
structure Roomier (s t : Slice) : Prop where
  extent_within : t.extent.Within s.extent
  isFree_of_isFree : ∀ c ∈ Box.upTo t.extent, t.isFree c → s.isFree c

theorem Roomier.mem_box (h : s.Roomier t) (hc : c ∈ Box.upTo t.extent) : c ∈ Box.upTo s.extent := by
  rw [Cell.mem_upTo_iff] at hc ⊢
  exact ⟨hc.1, hc.2.trans h.extent_within⟩

theorem exists_route_of_roomier (h : s.Roomier t) (hsource : s.tile? source = t.tile? source)
    (htarget : s.tile? target = t.tile? target)
    (hroute : t.route source sourceOp target targetOp = .ok (some region)) :
    ∃ region', s.route source sourceOp target targetOp = .ok (some region') ∧
      region'.tiles.length ≤ region.tiles.length := by
  refine exists_route_of_passable hsource htarget hroute fun c hc => ?_
  obtain ⟨hbox, hfree⟩ := passable_of_route hroute c hc
  exact ⟨h.mem_box hbox, h.isFree_of_isFree c hbox hfree⟩

/-! ### Additions -/

theorem roomier_of_add (h : s.add a = .ok t) (hin : ∀ c ∈ a.cells, c ∈ Box.upTo s.extent) :
    s.Roomier t where
  extent_within := by
    rw [extent_add h fun c hc => (Cell.mem_upTo_iff.1 (hin c hc)).2]
    exact Cell.within_refl _
  isFree_of_isFree _ _ hfree := ((isFree_add_iff h).1 hfree).1

theorem tile?_add {tile : Tile} (h : s.add a = .ok t) (htile : s.tile? id = some tile) :
    t.tile? id = some tile := by
  rcases add_cases h with ⟨p, rfl, rfl⟩ | ⟨p, rfl, rfl⟩ | ⟨r, rfl, rfl⟩
  · obtain ⟨q, hq, hsingle⟩ := Option.bind_eq_some_iff.1 htile
    unfold tile?
    rw [List.find?_append, hq, Option.some_or, Option.bind_some, hsingle]
  · exact htile
  · exact htile

theorem exists_route_add {answer : Option Region} (h : s.add a = .ok t)
    (hin : ∀ c ∈ a.cells, c ∈ Box.upTo s.extent)
    (hroute : s.route source sourceOp target targetOp = .ok answer) :
    ∃ answer', t.route source sourceOp target targetOp = .ok answer' ∧
      ∀ region', answer' = some region' →
        ∃ region, answer = some region ∧ region.tiles.length ≤ region'.tiles.length := by
  obtain ⟨r, hr, -⟩ := route_eq_ok_iff.1 hroute
  obtain ⟨sourceKind, targetKind, x, y, hsk, htk, hx, hy, -⟩ := channelRequest_eq_ok_iff.1 hr
  have hx' := tile?_add h hx
  have hy' := tile?_add h hy
  have hr' := channelRequest_eq_ok_iff.2 ⟨sourceKind, targetKind, x, y, hsk, htk, hx', hy', rfl⟩
  refine ⟨_, route_eq_ok_iff.2 ⟨_, hr', rfl⟩, fun region' hregion' => ?_⟩
  have hroute' := route_eq_ok_iff.2 ⟨_, hr', hregion'.symm⟩
  obtain ⟨region, hfound, hle⟩ := exists_route_of_roomier (roomier_of_add h hin) (hx.trans hx'.symm)
    (hy.trans hy'.symm) hroute'
  exact ⟨region, Except.ok.inj (hroute.symm.trans hfound), hle⟩

/-- **Routing is monotone in free space.** If the two patches to join are the same on a slice with more
room, and the router finds a channel where there is less, then it finds one that is no longer where there
is more. In particular a patch or a channel added inside the box makes no way where there was none, and
no way shorter. -/
theorem route_monotone (source : PatchId) (sourceOp : Pauli) (target : PatchId) (targetOp : Pauli) :
    (∀ (s t : Slice) (region : Region), s.Roomier t → s.tile? source = t.tile? source →
      s.tile? target = t.tile? target →
      t.route source sourceOp target targetOp = .ok (some region) →
      ∃ region', s.route source sourceOp target targetOp = .ok (some region') ∧
        region'.tiles.length ≤ region.tiles.length) ∧
    (∀ (s t : Slice) (a : Addition), s.add a = .ok t → (∀ c ∈ a.cells, c ∈ Box.upTo s.extent) →
      (s.route source sourceOp target targetOp = .ok none →
        t.route source sourceOp target targetOp = .ok none) ∧
      ∀ region region', s.route source sourceOp target targetOp = .ok (some region) →
        t.route source sourceOp target targetOp = .ok (some region') →
        region.tiles.length ≤ region'.tiles.length) := by
  refine ⟨fun s t region h hsource htarget => exists_route_of_roomier h hsource htarget,
    fun s t a h hin => ⟨fun hnone => ?_, fun region region' hregion hregion' => ?_⟩⟩
  · obtain ⟨answer', hanswer', hle⟩ := exists_route_add h hin hnone
    cases answer' with
    | none => exact hanswer'
    | some region' =>
      obtain ⟨_, hsome, -⟩ := hle region' rfl
      cases hsome
  · obtain ⟨answer', hanswer', hle⟩ := exists_route_add h hin hregion
    obtain ⟨_, hsome, hle⟩ := hle region' (Except.ok.inj (hanswer'.symm.trans hregion'))
    cases hsome
    exact hle

/-- The slice `obstructed` without the patch between `0` and `1`. -/
def opened : Slice := { obstructed with qubits := obstructed.qubits.eraseIdx 1 }

/-- The straight line between `0` and `1`, which `opened` leaves free. -/
def straight : Region :=
  .ofPath (.clamp 0 0) [.clamp 0 1, .clamp 0 2, .clamp 0 3] (.clamp 0 4)

/-- The detour of `obstructed` bounds what is found on `opened`. A patch that is put back into the gap
makes the straight line into a detour again, and no way to the patch that is off the grid. -/
theorem route_opened :
    (∃ region, opened.route (.clamp 0) .z (.clamp 1) .z = .ok (some region) ∧
      region.tiles.length ≤ detour.tiles.length) ∧
    ∃ t, opened.add (.qubit (.square (.clamp 0 2))) = .ok t ∧
      opened.route (.clamp 0) .z (.clamp 1) .z = .ok (some straight) ∧
      t.route (.clamp 0) .z (.clamp 1) .z = .ok (some detour) ∧
      straight.tiles.length ≤ detour.tiles.length ∧
      t.route (.clamp 0) .z (.clamp 2) .z = .ok none := by
  have hroomier : opened.Roomier obstructed := by
    refine ⟨by decide, fun c hc => ?_⟩
    have hcells : ∀ c ∈ (Box.upTo obstructed.extent).cells, obstructed.isFree c → opened.isFree c := by
      decide
    exact hcells c (Box.mem_cells.2 hc)
  have hadd : opened.add (.qubit (.square (.clamp 0 2))) =
      .ok { opened with qubits := opened.qubits ++ [.square (.clamp 0 2)] } :=
    placeQubit_eq_ok_iff.2 ⟨by decide, rfl⟩
  have hstraight : opened.route (.clamp 0) .z (.clamp 1) .z = .ok (some straight) := by decide +kernel
  have hdetour : Slice.route { opened with qubits := opened.qubits ++ [.square (.clamp 0 2)] }
      (.clamp 0) .z (.clamp 1) .z = .ok (some detour) := by decide +kernel
  have hnone : opened.route (.clamp 0) .z (.clamp 2) .z = .ok none := by decide +kernel
  refine ⟨(route_monotone _ _ _ _).1 _ _ _ hroomier (by decide) (by decide) route_obstructed,
    _, hadd, hstraight, hdetour, ?_, ?_⟩
  · exact ((route_monotone _ _ _ _).2 _ _ _ hadd (by decide)).2 _ _ hstraight hdetour
  · exact ((route_monotone _ _ _ _).2 _ _ _ hadd (by decide)).1 hnone

end Slice

end LatticeSurgery
