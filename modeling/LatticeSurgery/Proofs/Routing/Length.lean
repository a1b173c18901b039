import LatticeSurgery.Proofs.Grid.Distance
import LatticeSurgery.Proofs.Routing.Comparison
import LatticeSurgery.Proofs.Routing.Marks

/-!
# How long channels are

Together with the two patches that it joins, a channel is a walk of one step more than it has cells. So the
distance of the patches bounds its length from below and settles whether the length is even or odd
(`distance_of_route`).

From a patch back to itself the walk has an even number of steps, so the channel has an odd number of cells
(`odd_of_selfRoute`). The patch shows a cell next to it one edge only, and an edge exposes one operator
only. A channel for two different operators therefore has more than one cell, hence at least three
(`three_le_of_selfRoute`).
-/

namespace LatticeSurgery

namespace Slice

variable {s : Slice} {id source target : PatchId} {sourceOp targetOp : Pauli} {region : Region}
  {a b : Tile}

theorem distance_of_route (h : s.route source sourceOp target targetOp = .ok (some region))
    (hapart : s.Apart source target) (ha : s.tile? source = some a) (hb : s.tile? target = some b) :
    a.cell.distance b.cell ≤ region.tiles.length + 1 ∧
      (region.tiles.length + 1) % 2 = a.cell.distance b.cell % 2 := by
  rw [← Region.length_cells]
  exact Cell.distance_of_isChain (isChain_of_route h hapart ha hb)

theorem odd_of_selfRoute (h : s.route id sourceOp id targetOp = .ok (some region)) :
    region.tiles.length % 2 = 1 := by
  obtain ⟨a, b, ha, hb, -⟩ := exists_tiles_of_route h
  cases ha.symm.trans hb
  have hparity := (distance_of_route h (.inl rfl) ha ha).2
  rw [Cell.distance_self] at hparity
  omega

theorem three_le_of_selfRoute (h : s.route id sourceOp id targetOp = .ok (some region))
    (hne : sourceOp ≠ targetOp) : 3 ≤ region.tiles.length := by
  have hodd := odd_of_selfRoute h
  have hone : region.tiles.length ≠ 1 := fun hone =>
    hne ((length_eq_one_iff_of_route h (.inl rfl) rfl).1 hone)
  omega

/-- **Length and parity of channels.** The steps along a channel that the router finds, one more than it has
cells, are at least as many as the patches are apart, and exceed that by an even number. From a patch back
to itself the channel has one cell if the operators are the same. If they differ, as in every twist, the
number of cells is odd and at least three. -/
theorem length_of_route (s : Slice) :
    (∀ source sourceOp target targetOp region,
      s.route source sourceOp target targetOp = .ok (some region) → s.Apart source target →
      ∃ a b, s.tile? source = some a ∧ s.tile? target = some b ∧
        a.cell.distance b.cell ≤ region.tiles.length + 1 ∧
        (region.tiles.length + 1) % 2 = a.cell.distance b.cell % 2) ∧
    (∀ id region, s.twist id = .ok (some region) →
      region.tiles.length % 2 = 1 ∧ 3 ≤ region.tiles.length) ∧
    (∀ id sourceOp targetOp region, s.route id sourceOp id targetOp = .ok (some region) →
      sourceOp ≠ targetOp → region.tiles.length % 2 = 1 ∧ 3 ≤ region.tiles.length) ∧
    ∀ id op region, s.route id op id op = .ok (some region) → region.tiles.length = 1 := by
  refine ⟨fun source sourceOp target targetOp region h hapart => ?_, fun id region h => ?_,
    fun id sourceOp targetOp region h hne => ?_, fun id op region h => ?_⟩
  · obtain ⟨a, b, ha, hb, -⟩ := exists_tiles_of_route h
    exact ⟨a, b, ha, hb, distance_of_route h hapart ha hb⟩
  · exact ⟨odd_of_selfRoute h, three_le_of_selfRoute h (by decide)⟩
  · exact ⟨odd_of_selfRoute h, three_le_of_selfRoute h hne⟩
  · exact (length_eq_one_iff_of_route h (.inl rfl) rfl).2 rfl

/-- The detour of `obstructed` is four cells longer than the distance asks for. The twist of the patch `0`
has the three cells round its corner, and with one operator the channel has one cell. -/
theorem length_obstructed :
    (∃ a b, obstructed.tile? (.clamp 0) = some a ∧ obstructed.tile? (.clamp 1) = some b ∧
      a.cell.distance b.cell ≤ detour.tiles.length + 1 ∧
      (detour.tiles.length + 1) % 2 = a.cell.distance b.cell % 2) ∧
    (∃ region, obstructed.twist (.clamp 0) = .ok (some region) ∧
      region.tiles.length % 2 = 1 ∧ 3 ≤ region.tiles.length) ∧
    ∃ region, obstructed.route (.clamp 0) .z (.clamp 0) .z = .ok (some region) ∧
      region.tiles.length = 1 := by
  obtain ⟨hroute, htwist, -, hsame⟩ := length_of_route obstructed
  have hcorner : obstructed.twist (.clamp 0) =
      .ok (some (.ofPath (.clamp 0 0) [.clamp 1 0, .clamp 1 1, .clamp 0 1] (.clamp 0 0))) := by
    decide +kernel
  have hturn : obstructed.route (.clamp 0) .z (.clamp 0) .z =
      .ok (some (.ofPath (.clamp 0 0) [.clamp 0 1] (.clamp 0 0))) := by
    decide +kernel
  exact ⟨hroute _ _ _ _ _ route_obstructed (.inr (by decide)),
    ⟨_, hcorner, htwist _ _ hcorner⟩, ⟨_, hturn, hsame _ _ _ hturn⟩⟩

end Slice

end LatticeSurgery
