import LatticeSurgery.Proofs.Routing.Outcome

/-!
# Comparing two requests

Which of several shortest channels the router finds depends on the order in which it tries its steps,
so two requests with the same channels may well get different answers. What they share is whether there
is an answer and how long it is, for that is a matter of the channels alone. A path found for one
request that may be used for another bounds what is found there (`exists_path?_of_passable`), and a
channel read backwards is a channel for the request from the other end (`IsChannel.reverse`), so the
router finds channels of the same length in both directions (`exists_path?_reverse`).

For patches of slices: a channel found on one slice whose cells may be used on another
(`exists_route_of_passable`), and the same two patches with their roles exchanged (`exists_route_swap`).
A request at fault is at fault in both directions, though another patch may get the blame
(`routeFault?_swap`).
-/

namespace LatticeSurgery

namespace ChannelRequest

variable {r r' : ChannelRequest} {path : List Cell}

theorem ends_mem_box_of_path? (h : r.path? = some path) :
    r.source.cell ∈ r.box ∧ r.target.cell ∈ r.box := by
  unfold path? at h
  split at h
  · next hbox => exact hbox
  · cases h

theorem IsChannel.exists_path? (h : r.IsChannel path)
    (hbox : r.source.cell ∈ r.box ∧ r.target.cell ∈ r.box) :
    ∃ path', r.path? = some path' ∧ path'.length ≤ path.length := by
  obtain ⟨path', hpath'⟩ := Option.ne_none_iff_exists'.1 (path?_ne_none hbox h)
  exact ⟨path', hpath', length_le_of_path? hpath' h⟩

theorem path?_of_shared (hs : r.separate ∧ r.source.cell = r.target.cell)
    (hbox : r.source.cell ∈ r.box ∧ r.target.cell ∈ r.box) : r.path? = some [] := by
  unfold path?
  rw [if_pos hbox, if_pos hs]

/-! ### Other cells to use -/

theorem exists_path?_of_passable (hsource : r'.source = r.source) (htarget : r'.target = r.target)
    (hseparate : r'.separate = r.separate) (h : r.path? = some path)
    (hbox : r'.source.cell ∈ r'.box ∧ r'.target.cell ∈ r'.box)
    (hpassable : ∀ c ∈ path, r'.passable c) :
    ∃ path', r'.path? = some path' ∧ path'.length ≤ path.length := by
  by_cases hs : r.separate ∧ r.source.cell = r.target.cell
  · have hs' : r'.separate ∧ r'.source.cell = r'.target.cell := by rwa [hsource, htarget, hseparate]
    exact ⟨[], path?_of_shared hs' hbox, Nat.zero_le _⟩
  · have hchannel := (isChannel_of_path? hs h).1
    apply IsChannel.exists_path? _ hbox
    refine ⟨hpassable, hchannel.adjacent, ?_, ?_, ?_⟩
    · rw [hsource, htarget]
      exact hchannel.leaves
    · rw [hsource, htarget]
      exact hchannel.enters
    · rw [hseparate]
      exact hchannel.separate

/-! ### The other direction -/

/-- The request for a channel from the target to the source. -/
def reverse (r : ChannelRequest) : ChannelRequest := { r with source := r.target, target := r.source }

@[simp] theorem reverse_reverse (r : ChannelRequest) : r.reverse.reverse = r := rfl

theorem IsChannel.reverse (h : r.IsChannel path) : r.reverse.IsChannel path.reverse where
  passable c hc := h.passable c (List.mem_reverse.1 hc)
  adjacent := by
    rw [List.isChain_reverse]
    exact h.adjacent.imp fun _ _ hab => Cell.adjacent_comm.1 hab
  leaves := by
    rw [List.head?_reverse]
    exact h.enters
  enters := by
    rw [List.getLast?_reverse]
    exact h.leaves
  separate he := h.separate (List.reverse_eq_nil_iff.1 he)

theorem exists_path?_reverse_le (h : r.path? = some path) :
    ∃ path', r.reverse.path? = some path' ∧ path'.length ≤ path.length := by
  have hbox : r.reverse.source.cell ∈ r.reverse.box ∧ r.reverse.target.cell ∈ r.reverse.box :=
    (ends_mem_box_of_path? h).symm
  by_cases hs : r.separate ∧ r.source.cell = r.target.cell
  · exact ⟨[], path?_of_shared ⟨hs.1, hs.2.symm⟩ hbox, Nat.zero_le _⟩
  · have hchannel := (isChannel_of_path? hs h).1.reverse
    obtain ⟨path', hpath', hle⟩ := hchannel.exists_path? hbox
    rw [List.length_reverse] at hle
    exact ⟨path', hpath', hle⟩

theorem exists_path?_reverse (h : r.path? = some path) :
    ∃ path', r.reverse.path? = some path' ∧ path'.length = path.length := by
  obtain ⟨path', hpath', hle⟩ := exists_path?_reverse_le h
  refine ⟨path', hpath', Nat.le_antisymm hle ?_⟩
  -- and back again
  obtain ⟨path'', hpath'', hge⟩ := exists_path?_reverse_le hpath'
  rw [reverse_reverse, h] at hpath''
  cases hpath''
  exact hge

end ChannelRequest

theorem Region.length_cells (region : Region) : region.cells.length = region.tiles.length :=
  List.length_map _

namespace Slice

variable {s s' : Slice} {source target : PatchId} {sourceOp targetOp : Pauli} {region : Region}

theorem exists_route_of_path? {r : ChannelRequest} {path : List Cell}
    (hr : s.channelRequest source sourceOp target targetOp = .ok r) (h : r.path? = some path) :
    ∃ region, s.route source sourceOp target targetOp = .ok (some region) ∧
      region.tiles.length = path.length := by
  refine ⟨.ofPath r.source.cell path r.target.cell, ?_, ?_⟩
  · rw [route_eq_ok_iff]
    exact ⟨r, hr, by rw [h, Option.map_some]⟩
  · rw [← Region.length_cells, Region.cells_ofPath]

theorem exists_route_of_passable (hsource : s'.tile? source = s.tile? source)
    (htarget : s'.tile? target = s.tile? target)
    (h : s.route source sourceOp target targetOp = .ok (some region))
    (hpassable : ∀ c ∈ region.cells, c ∈ Box.upTo s'.extent ∧ s'.isFree c) :
    ∃ region', s'.route source sourceOp target targetOp = .ok (some region') ∧
      region'.tiles.length ≤ region.tiles.length := by
  obtain ⟨r, hr, hpath⟩ := exists_request_of_route h
  obtain ⟨sourceKind, targetKind, a, b, hsk, htk, ha, hb, hreq⟩ := channelRequest_eq_ok_iff.1 hr
  obtain ⟨r', hr', hreq'⟩ : ∃ r', s'.channelRequest source sourceOp target targetOp = .ok r' ∧
      r' = ⟨⟨a, sourceKind⟩, ⟨b, targetKind⟩, decide (source ≠ target), .upTo s'.extent,
        s'.isFree⟩ :=
    ⟨_, channelRequest_eq_ok_iff.2
      ⟨sourceKind, targetKind, a, b, hsk, htk, hsource.trans ha, htarget.trans hb, rfl⟩, rfl⟩
  have hbox : r'.source.cell ∈ r'.box ∧ r'.target.cell ∈ r'.box := by
    rw [ends_mem_box_iff hr', hsource, htarget, ← ends_mem_box_iff hr]
    exact ChannelRequest.ends_mem_box_of_path? hpath
  have hcells : ∀ c ∈ region.cells, r'.passable c := by
    intro c hc
    rw [ChannelRequest.passable_iff, hreq']
    exact hpassable c hc
  obtain ⟨path', hpath', hle⟩ := ChannelRequest.exists_path?_of_passable (by rw [hreq, hreq'])
    (by rw [hreq, hreq']) (by rw [hreq, hreq']) hpath hbox hcells
  obtain ⟨region', hregion', hlen⟩ := exists_route_of_path? hr' hpath'
  rw [Region.length_cells] at hle
  exact ⟨region', hregion', hlen ▸ hle⟩

theorem channelRequest_swap {r : ChannelRequest}
    (hr : s.channelRequest source sourceOp target targetOp = .ok r) :
    s.channelRequest target targetOp source sourceOp = .ok r.reverse := by
  obtain ⟨sourceKind, targetKind, a, b, hsk, htk, ha, hb, rfl⟩ := channelRequest_eq_ok_iff.1 hr
  refine channelRequest_eq_ok_iff.2 ⟨targetKind, sourceKind, b, a, htk, hsk, hb, ha, ?_⟩
  simp only [ChannelRequest.reverse, ne_comm]

theorem exists_route_swap (h : s.route source sourceOp target targetOp = .ok (some region)) :
    ∃ region', s.route target targetOp source sourceOp = .ok (some region') ∧
      region'.tiles.length = region.tiles.length := by
  obtain ⟨r, hr, hpath⟩ := exists_request_of_route h
  obtain ⟨path', hpath', hlen⟩ := ChannelRequest.exists_path?_reverse hpath
  obtain ⟨region', hregion', hlen'⟩ := exists_route_of_path? (channelRequest_swap hr) hpath'
  rw [Region.length_cells] at hlen
  exact ⟨region', hregion', hlen'.trans hlen⟩

theorem routeFault?_swap :
    s.routeFault? source sourceOp target targetOp = none ↔
      s.routeFault? target targetOp source sourceOp = none := by
  unfold routeFault?
  simp only [Option.or_eq_none_iff]
  tauto

/-- **Routing is symmetric.** The router finds a channel from the source to the target exactly if it finds
one from the target to the source, and the two have the same length. It fails in one direction exactly if
it fails in the other. -/
theorem route_swap_iff (s : Slice) (source : PatchId) (sourceOp : Pauli) (target : PatchId)
    (targetOp : Pauli) :
    (∀ n, (∃ region, s.route source sourceOp target targetOp = .ok (some region) ∧
        region.tiles.length = n) ↔
      ∃ region, s.route target targetOp source sourceOp = .ok (some region) ∧
        region.tiles.length = n) ∧
    ((∃ e, s.route source sourceOp target targetOp = .error e) ↔
      ∃ e, s.route target targetOp source sourceOp = .error e) := by
  refine ⟨fun n => ⟨?_, ?_⟩, ?_⟩
  · rintro ⟨region, h, rfl⟩
    exact exists_route_swap h
  · rintro ⟨region, h, rfl⟩
    exact exists_route_swap h
  · simp only [route_eq_error_iff, ← Option.ne_none_iff_exists']
    exact not_congr routeFault?_swap

end Slice

end LatticeSurgery
