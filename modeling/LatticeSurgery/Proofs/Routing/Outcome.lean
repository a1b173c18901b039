import LatticeSurgery.Proofs.Routing.SliceChannel

/-!
# What the router answers

Three things can come of a request on a slice, and each has its exact condition. The request is at
fault when one of the router's checks fails, and the first that fails is blamed
(`channelRequest_eq_error_iff`). Otherwise the router answers that there is no channel when one of
the patches is off the grid or no channel joins them (`path?_eq_none_iff`), and else it finds a
channel with the fewest cells, which visits no cell twice. Two different patches on one cell are
outside the rule: they need no channel.
-/

namespace LatticeSurgery

namespace ChannelRequest

variable {r : ChannelRequest}

theorem path?_eq_none_iff (hs : ¬ (r.separate ∧ r.source.cell = r.target.cell)) :
    r.path? = none ↔
      ¬ (r.source.cell ∈ r.box ∧ r.target.cell ∈ r.box) ∨ ¬ ∃ path, r.IsChannel path := by
  constructor
  · intro h
    by_contra hcon
    push Not at hcon
    obtain ⟨hbox, path, hpath⟩ := hcon
    exact path?_ne_none hbox hpath h
  · intro h
    rcases h with hbox | hnone
    · unfold path?
      exact if_neg hbox
    · cases hp : r.path? with
      | none => rfl
      | some path => exact absurd ⟨path, (isChannel_of_path? hs hp).1⟩ hnone

end ChannelRequest

/-- The fault of asking for an edge that exposes the operator. -/
def Pauli.fault? (op : Pauli) : Option Fault :=
  if op = .i ∨ op = .y then some (.noEdgeFor op) else none

theorem Pauli.edgeKind_eq_error_iff (op : Pauli) (e : Fault) :
    op.edgeKind = .error e ↔ op.fault? = some e := by
  cases op <;> simp [edgeKind, fault?]

namespace Slice

variable {s : Slice} {id source target : PatchId} {sourceOp targetOp : Pauli}
  {region : Region} {r : ChannelRequest}

/-! ### Faults -/

/-- The fault of asking for the tile of the patch with the id: there is no such patch, or the first
one has several cells. -/
def patchFault? (s : Slice) (id : PatchId) : Option Fault :=
  if ∀ p ∈ s.qubits, p.id ≠ some id then some (.unknownPatch id)
  else if (s.qubits.find? (·.id = some id)).any (·.singleTile?.isNone) then some (.severalCells id)
  else none

/-- The first fault of a request for a channel. -/
def routeFault? (s : Slice) (source : PatchId) (sourceOp : Pauli) (target : PatchId)
    (targetOp : Pauli) : Option Fault :=
  sourceOp.fault?.or (targetOp.fault?.or ((s.patchFault? source).or (s.patchFault? target)))

theorem patchFault?_cases {e : Fault} (h : s.patchFault? id = some e) :
    e = .unknownPatch id ∨ e = .severalCells id := by
  unfold patchFault? at h
  split at h
  · exact .inl (Option.some.inj h).symm
  · split at h
    · exact .inr (Option.some.inj h).symm
    · cases h

theorem routeFault?_cases {e : Fault} (h : s.routeFault? source sourceOp target targetOp = some e) :
    (∃ op, e = .noEdgeFor op) ∨ ∃ id, e = .unknownPatch id ∨ e = .severalCells id := by
  have hop : ∀ op : Pauli, op.fault? = some e → ∃ op, e = .noEdgeFor op := by
    intro op hop
    unfold Pauli.fault? at hop
    split at hop
    · exact ⟨op, (Option.some.inj hop).symm⟩
    · cases hop
  unfold routeFault? at h
  simp only [Option.or_eq_some_iff] at h
  rcases h with h | ⟨-, h | ⟨-, h | ⟨-, h⟩⟩⟩
  · exact .inl (hop sourceOp h)
  · exact .inl (hop targetOp h)
  · exact .inr ⟨source, patchFault?_cases h⟩
  · exact .inr ⟨target, patchFault?_cases h⟩

theorem terminal_eq_error_iff (kind : EdgeKind) (e : Fault) :
    s.terminal id kind = .error e ↔ s.patchFault? id = some e := by
  unfold terminal qubit patchFault?
  cases hf : s.qubits.find? (·.id = some id) with
  | none =>
    have habsent : ∀ p ∈ s.qubits, p.id ≠ some id := by simpa using hf
    rw [if_pos habsent]
    simp
  | some p =>
    have hpresent : ¬ ∀ p ∈ s.qubits, p.id ≠ some id := by
      intro h
      exact h p (List.mem_of_find?_eq_some hf) (by simpa using List.find?_some hf)
    rw [if_neg hpresent]
    cases ht : p.singleTile? with
    | none => simp [ht]
    | some tile => simp [ht]

theorem channelRequest_eq_error_iff (e : Fault) :
    s.channelRequest source sourceOp target targetOp = .error e ↔
      s.routeFault? source sourceOp target targetOp = some e := by
  unfold channelRequest routeFault?
  refine bind_eq_error_iff_or sourceOp.edgeKind_eq_error_iff (fun sourceKind _ => ?_) e
  refine bind_eq_error_iff_or targetOp.edgeKind_eq_error_iff (fun targetKind _ => ?_)
  refine bind_eq_error_iff_or (terminal_eq_error_iff sourceKind) (fun a _ e => ?_)
  -- building the request from the two ends cannot fail
  rw [← terminal_eq_error_iff targetKind]
  exact bind_pure_eq_error_iff

/-! ### Answers -/

theorem route_eq_ok_iff {answer : Option Region} :
    s.route source sourceOp target targetOp = .ok answer ↔
      ∃ r, s.channelRequest source sourceOp target targetOp = .ok r ∧
        answer = r.path?.map fun path => .ofPath r.source.cell path r.target.cell := by
  unfold route
  simp only [bind_eq_ok_iff, pure_eq_ok_iff]

theorem route_eq_error_iff (e : Fault) :
    s.route source sourceOp target targetOp = .error e ↔
      s.routeFault? source sourceOp target targetOp = some e := by
  unfold route
  rw [← channelRequest_eq_error_iff]
  exact bind_pure_eq_error_iff

theorem exists_request_of_route
    (h : s.route source sourceOp target targetOp = .ok (some region)) :
    ∃ r, s.channelRequest source sourceOp target targetOp = .ok r ∧
      r.path? = some region.cells := by
  obtain ⟨r, hr, hanswer⟩ := route_eq_ok_iff.1 h
  obtain ⟨path, hpath, rfl⟩ := Option.map_eq_some_iff.1 hanswer.symm
  exact ⟨r, hr, by rw [hpath, Region.cells_ofPath]⟩

theorem passable_of_route (h : s.route source sourceOp target targetOp = .ok (some region)) :
    ∀ c ∈ region.cells, c ∈ Box.upTo s.extent ∧ s.isFree c := by
  obtain ⟨r, hr, hpath⟩ := exists_request_of_route h
  obtain ⟨_, _, _, _, -, -, -, -, rfl⟩ := channelRequest_eq_ok_iff.1 hr
  intro c hc
  exact ChannelRequest.passable_iff.1 (ChannelRequest.passable_of_path? hpath c hc)

theorem nodup_of_route (h : s.route source sourceOp target targetOp = .ok (some region)) :
    region.cells.Nodup := by
  obtain ⟨r, -, hpath⟩ := exists_request_of_route h
  exact ChannelRequest.nodup_of_path? hpath

theorem separate_of_apart (hr : s.channelRequest source sourceOp target targetOp = .ok r)
    (ha : s.Apart source target) : ¬ (r.separate ∧ r.source.cell = r.target.cell) := by
  obtain ⟨_, _, a, b, -, -, hta, htb, rfl⟩ := channelRequest_eq_ok_iff.1 hr
  intro h
  obtain ⟨hsep, hcell⟩ := h
  rcases ha with heq | hne
  · exact absurd heq (by simpa using hsep)
  · rw [hta, htb] at hne
    exact hne (congrArg some hcell)

theorem ends_mem_box_iff (hr : s.channelRequest source sourceOp target targetOp = .ok r) :
    (r.source.cell ∈ r.box ∧ r.target.cell ∈ r.box) ↔
      ∀ tile, s.tile? source = some tile ∨ s.tile? target = some tile → ¬ tile.cell.OffGrid := by
  obtain ⟨_, _, a, b, -, -, hta, htb, rfl⟩ := channelRequest_eq_ok_iff.1 hr
  show a.cell ∈ Box.upTo s.extent ∧ b.cell ∈ Box.upTo s.extent ↔ _
  rw [mem_upTo_extent_iff (cell_mem_patchCells hta), mem_upTo_extent_iff (cell_mem_patchCells htb),
    hta, htb]
  simp only [Option.some.injEq]
  constructor
  · intro h tile htile
    rcases htile with rfl | rfl
    · exact h.1
    · exact h.2
  · intro h
    exact ⟨h a (.inl rfl), h b (.inr rfl)⟩

theorem route_eq_none_iff (hr : s.channelRequest source sourceOp target targetOp = .ok r) :
    s.route source sourceOp target targetOp = .ok none ↔ r.path? = none := by
  rw [route_eq_ok_iff]
  constructor
  · intro h
    obtain ⟨r', hr', hnone⟩ := h
    cases hr.symm.trans hr'
    exact Option.map_eq_none_iff.1 hnone.symm
  · intro h
    exact ⟨r, hr, by rw [h, Option.map_none]⟩

theorem route_obstructed :
    obstructed.route (.clamp 0) .z (.clamp 1) .z = .ok (some detour) := by
  decide +kernel

theorem cell_of_opens_of_detour {c : Cell}
    (h : (obstructed.addChannel detour).Opens (.clamp 0) .z c) :
    c = .clamp 0 1 ∨ c = .clamp 0 (-1) := by
  obtain ⟨tile, side, htile, hside, hkind⟩ := h
  have hpatch : (obstructed.addChannel detour).tile? (.clamp 0) =
      some (.ofKinds (.clamp 0 0) .rough .smooth) := by decide
  cases hpatch.symm.trans htile
  cases side with
  | top => exact absurd hkind (by decide)
  | bottom => exact absurd hkind (by decide)
  | left => exact .inr (Option.some.inj (hside.symm.trans (by decide)))
  | right => exact .inl (Option.some.inj (hside.symm.trans (by decide)))

theorem not_exists_isChannel_of_detour :
    ¬ ∃ path, (obstructed.addChannel detour).IsChannel (.clamp 0) .z (.clamp 1) .z path := by
  intro h
  obtain ⟨path, hchannel⟩ := h
  rcases hchannel.ends with ⟨first, last, hfirst, -, hleaves, -⟩ | ⟨-, -, a, b, -, hb, hleaves, -⟩
  · have hmem : first ∈ path := List.mem_of_mem_head? hfirst
    rcases cell_of_opens_of_detour hleaves with rfl | rfl
    · exact absurd (hchannel.free _ hmem) (by decide)
    · exact absurd (hchannel.inBox _ hmem) (by decide)
  · have hpatch : (obstructed.addChannel detour).tile? (.clamp 1) =
        some (.ofKinds (.clamp 0 4) .rough .smooth) := by decide
    cases hpatch.symm.trans hb
    exact absurd (cell_of_opens_of_detour hleaves) (by decide)

/-! ### The laws of the router -/

/-- **What the router finds is a channel** of the slice, and it visits no cell twice. -/
theorem isChannel_of_route (h : s.route source sourceOp target targetOp = .ok (some region))
    (ha : s.Apart source target) :
    s.IsChannel source sourceOp target targetOp region.cells ∧ region.cells.Nodup := by
  obtain ⟨r, hr, hpath⟩ := exists_request_of_route h
  have hs := separate_of_apart hr ha
  have hchannel := (ChannelRequest.isChannel_of_path? hs hpath).1
  exact ⟨(isChannel_request_iff hr).1 hchannel, nodup_of_route h⟩

theorem isChannel_detour :
    obstructed.IsChannel (.clamp 0) .z (.clamp 1) .z detour.cells ∧ detour.cells.Nodup :=
  isChannel_of_route route_obstructed (.inr (by decide))

/-- **The three answers of the router.** It fails exactly when one of its checks does, with the
fault of the first that fails. When none fails and no cell is shared, it answers that there is no
channel exactly when one of the patches is off the grid or no channel joins them. -/
theorem route_answers (s : Slice) (source : PatchId) (sourceOp : Pauli) (target : PatchId)
    (targetOp : Pauli) :
    (∀ e, s.route source sourceOp target targetOp = .error e ↔
      s.routeFault? source sourceOp target targetOp = some e) ∧
    (s.routeFault? source sourceOp target targetOp = none → s.Apart source target →
      (s.route source sourceOp target targetOp = .ok none ↔
        (∃ tile, (s.tile? source = some tile ∨ s.tile? target = some tile) ∧ tile.cell.OffGrid) ∨
          ¬ ∃ path, s.IsChannel source sourceOp target targetOp path)) := by
  refine ⟨route_eq_error_iff, fun hfault ha => ?_⟩
  obtain ⟨r, hr⟩ : ∃ r, s.channelRequest source sourceOp target targetOp = .ok r := by
    cases hr : s.channelRequest source sourceOp target targetOp with
    | ok r => exact ⟨r, rfl⟩
    | error e => simp [channelRequest_eq_error_iff, hfault] at hr
  rw [route_eq_none_iff hr, ChannelRequest.path?_eq_none_iff (separate_of_apart hr ha),
    ends_mem_box_iff hr]
  simp only [isChannel_request_iff hr]
  push Not
  rfl

theorem route_obstructed_unreachable :
    obstructed.route (.clamp 0) .z (.clamp 2) .z = .ok none ∧
      (obstructed.addChannel detour).route (.clamp 0) .z (.clamp 1) .z = .ok none := by
  constructor
  · -- the patch `2` is off the grid
    refine ((route_answers obstructed _ .z _ .z).2 (by decide) (.inr (by decide))).2 (.inl ?_)
    exact ⟨.ofKinds (.clamp (-1) 0) .rough .smooth, .inr (by decide), .inl (by decide)⟩
  · -- the patch `1` is on the grid, but the taken detour was the only way to it
    refine ((route_answers (obstructed.addChannel detour) _ .z _ .z).2 (by decide)
      (.inr (by decide))).2 (.inr ?_)
    exact not_exists_isChannel_of_detour

/-- **No channel is shorter** than the one that the router finds; patches that merge directly get
the channel without cells. -/
theorem length_le_of_route (h : s.route source sourceOp target targetOp = .ok (some region)) :
    (∀ path, s.IsChannel source sourceOp target targetOp path →
      region.tiles.length ≤ path.length) ∧
    (s.Merges source sourceOp target targetOp → region.tiles = []) := by
  obtain ⟨r, hr, hpath⟩ := exists_request_of_route h
  have hmin : ∀ path, s.IsChannel source sourceOp target targetOp path →
      region.tiles.length ≤ path.length := by
    intro path hchannel
    have := ChannelRequest.length_le_of_path? hpath ((isChannel_request_iff hr).2 hchannel)
    rwa [Region.cells, List.length_map] at this
  refine ⟨hmin, fun hmerge => ?_⟩
  have hnil : s.IsChannel source sourceOp target targetOp [] :=
    ⟨by simp, by simp, .nil, .inr ⟨rfl, hmerge⟩⟩
  exact List.eq_nil_of_length_eq_zero (Nat.le_zero.1 (hmin [] hnil))

theorem not_exists_shorter_detour :
    ¬ ∃ path, obstructed.IsChannel (.clamp 0) .z (.clamp 1) .z path ∧ path.length < 7 := by
  intro h
  obtain ⟨path, hchannel, hlt⟩ := h
  exact Nat.not_le.2 hlt ((length_le_of_route route_obstructed).1 path hchannel)

end Slice

end LatticeSurgery
