import LatticeSurgery.Proofs.Sequence
import LatticeSurgery.Proofs.Slice.Extent
import LatticeSurgery.Routing.Paths

/-!
# Channels between patches of a slice

What joins two patches of a slice, said of the slice alone: a channel is a list of free cells of the
box from the origin to the extent, each adjacent to the next, that starts across an edge of the
source which exposes the one operator and ends across an edge of the target which exposes the
other. Two different patches that face each other with such edges are joined by the channel without
cells (`Slice.IsChannel`).

The router works on a request, which it builds once its arguments have passed six checks
(`channelRequest_eq_ok_iff`). The channels of the request are the channels of the slice
(`isChannel_request_iff`), and a channel with the fewest cells visits no cell twice, since the loop
could be cut out (`nodup_of_shortest`).
-/

namespace LatticeSurgery

/-! ### Loops -/

namespace ChannelRequest

variable {r : ChannelRequest} {path : List Cell}

theorem IsChannel.cut {c : Cell} {l₁ l₂ l₃ : List Cell}
    (h : r.IsChannel (l₁ ++ c :: (l₂ ++ c :: l₃))) : r.IsChannel (l₁ ++ c :: l₃) where
  passable x hx := by
    apply h.passable x
    simp only [List.mem_append, List.mem_cons] at hx ⊢
    tauto
  adjacent := by
    obtain ⟨hstart, hloop⟩ := List.isChain_split.1 h.adjacent
    rw [← List.cons_append] at hloop
    exact List.isChain_split.2 ⟨hstart, (List.isChain_split.1 hloop).2⟩
  leaves := by
    have hleaves := h.leaves
    cases l₁ with
    | nil => exact hleaves
    | cons a l₁ => exact hleaves
  enters := by
    have henters := h.enters
    have hlast : (l₁ ++ c :: (l₂ ++ c :: l₃)).getLast? = (l₁ ++ c :: l₃).getLast? := by
      rw [List.getLast?_append_cons, List.getLast?_append_cons, ← List.cons_append,
        List.getLast?_append_cons]
    rwa [hlast] at henters
  separate he := by simp at he

theorem IsChannel.nodup_of_shortest (h : r.IsChannel path)
    (hmin : ∀ path', r.IsChannel path' → path.length ≤ path'.length) : path.Nodup := by
  rw [← firstRepeat?_eq_none_iff]
  by_contra hne
  obtain ⟨c, hc⟩ := Option.ne_none_iff_exists'.1 hne
  obtain ⟨pre, post, rfl, -, hmem⟩ := firstRepeat?_eq_some_iff.1 hc
  obtain ⟨l₁, l₂, rfl⟩ := List.append_of_mem hmem
  rw [List.append_assoc, List.cons_append] at h hmin
  -- the loop from the first visit of `c` to the second one is at least one cell long
  have hle := hmin _ h.cut
  simp only [List.length_append, List.length_cons] at hle
  omega

theorem eq_nil_of_path? (hs : r.separate ∧ r.source.cell = r.target.cell)
    (h : r.path? = some path) : path = [] := by
  simp only [path?, if_pos hs] at h
  split at h
  · exact (Option.some.inj h).symm
  · cases h

theorem length_le_of_path? {path' : List Cell} (h : r.path? = some path) (h' : r.IsChannel path') :
    path.length ≤ path'.length := by
  by_cases hs : r.separate ∧ r.source.cell = r.target.cell
  · rw [eq_nil_of_path? hs h]
    exact Nat.zero_le _
  · exact (isChannel_of_path? hs h).2 path' h'

theorem passable_of_path? (h : r.path? = some path) : ∀ c ∈ path, r.passable c := by
  by_cases hs : r.separate ∧ r.source.cell = r.target.cell
  · rw [eq_nil_of_path? hs h]
    simp
  · exact (isChannel_of_path? hs h).1.passable

theorem nodup_of_path? (h : r.path? = some path) : path.Nodup := by
  by_cases hs : r.separate ∧ r.source.cell = r.target.cell
  · rw [eq_nil_of_path? hs h]
    exact .nil
  · obtain ⟨hchannel, hmin⟩ := isChannel_of_path? hs h
    exact hchannel.nodup_of_shortest hmin

end ChannelRequest

namespace Slice

variable {s : Slice} {id source target : PatchId} {op sourceOp targetOp : Pauli} {c : Cell}
  {path : List Cell}

/-! ### The channels of a slice -/

/-- The tile of the first qubit patch with the id, if that patch has one cell. -/
def tile? (s : Slice) (id : PatchId) : Option Tile :=
  (s.qubits.find? (·.id = some id)).bind Patch.singleTile?

/-- The cell lies across an edge of the patch that exposes the operator. -/
def Opens (s : Slice) (id : PatchId) (op : Pauli) (c : Cell) : Prop :=
  ∃ tile side, s.tile? id = some tile ∧ tile.cell.beyond? side = some c ∧
    op.edgeKind = .ok (tile.edge side).kind

/-- Two different patches face each other with edges that expose the operators. -/
def Merges (s : Slice) (source : PatchId) (sourceOp : Pauli) (target : PatchId)
    (targetOp : Pauli) : Prop :=
  source ≠ target ∧ ∃ a b, s.tile? source = some a ∧ s.tile? target = some b ∧
    s.Opens source sourceOp b.cell ∧ s.Opens target targetOp a.cell

/-- The channels from the source patch to the target patch. -/
structure IsChannel (s : Slice) (source : PatchId) (sourceOp : Pauli) (target : PatchId)
    (targetOp : Pauli) (path : List Cell) : Prop where
  inBox : ∀ c ∈ path, c ∈ Box.upTo s.extent
  free : ∀ c ∈ path, s.isFree c
  adjacent : path.IsChain Cell.Adjacent
  ends : (∃ first last, path.head? = some first ∧ path.getLast? = some last ∧
      s.Opens source sourceOp first ∧ s.Opens target targetOp last) ∨
    (path = [] ∧ s.Merges source sourceOp target targetOp)

/-- The ids are equal, or their patches are on different cells. -/
def Apart (s : Slice) (source target : PatchId) : Prop :=
  source = target ∨ (s.tile? source).map Tile.cell ≠ (s.tile? target).map Tile.cell

theorem cell_mem_patchCells {tile : Tile} (h : s.tile? id = some tile) :
    tile.cell ∈ s.patchCells := by
  obtain ⟨p, hp, ht⟩ := Option.bind_eq_some_iff.1 h
  have hcells : p.cells = [tile.cell] := by
    unfold Patch.singleTile? at ht
    split at ht
    · next hshape =>
      cases ht
      simp [Patch.cells, Patch.tiles, hshape]
    · cases ht
  refine List.mem_flatMap.2 ⟨p, List.mem_append_left _ (List.mem_of_find?_eq_some hp), ?_⟩
  simp [hcells]

/-! ### The request -/

theorem terminal_eq_ok_iff {kind : EdgeKind} {t : Terminal} :
    s.terminal id kind = .ok t ↔ ∃ tile, s.tile? id = some tile ∧ t = ⟨tile, kind⟩ := by
  unfold terminal qubit tile?
  cases s.qubits.find? (·.id = some id) with
  | none => simp
  | some p =>
    cases ht : p.singleTile? with
    | none => simp [ht]
    | some tile => simp [ht, eq_comm]

theorem channelRequest_eq_ok_iff {r : ChannelRequest} :
    s.channelRequest source sourceOp target targetOp = .ok r ↔
      ∃ sourceKind targetKind a b, sourceOp.edgeKind = .ok sourceKind ∧
        targetOp.edgeKind = .ok targetKind ∧ s.tile? source = some a ∧ s.tile? target = some b ∧
        r = ⟨⟨a, sourceKind⟩, ⟨b, targetKind⟩, decide (source ≠ target), .upTo s.extent,
          s.isFree⟩ := by
  unfold channelRequest
  simp only [bind_eq_ok_iff, pure_eq_ok_iff, terminal_eq_ok_iff]
  constructor
  · intro h
    obtain ⟨sourceKind, hsk, targetKind, htk, _, ⟨a, ha, rfl⟩, _, ⟨b, hb, rfl⟩, hr⟩ := h
    exact ⟨sourceKind, targetKind, a, b, hsk, htk, ha, hb, hr⟩
  · intro h
    obtain ⟨sourceKind, targetKind, a, b, hsk, htk, ha, hb, hr⟩ := h
    exact ⟨sourceKind, hsk, targetKind, htk, _, ⟨a, ha, rfl⟩, _, ⟨b, hb, rfl⟩, hr⟩

theorem opensTo_iff_opens {tile : Tile} {kind : EdgeKind} (ht : s.tile? id = some tile)
    (hk : op.edgeKind = .ok kind) : Terminal.opensTo ⟨tile, kind⟩ c ↔ s.Opens id op c := by
  rw [Terminal.opensTo_iff]
  unfold Opens
  rw [ht, hk]
  constructor
  · intro h
    obtain ⟨side, hside, hkind⟩ := h
    exact ⟨tile, side, rfl, Cell.sideFacing?_eq_some_iff.1 hside, congrArg _ hkind.symm⟩
  · intro h
    obtain ⟨_, side, htile, hside, hkind⟩ := h
    cases htile
    exact ⟨side, Cell.sideFacing?_eq_some_iff.2 hside, (Except.ok.inj hkind).symm⟩

theorem isChannel_request_iff {r : ChannelRequest}
    (hr : s.channelRequest source sourceOp target targetOp = .ok r) :
    r.IsChannel path ↔ s.IsChannel source sourceOp target targetOp path := by
  obtain ⟨sourceKind, targetKind, a, b, hsk, htk, ha, hb, rfl⟩ := channelRequest_eq_ok_iff.1 hr
  have hleave := fun c => opensTo_iff_opens (c := c) ha hsk
  have henter := fun c => opensTo_iff_opens (c := c) hb htk
  constructor
  · intro h
    refine ⟨fun c hc => ?_, fun c hc => ?_, h.adjacent, ?_⟩
    · exact (ChannelRequest.passable_iff.1 (h.passable c hc)).1
    · exact (ChannelRequest.passable_iff.1 (h.passable c hc)).2
    · have hleaves := (hleave _).1 h.leaves
      have henters := (henter _).1 h.enters
      by_cases hp : path = []
      · subst hp
        exact .inr ⟨rfl, by simpa using h.separate rfl, a, b, ha, hb, hleaves, henters⟩
      · left
        rw [List.head?_eq_some_head hp] at hleaves
        rw [List.getLast?_eq_some_getLast hp] at henters
        exact ⟨path.head hp, path.getLast hp, List.head?_eq_some_head hp,
          List.getLast?_eq_some_getLast hp, hleaves, henters⟩
  · intro h
    have hpassable : ∀ c ∈ path, ChannelRequest.passable ⟨⟨a, sourceKind⟩, ⟨b, targetKind⟩,
        decide (source ≠ target), .upTo s.extent, s.isFree⟩ c := fun c hc =>
      ChannelRequest.passable_iff.2 ⟨h.inBox c hc, h.free c hc⟩
    rcases h.ends with ⟨first, last, hfirst, hlast, hl, he⟩ | ⟨hp, hne, a', b', ha', hb', hl, he⟩
    · refine ⟨hpassable, h.adjacent, ?_, ?_, fun hp => ?_⟩
      · rw [hfirst]
        exact (hleave first).2 hl
      · rw [hlast]
        exact (henter last).2 he
      · rw [hp] at hfirst
        cases hfirst
    · subst hp
      cases ha.symm.trans ha'
      cases hb.symm.trans hb'
      exact ⟨hpassable, .nil, (hleave _).2 hl, (henter _).2 he, fun _ => by simpa using hne⟩

end Slice

end LatticeSurgery
