import LatticeSurgery.Proofs.Grid.Between
import LatticeSurgery.Proofs.Routing.Outcome

/-!
# Routing in a single row

When all patches stand in the top row, that row is all there is to route in: the box from the origin
to the extent has no other. Square patches show smooth edges to the left and right and rough edges
above and below, so a channel joins two smooth edges and is a walk along the row
(`isChannel_iff_of_oneRow`). There is one exactly when every cell between the two patches is free, and
then the router finds the straight line.
-/

namespace LatticeSurgery

namespace Slice

variable {s : Slice} {id source target : PatchId} {op sourceOp targetOp : Pauli} {a b c : Cell}
  {path : List Cell}

/-- The patches of the slice are in the top row, and nothing else is on the lattice. -/
structure OneRow (s : Slice) : Prop where
  row_eq : ∀ c ∈ s.patchCells, c.row = 0
  col_nonneg : ∀ c ∈ s.patchCells, 0 ≤ c.col.val
  noChannels : s.channels = []
  noReserved : s.layout.reserved = []

/-- No patch stands between the two cells of a row. -/
def ClearBetween (s : Slice) (a b : Cell) : Prop := ∀ c ∈ a.between b, c ∉ s.patchCells

theorem OneRow.not_offGrid (h : s.OneRow) (hc : c ∈ s.patchCells) : ¬ c.OffGrid := by
  have hrow := congrArg Coord.val (h.row_eq c hc)
  have hcol := h.col_nonneg c hc
  rw [Coord.val_zero] at hrow
  unfold Cell.OffGrid
  omega

theorem OneRow.isFree_iff (h : s.OneRow) : s.isFree c ↔ c ∉ s.patchCells := by
  rw [Slice.isFree_iff, Layout.reserves_iff, h.noReserved]
  unfold channelCells
  rw [h.noChannels]
  simp

theorem OneRow.row_eq_of_mem_box (h : s.OneRow) (hc : c ∈ Box.upTo s.extent) : c.row = 0 := by
  have hchannels : s.channelCells = [] := by
    unfold channelCells
    rw [h.noChannels]
    rfl
  have hextent : s.extent.Within ⟨0, s.extent.col⟩ := by
    refine extent_within ⟨Int.le_refl _, ?_⟩ fun d hd => ⟨?_, (within_extent hd).2⟩
    · exact (Cell.within_foldl_sup _ _).2
    · rw [hchannels] at hd
      rcases hd with hd | hd
      · exact Int.le_of_eq (congrArg Coord.val (h.row_eq d hd))
      · cases hd
  obtain ⟨⟨hlow, hhigh⟩, -⟩ := Box.mem_upTo.1 hc
  exact Coord.ext (Int.le_antisymm (Int.le_trans hhigh hextent.1) hlow)

theorem OneRow.mem_box_of_mem_between (h : s.OneRow) (ha : a ∈ s.patchCells)
    (hb : b ∈ s.patchCells) (hc : c ∈ a.between b) : c ∈ Box.upTo s.extent := by
  obtain ⟨hrow, hcol⟩ := Cell.mem_between.1 hc
  have ha0 := h.col_nonneg a ha
  have hb0 := h.col_nonneg b hb
  have hae := within_extent (.inl ha)
  have hbe := within_extent (.inl hb)
  rw [Box.mem_upTo, hrow, h.row_eq a ha]
  refine ⟨⟨Int.le_refl _, (Cell.within_foldl_sup _ _).1⟩, ?_⟩
  unfold Cell.Within at hae hbe
  simp only [Coord.lt_iff] at hcol
  omega

/-! ### Channels are walks along the row -/

theorem kind_edge_square {side : Side} (hside : a.beyond? side = some c) (hrow : c.row = a.row) :
    ((Tile.ofKinds a .rough .smooth).edge side).kind = .smooth := by
  have hstep := (Cell.beyond?_eq_some_iff.1 hside).1
  rw [hrow] at hstep
  cases side with
  | top =>
    simp only [Side.rowStep] at hstep
    omega
  | bottom =>
    simp only [Side.rowStep] at hstep
    omega
  | left => rfl
  | right => rfl

theorem opens_square_iff (ht : s.tile? id = some (.ofKinds a .rough .smooth)) (hrow : c.row = a.row) :
    s.Opens id op c ↔ op = .z ∧ a.Adjacent c := by
  unfold Opens
  rw [ht]
  constructor
  · intro hopens
    obtain ⟨tile, side, htile, hside, hkind⟩ := hopens
    cases htile
    change a.beyond? side = some c at hside
    rw [kind_edge_square hside hrow] at hkind
    refine ⟨?_, Cell.adjacent_iff_sideFacing?.2 ⟨side, Cell.sideFacing?_eq_some_iff.2 hside⟩⟩
    cases op with
    | z => rfl
    | x => cases hkind
    | y => cases hkind
    | i => cases hkind
  · intro hz
    obtain ⟨rfl, hadj⟩ := hz
    obtain ⟨side, hside⟩ := Cell.adjacent_iff_sideFacing?.1 hadj
    rw [Cell.sideFacing?_eq_some_iff] at hside
    exact ⟨_, side, rfl, hside, by rw [kind_edge_square hside hrow]; rfl⟩

section

variable (h : s.OneRow) (hne : source ≠ target)
  (ha : s.tile? source = some (.ofKinds a .rough .smooth))
  (hb : s.tile? target = some (.ofKinds b .rough .smooth))

include h hne ha hb

theorem isChannel_iff_of_oneRow :
    s.IsChannel source sourceOp target targetOp path ↔
      sourceOp = .z ∧ targetOp = .z ∧ (∀ c ∈ path, c ∈ Box.upTo s.extent ∧ c ∉ s.patchCells) ∧
        (a :: path ++ [b]).IsChain Cell.Adjacent := by
  have hrowa : a.row = 0 := h.row_eq a (cell_mem_patchCells ha)
  have hrowb : b.row = 0 := h.row_eq b (cell_mem_patchCells hb)
  have hleave : ∀ c, c.row = 0 → (s.Opens source sourceOp c ↔ sourceOp = .z ∧ a.Adjacent c) :=
    fun c hc => opens_square_iff ha (hc.trans hrowa.symm)
  have henter : ∀ c, c.row = 0 → (s.Opens target targetOp c ↔ targetOp = .z ∧ b.Adjacent c) :=
    fun c hc => opens_square_iff hb (hc.trans hrowb.symm)
  rw [List.cons_append, List.isChain_cons, List.isChain_append]
  constructor
  · intro hch
    have hcells : ∀ c ∈ path, c ∈ Box.upTo s.extent ∧ c ∉ s.patchCells := fun c hc =>
      ⟨hch.inBox c hc, h.isFree_iff.1 (hch.free c hc)⟩
    rcases hch.ends with ⟨first, last, hfirst, hlast, hl, he⟩ | ⟨rfl, -, a', b', ha', hb', hl, he⟩
    · have hrow := fun c hc => h.row_eq_of_mem_box (hcells c hc).1
      obtain ⟨hz, hfirstadj⟩ := (hleave first (hrow first (List.mem_of_head? hfirst))).1 hl
      obtain ⟨hz', hlastadj⟩ := (henter last (hrow last (List.mem_of_getLast? hlast))).1 he
      refine ⟨hz, hz', hcells, ?_, hch.adjacent, List.isChain_singleton b, ?_⟩
      · rw [List.head?_append, hfirst]
        rintro c ⟨⟩
        exact hfirstadj
      · rw [hlast]
        rintro c ⟨⟩ d ⟨⟩
        exact Cell.adjacent_comm.1 hlastadj
    · cases ha.symm.trans ha'
      cases hb.symm.trans hb'
      obtain ⟨hz, hadj⟩ := (hleave b hrowb).1 hl
      obtain ⟨hz', -⟩ := (henter a hrowa).1 he
      refine ⟨hz, hz', hcells, ?_, .nil, List.isChain_singleton b, by simp⟩
      rintro c ⟨⟩
      exact hadj
  · intro hwalk
    obtain ⟨rfl, rfl, hcells, hhead, hchain, -, hlast⟩ := hwalk
    have hrow := fun c hc => h.row_eq_of_mem_box (hcells c hc).1
    refine ⟨fun c hc => (hcells c hc).1, fun c hc => h.isFree_iff.2 (hcells c hc).2, hchain, ?_⟩
    by_cases hp : path = []
    · subst hp
      have hab : a.Adjacent b := hhead b rfl
      exact .inr ⟨rfl, hne, _, _, ha, hb, (hleave b hrowb).2 ⟨rfl, hab⟩,
        (henter a hrowa).2 ⟨rfl, Cell.adjacent_comm.1 hab⟩⟩
    · left
      have hfirst := List.head?_eq_some_head hp
      have hlast' := List.getLast?_eq_some_getLast hp
      refine ⟨path.head hp, path.getLast hp, hfirst, hlast', ?_, ?_⟩
      · refine (hleave _ (hrow _ (List.head_mem hp))).2 ⟨rfl, hhead _ ?_⟩
        rw [List.head?_append, hfirst]
        rfl
      · refine (henter _ (hrow _ (List.getLast_mem hp))).2 ⟨rfl, Cell.adjacent_comm.1 ?_⟩
        exact hlast _ hlast' b rfl

theorem isChannel_between (hab : a ≠ b) (hclear : s.ClearBetween a b) :
    s.IsChannel source .z target .z (a.between b) := by
  have hcella : a ∈ s.patchCells := cell_mem_patchCells ha
  have hcellb : b ∈ s.patchCells := cell_mem_patchCells hb
  refine (isChannel_iff_of_oneRow h hne ha hb).2 ⟨rfl, rfl, fun c hc => ?_, ?_⟩
  · exact ⟨h.mem_box_of_mem_between hcella hcellb hc, hclear c hc⟩
  · exact Cell.isChain_between ((h.row_eq a hcella).trans (h.row_eq b hcellb).symm) hab

theorem clearBetween_of_isChannel (hch : s.IsChannel source sourceOp target targetOp path) :
    sourceOp = .z ∧ targetOp = .z ∧ s.ClearBetween a b := by
  obtain ⟨hz, hz', hcells, hchain⟩ := (isChannel_iff_of_oneRow h hne ha hb).1 hch
  have hrow : ∀ c ∈ path, c.row = a.row := fun c hc =>
    (h.row_eq_of_mem_box (hcells c hc).1).trans (h.row_eq a (cell_mem_patchCells ha)).symm
  exact ⟨hz, hz', fun c hc => (hcells c (Cell.mem_of_isChain hchain hrow hc)).2⟩

theorem eq_between_of_isChannel (hab : a ≠ b)
    (hch : s.IsChannel source sourceOp target targetOp path)
    (hlen : path.length ≤ (a.between b).length) : path = a.between b := by
  obtain ⟨-, -, hcells, hchain⟩ := (isChannel_iff_of_oneRow h hne ha hb).1 hch
  have hrowa := h.row_eq a (cell_mem_patchCells ha)
  have hrowb := h.row_eq b (cell_mem_patchCells hb)
  have hpos := Cell.columnsApart_ne_zero (hrowa.trans hrowb.symm) hab
  rw [Cell.length_between] at hlen
  refine Cell.eq_between_of_isChain hchain (fun c hc => ?_) (by omega)
  exact (h.row_eq_of_mem_box (hcells c hc).1).trans hrowa.symm

/-! ### What the router finds -/

omit hne in
theorem ends_mem_box_of_oneRow {r : ChannelRequest}
    (hr : s.channelRequest source sourceOp target targetOp = .ok r) :
    r.source.cell ∈ r.box ∧ r.target.cell ∈ r.box := by
  rw [ends_mem_box_iff hr, ha, hb]
  rintro tile (htile | htile)
  · exact Option.some.inj htile ▸ h.not_offGrid (cell_mem_patchCells ha)
  · exact Option.some.inj htile ▸ h.not_offGrid (cell_mem_patchCells hb)

/-- Between different cells of the row, the router finds the straight line if both operators are Z and
the line is clear, and nothing otherwise. -/
theorem route_of_oneRow (hab : a ≠ b) (hsource : sourceOp = .x ∨ sourceOp = .z)
    (htarget : targetOp = .x ∨ targetOp = .z) :
    (sourceOp = .z ∧ targetOp = .z ∧ s.ClearBetween a b → ∃ region,
      s.route source sourceOp target targetOp = .ok (some region) ∧ region.cells = a.between b) ∧
    (¬ (sourceOp = .z ∧ targetOp = .z ∧ s.ClearBetween a b) →
      s.route source sourceOp target targetOp = .ok none) := by
  have hkind : ∀ op : Pauli, op = .x ∨ op = .z → ∃ kind, op.edgeKind = .ok kind := by
    rintro op (rfl | rfl)
    · exact ⟨_, rfl⟩
    · exact ⟨_, rfl⟩
  obtain ⟨sourceKind, hsk⟩ := hkind sourceOp hsource
  obtain ⟨targetKind, htk⟩ := hkind targetOp htarget
  obtain ⟨r, hr⟩ : ∃ r, s.channelRequest source sourceOp target targetOp = .ok r :=
    ⟨_, channelRequest_eq_ok_iff.2 ⟨sourceKind, targetKind, _, _, hsk, htk, ha, hb, rfl⟩⟩
  have hapart : ¬ (r.separate ∧ r.source.cell = r.target.cell) := by
    apply separate_of_apart hr
    right
    rw [ha, hb]
    exact fun heq => hab (Option.some.inj heq)
  have hch := fun path : List Cell => (isChannel_request_iff hr : r.IsChannel path ↔ _)
  constructor
  · intro hclears
    obtain ⟨rfl, rfl, hclear⟩ := hclears
    have hline := (hch _).2 (isChannel_between h hne ha hb hab hclear)
    have hsome := ChannelRequest.path?_ne_none (ends_mem_box_of_oneRow h ha hb hr) hline
    obtain ⟨path, hpath⟩ := Option.ne_none_iff_exists'.1 hsome
    refine ⟨_, route_eq_ok_iff.2 ⟨r, hr, by rw [hpath, Option.map_some]⟩, ?_⟩
    rw [Region.cells_ofPath]
    refine eq_between_of_isChannel h hne ha hb hab ((hch path).1 ?_)
      (ChannelRequest.length_le_of_path? hpath hline)
    exact (ChannelRequest.isChannel_of_path? hapart hpath).1
  · intro hnot
    rw [route_eq_none_iff hr, ChannelRequest.path?_eq_none_iff hapart]
    right
    intro hexists
    obtain ⟨path, hpath⟩ := hexists
    exact hnot (clearBetween_of_isChannel h hne ha hb ((hch path).1 hpath))

end

end Slice

end LatticeSurgery
