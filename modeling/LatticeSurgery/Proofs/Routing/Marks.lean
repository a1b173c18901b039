import LatticeSurgery.Proofs.Routing.Outcome

/-!
# The edges of a channel

The tiles of a channel are bare but for the edges that the channel crosses. Nothing checks that the two
cells to which a tile is connected are next to it: a mark towards a cell elsewhere would be dropped, and
two marks towards one cell would fall together. That a tile gets both its marks (`Tile.Joins`) rests on
the channel being a walk from the source to the target (`isChain_of_isChannel`), and that they are on two
sides on its visiting no cell twice and neither of the patches (`cellBefore_eq_cellAfter_iff`). Only a
channel of one cell back to the patch it came from leaves and enters across one side.
-/

namespace LatticeSurgery

theorem Pauli.eq_of_edgeKind_eq {op op' : Pauli} {kind : EdgeKind} (h : op.edgeKind = .ok kind)
    (h' : op'.edgeKind = .ok kind) : op = op' := by
  rw [← h'] at h
  cases op <;> cases op' <;> simp [edgeKind] at h h' ⊢

/-! ### One tile -/

namespace Tile

variable {t : Tile} {before after : Cell}

/-- The sides on which the tile is connected. -/
def connectedSides (t : Tile) : List Side := Side.all.filter (t.edge · = .connected)

/-- The tile is next to the two cells, its edges towards them are connected, and all others are bare and
inactive. -/
structure Joins (t : Tile) (before after : Cell) : Prop where
  adjacent_before : t.cell.Adjacent before
  adjacent_after : t.cell.Adjacent after
  edge_eq : ∀ side, t.edge side =
    if t.cell.beyond? side = some before ∨ t.cell.beyond? side = some after then .connected
    else .inactive .bare

theorem joins_connectTo {c : Cell} (hbefore : c.Adjacent before) (hafter : c.Adjacent after) :
    (((bare c).connectTo before).connectTo after).Joins before after := by
  have hcell : (((bare c).connectTo before).connectTo after).cell = c := by
    rw [cell_connectTo, cell_connectTo, cell_bare]
  refine ⟨by rwa [hcell], by rwa [hcell], fun side => ?_⟩
  rw [hcell, edge_connectTo, edge_connectTo, cell_connectTo, cell_bare, edge_bare]
  simp only [Cell.sideFacing?_eq_some_iff]
  by_cases ha : c.beyond? side = some after
  · rw [if_pos ha, if_pos (.inr ha)]
  · rw [if_neg ha]
    simp only [ha, or_false]

theorem length_filter_sides (a b : Side) :
    (Side.all.filter fun side => side = a ∨ side = b).length = if a = b then 1 else 2 := by
  cases a <;> cases b <;> decide

theorem Joins.length_connectedSides (h : t.Joins before after) :
    t.connectedSides.length = if before = after then 1 else 2 := by
  obtain ⟨a, ha⟩ := Cell.adjacent_iff_sideFacing?.1 h.adjacent_before
  obtain ⟨b, hb⟩ := Cell.adjacent_iff_sideFacing?.1 h.adjacent_after
  have hsides : t.connectedSides = Side.all.filter fun side => side = a ∨ side = b := by
    apply List.filter_congr
    intro side _
    have hside : t.cell.beyond? side = some before ∨ t.cell.beyond? side = some after ↔
        side = a ∨ side = b := by
      rw [← Cell.sideFacing?_eq_some_iff, ← Cell.sideFacing?_eq_some_iff, ha, hb, Option.some.injEq,
        Option.some.injEq, eq_comm, eq_comm (a := b)]
    rw [h.edge_eq, decide_eq_decide, ← hside]
    split
    · next hmarked => exact iff_of_true rfl hmarked
    · next hbare => exact iff_of_false (by decide) hbare
  -- a cell lies across one side only, and across a side lies one cell only
  have heq : a = b ↔ before = after := by
    rw [Cell.sideFacing?_eq_some_iff] at ha hb
    constructor
    · intro hab
      rw [hab, hb] at ha
      exact (Option.some.inj ha).symm
    · intro hcells
      rw [← hcells, ← Cell.sideFacing?_eq_some_iff] at hb
      rw [← Cell.sideFacing?_eq_some_iff, hb] at ha
      exact (Option.some.inj ha).symm
  rw [hsides, length_filter_sides]
  simp only [heq]

end Tile

/-! ### The tiles of a path -/

namespace Region

variable {source target : Cell} {path : List Cell} {pre post : List Tile} {tile : Tile}

/-- The cell from which a channel comes after the tiles in `pre`: that of the last one, or the
source's. -/
def cellBefore (source : Cell) (pre : List Tile) : Cell := (pre.getLast?.map Tile.cell).getD source

/-- The cell to which a channel goes on with the tiles in `post`: that of the first one, or the
target's. -/
def cellAfter (post : List Tile) (target : Cell) : Cell := (post.head?.map Tile.cell).getD target

theorem cells_of_tiles {region : Region} (h : region.tiles = pre ++ tile :: post) :
    region.cells = pre.map Tile.cell ++ tile.cell :: post.map Tile.cell := by
  unfold cells
  rw [h, List.map_append, List.map_cons]

theorem tile_eq_of_tilesAlong (h : tilesAlong source path target = pre ++ tile :: post) :
    tile = ((Tile.bare tile.cell).connectTo (cellBefore source pre)).connectTo
      (cellAfter post target) := by
  induction path generalizing source pre with
  | nil => simp [tilesAlong] at h
  | cons c path ih =>
    rw [tilesAlong] at h
    cases pre with
    | nil =>
      obtain ⟨htile, hpost⟩ := List.cons.inj h
      have hcell : tile.cell = c := by
        rw [← htile, Tile.cell_connectTo, Tile.cell_connectTo, Tile.cell_bare]
      have hhead : post.head?.map Tile.cell = path.head? := by
        have hcells : (ofPath c path target).cells = path := cells_ofPath
        rw [← List.head?_map, ← hpost]
        exact congrArg List.head? hcells
      unfold cellBefore cellAfter
      rw [hcell, hhead]
      exact htile.symm
    | cons x pre =>
      obtain ⟨hx, hrest⟩ := List.cons.inj h
      have hcell : x.cell = c := by
        rw [← hx, Tile.cell_connectTo, Tile.cell_connectTo, Tile.cell_bare]
      have hbefore : cellBefore source (x :: pre) = cellBefore c pre := by
        unfold cellBefore
        rw [List.getLast?_cons, Option.map_some, Option.getD_some, ← hcell]
        cases pre.getLast? with
        | none => rfl
        | some y => rfl
      rw [hbefore]
      exact ih hrest

end Region

/-! ### Channels are walks -/

namespace ChannelRequest

variable {r : ChannelRequest} {path : List Cell}

theorem isChain_of_isChannel (h : r.IsChannel path) :
    (r.source.cell :: path ++ [r.target.cell]).IsChain Cell.Adjacent := by
  have hleaves := Terminal.adjacent_of_opensTo h.leaves
  have henters := Cell.adjacent_comm.1 (Terminal.adjacent_of_opensTo h.enters)
  rw [List.cons_append, List.isChain_cons, List.isChain_append]
  refine ⟨fun c hc => ?_, h.adjacent, .singleton _, fun c hc d hd => ?_⟩
  · cases path with
    | nil =>
      obtain rfl : r.target.cell = c := by simpa using hc
      exact hleaves
    | cons x path =>
      obtain rfl : x = c := by simpa using hc
      exact hleaves
  · obtain rfl : r.target.cell = d := by simpa using hd
    rw [Option.mem_def.1 hc] at henters
    exact henters

end ChannelRequest

namespace Slice

variable {s : Slice} {source target : PatchId} {sourceOp targetOp : Pauli} {region : Region}
  {a b tile : Tile} {pre post : List Tile}

theorem exists_tiles_of_route (h : s.route source sourceOp target targetOp = .ok (some region)) :
    ∃ a b, s.tile? source = some a ∧ s.tile? target = some b ∧
      region = .ofPath a.cell region.cells b.cell := by
  obtain ⟨r, hr, hanswer⟩ := route_eq_ok_iff.1 h
  obtain ⟨path, -, rfl⟩ := Option.map_eq_some_iff.1 hanswer.symm
  obtain ⟨_, _, a, b, -, -, ha, hb, rfl⟩ := channelRequest_eq_ok_iff.1 hr
  refine ⟨a, b, ha, hb, ?_⟩
  rw [Region.cells_ofPath]
  rfl

section

variable (h : s.route source sourceOp target targetOp = .ok (some region))
  (hapart : s.Apart source target) (ha : s.tile? source = some a) (hb : s.tile? target = some b)

include h hapart ha hb

theorem isChain_of_route : (a.cell :: region.cells ++ [b.cell]).IsChain Cell.Adjacent := by
  obtain ⟨r, hr, hpath⟩ := exists_request_of_route h
  have hchannel := (ChannelRequest.isChannel_of_path? (separate_of_apart hr hapart) hpath).1
  obtain ⟨_, _, a', b', -, -, ha', hb', rfl⟩ := channelRequest_eq_ok_iff.1 hr
  cases ha.symm.trans ha'
  cases hb.symm.trans hb'
  exact ChannelRequest.isChain_of_isChannel hchannel

theorem joins_of_route (htiles : region.tiles = pre ++ tile :: post) :
    tile.Joins (Region.cellBefore a.cell pre) (Region.cellAfter post b.cell) := by
  have hchain := isChain_of_route h hapart ha hb
  rw [Region.cells_of_tiles htiles, ← List.cons_append, List.append_assoc,
    List.isChain_append] at hchain
  obtain ⟨-, hrest, hbefore⟩ := hchain
  rw [List.cons_append] at hrest hbefore
  have hafter := (List.isChain_cons.1 hrest).1
  obtain ⟨a', b', ha', hb', hregion⟩ := exists_tiles_of_route h
  cases ha.symm.trans ha'
  cases hb.symm.trans hb'
  have hmarked : tile = ((Tile.bare tile.cell).connectTo (Region.cellBefore a.cell pre)).connectTo
      (Region.cellAfter post b.cell) := by
    apply Region.tile_eq_of_tilesAlong
    rw [← htiles]
    exact (congrArg Region.tiles hregion).symm
  rw [hmarked]
  apply Tile.joins_connectTo
  · refine Cell.adjacent_comm.1 (hbefore _ ?_ _ rfl)
    rw [List.getLast?_cons, List.getLast?_map]
    rfl
  · refine hafter _ ?_
    unfold Region.cellAfter
    rw [List.head?_append, List.head?_map]
    cases post.head? with
    | none => rfl
    | some x => rfl

/-- The cells before and after a tile are the same only where the tile is all there is between a patch
and itself. -/
theorem cellBefore_eq_cellAfter_iff (htiles : region.tiles = pre ++ tile :: post) :
    Region.cellBefore a.cell pre = Region.cellAfter post b.cell ↔
      source = target ∧ region.tiles.length = 1 := by
  have hcells := Region.cells_of_tiles htiles
  have hnodup := nodup_of_route h
  -- the channel keeps clear of both patches
  have hclear : ∀ c ∈ region.cells, c ∉ s.patchCells := fun c hc =>
    (isFree_iff.1 (passable_of_route h c hc).2).2.1
  have hsource := cell_mem_patchCells ha
  have htarget := cell_mem_patchCells hb
  have hlen : region.tiles.length = pre.length + post.length + 1 := by
    rw [htiles, List.length_append, List.length_cons, Nat.add_assoc]
  rw [hlen]
  rcases List.eq_nil_or_concat pre with rfl | ⟨pre, x, rfl⟩
  · cases post with
    | nil =>
      show a.cell = b.cell ↔ source = target ∧ 1 = 1
      rw [and_iff_left rfl]
      constructor
      · intro hcell
        rcases hapart with heq | hne
        · exact heq
        · rw [ha, hb] at hne
          exact absurd (congrArg some hcell) hne
      · rintro rfl
        exact congrArg Tile.cell (Option.some.inj (ha.symm.trans hb))
    | cons y post =>
      show a.cell = y.cell ↔ _
      refine iff_of_false (fun heq => hclear y.cell ?_ (heq ▸ hsource)) (by simp)
      rw [hcells]
      simp
  · have hbefore : Region.cellBefore a.cell (pre.concat x) = x.cell := by
      simp [Region.cellBefore]
    rw [hbefore]
    cases post with
    | nil =>
      show x.cell = b.cell ↔ _
      refine iff_of_false (fun heq => hclear x.cell ?_ (heq ▸ htarget)) (by simp)
      rw [hcells]
      simp
    | cons y post =>
      show x.cell = y.cell ↔ _
      refine iff_of_false ?_ (by simp)
      rw [hcells, List.nodup_append] at hnodup
      exact hnodup.2.2 x.cell (by simp) y.cell (by simp)

omit ha hb in
/-- A channel of a patch back to itself has one cell exactly if the operators are the same: such a channel
crosses one edge of the patch, and across an edge that exposes both operators there is no need to go
further. -/
theorem length_eq_one_iff_of_route (hsame : source = target) :
    region.tiles.length = 1 ↔ sourceOp = targetOp := by
  obtain ⟨r, hr, hpath⟩ := exists_request_of_route h
  have hchannel := (isChannel_request_iff hr).1
    (ChannelRequest.isChannel_of_path? (separate_of_apart hr hapart) hpath).1
  have hlen : region.cells.length = region.tiles.length := List.length_map _
  subst hsame
  rcases hchannel.ends with ⟨first, last, hfirst, hlast, hleaves, henters⟩ | ⟨-, hne, -⟩
  · constructor
    · intro hone
      obtain ⟨c, hc⟩ := List.length_eq_one_iff.1 (hlen.trans hone)
      rw [hc] at hfirst hlast
      cases hfirst
      cases hlast
      obtain ⟨t, side, ht, hside, hkind⟩ := hleaves
      obtain ⟨t', side', ht', hside', hkind'⟩ := henters
      cases ht.symm.trans ht'
      rw [← Cell.sideFacing?_eq_some_iff] at hside hside'
      cases hside.symm.trans hside'
      exact Pauli.eq_of_edgeKind_eq hkind hkind'
    · rintro rfl
      have hmem : first ∈ region.cells := List.mem_of_mem_head? hfirst
      have hone : s.IsChannel source sourceOp source sourceOp [first] :=
        ⟨by simpa using hchannel.inBox first hmem, by simpa using hchannel.free first hmem,
          .singleton first, .inl ⟨first, first, rfl, rfl, hleaves, hleaves⟩⟩
      have hle := ChannelRequest.length_le_of_path? hpath ((isChannel_request_iff hr).2 hone)
      have hpos := List.length_pos_of_mem hmem
      rw [List.length_singleton] at hle
      omega
  · exact absurd rfl hne

end

/-- **The edges of a channel.** Every tile of a channel that the router finds is next to the cells before
and after it, connected towards these two and bare towards all others. The two are different, so that two
edges are connected, unless the channel has one cell and leads from a patch back to itself, as it does
when both operators are the same; then one edge is connected. -/
theorem edges_of_route (h : s.route source sourceOp target targetOp = .ok (some region))
    (hapart : s.Apart source target) :
    ∃ a b, s.tile? source = some a ∧ s.tile? target = some b ∧
      (∀ pre tile post, region.tiles = pre ++ tile :: post →
        tile.Joins (Region.cellBefore a.cell pre) (Region.cellAfter post b.cell) ∧
        (Region.cellBefore a.cell pre = Region.cellAfter post b.cell ↔
          source = target ∧ region.tiles.length = 1) ∧
        tile.connectedSides.length =
          if source = target ∧ region.tiles.length = 1 then 1 else 2) ∧
      (source = target → (region.tiles.length = 1 ↔ sourceOp = targetOp)) := by
  obtain ⟨a, b, ha, hb, -⟩ := exists_tiles_of_route h
  refine ⟨a, b, ha, hb, fun pre tile post htiles => ?_, length_eq_one_iff_of_route h hapart⟩
  have hjoins := joins_of_route h hapart ha hb htiles
  have hsame := cellBefore_eq_cellAfter_iff h hapart ha hb htiles
  refine ⟨hjoins, hsame, ?_⟩
  rw [hjoins.length_connectedSides]
  simp only [hsame]

/-- The detour of `obstructed` comes to its third cell from above and leaves it to the right. The channel
of the patch `0` to itself turns round on the cell next to it. -/
theorem edges_detour :
    (∃ tile, detour.tiles[2]? = some tile ∧ tile.Joins (.clamp 1 1) (.clamp 2 2) ∧
      tile.connectedSides.length = 2) ∧
    ∃ tile, obstructed.route (.clamp 0) .z (.clamp 0) .z = .ok (some ⟨[tile]⟩) ∧
      tile.Joins (.clamp 0 0) (.clamp 0 0) ∧ tile.connectedSides.length = 1 := by
  constructor
  · obtain ⟨a, b, -, -, hedges, -⟩ := edges_of_route route_obstructed (.inr (by decide))
    obtain ⟨hjoins, -, hcount⟩ := hedges (detour.tiles.take 2) _ (detour.tiles.drop 3) rfl
    exact ⟨_, rfl, hjoins, hcount⟩
  · have hroute : obstructed.route (.clamp 0) .z (.clamp 0) .z =
        .ok (some (.ofPath (.clamp 0 0) [.clamp 0 1] (.clamp 0 0))) := by
      decide +kernel
    have htile : obstructed.tile? (.clamp 0) = some (.ofKinds (.clamp 0 0) .rough .smooth) := by
      decide
    obtain ⟨a, b, ha, hb, hedges, -⟩ := edges_of_route hroute (.inl rfl)
    cases htile.symm.trans ha
    cases htile.symm.trans hb
    obtain ⟨hjoins, -, hcount⟩ := hedges [] _ [] rfl
    exact ⟨_, hroute, hjoins, hcount⟩

end Slice

end LatticeSurgery
