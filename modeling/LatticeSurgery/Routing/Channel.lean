import LatticeSurgery.Routing.Request
import Mathlib.Data.List.Chain

/-!
# Channels

What a channel is, said of its cells alone and without any search: every cell may be used, each is
adjacent to the next, the first lies across a qualifying edge of the source and the last across
one of the target. The channel without cells is the direct merge of two adjacent patches.
-/

namespace LatticeSurgery

namespace ChannelRequest

/-- The paths that answer a request. For the path without cells, the cell after the source is the
target's and the cell before the target is the source's. -/
structure IsChannel (r : ChannelRequest) (path : List Cell) : Prop where
  passable : ∀ c ∈ path, r.passable c
  adjacent : path.IsChain Cell.Adjacent
  leaves : r.source.opensTo (path.head?.getD r.target.cell)
  enters : r.target.opensTo (path.getLast?.getD r.source.cell)
  separate : path = [] → r.separate

variable {r : ChannelRequest}

theorem isChannel_nil_iff : r.IsChannel [] ↔ r.direct := by
  simp only [direct, Bool.and_eq_true]
  exact ⟨fun h => ⟨⟨h.separate rfl, h.leaves⟩, h.enters⟩,
    fun h => ⟨by simp, .nil, h.1.2, h.2, fun _ => h.1.1⟩⟩

end ChannelRequest

end LatticeSurgery
