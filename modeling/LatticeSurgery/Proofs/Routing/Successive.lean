import LatticeSurgery.Proofs.Routing.Outcome
import LatticeSurgery.Proofs.Slice.Additions

/-!
# Channels one after another

Nothing is checked when a channel is recorded on a slice. That several channels of a slice keep clear of
each other rests on the order of events alone: each is recorded before the next is searched for, and the
search uses free cells only. One request takes from the free cells those of the channel that it finds
(`isFree_serve_iff`), which lies in the box, so that the box stays the same (`extent_serve`). Over a series
of requests, whatever is found was free at the start (`isFree_of_found`) and is not free any more for what
is found later (`pairwise_found`).
-/

namespace LatticeSurgery

/-- What the router can be asked for: a channel between two patches, or from a patch back to itself. -/
inductive RouteQuery where
  | join (source : PatchId) (sourceOp : Pauli) (target : PatchId) (targetOp : Pauli)
  | twist (id : PatchId)

namespace Slice

variable {s : Slice} {q : RouteQuery} {qs : List RouteQuery} {c : Cell} {r : Region}

/-- The answer of the router. -/
def ask (s : Slice) : RouteQuery → Except Fault (Option Region)
  | .join source sourceOp target targetOp => s.route source sourceOp target targetOp
  | .twist id => s.twist id

/-- The channel that the router finds, if the request is not at fault and there is one. -/
def channel? (s : Slice) (q : RouteQuery) : Option Region := (s.ask q).toOption.join

/-- Records the channel that the router finds, if any. -/
def serve (s : Slice) (q : RouteQuery) : Slice := (s.channel? q).elim s s.addChannel

/-- Serves the requests one after another. -/
def serveAll (s : Slice) (qs : List RouteQuery) : Slice := qs.foldl serve s

/-- The channels found for the requests, each on the slice as it is left by those before. -/
def found (s : Slice) : List RouteQuery → List Region
  | [] => []
  | q :: qs => (s.channel? q).toList ++ (s.serve q).found qs

/-! ### One request -/

theorem passable_of_channel? (h : s.channel? q = some r) :
    ∀ c ∈ r.cells, c ∈ Box.upTo s.extent ∧ s.isFree c := by
  have hask : s.ask q = .ok (some r) := by
    unfold channel? at h
    cases hq : s.ask q with
    | error e =>
      rw [hq] at h
      cases h
    | ok answer =>
      rw [hq] at h
      exact congrArg Except.ok h
  cases q with
  | join source sourceOp target targetOp => exact passable_of_route hask
  | twist id => exact passable_of_route hask

theorem serve_eq : s.serve q = { s with channels := s.channels ++ (s.channel? q).toList } := by
  unfold serve
  cases s.channel? q with
  | none => simp
  | some r => rfl

theorem serve_of_some (h : s.channel? q = some r) : s.add (.channel r) = .ok (s.serve q) := by
  unfold serve
  rw [h]
  rfl

theorem serve_of_none (h : s.channel? q = none) : s.serve q = s := by
  unfold serve
  rw [h]
  rfl

theorem isFree_serve_iff :
    (s.serve q).isFree c ↔ s.isFree c ∧ ∀ r ∈ s.channel? q, c ∉ r.cells := by
  cases h : s.channel? q with
  | none => simp [serve_of_none h]
  | some r =>
    rw [isFree_add_iff (serve_of_some h)]
    simp [Addition.cells]

theorem extent_serve : (s.serve q).extent = s.extent := by
  cases h : s.channel? q with
  | none => rw [serve_of_none h]
  | some r =>
    refine extent_add (serve_of_some h) fun c hc => ?_
    exact (Cell.mem_upTo_iff.1 (passable_of_channel? h c hc).1).2

/-! ### A series of requests -/

theorem serveAll_eq : s.serveAll qs = { s with channels := s.channels ++ s.found qs } := by
  induction qs generalizing s with
  | nil => simp [serveAll, found]
  | cons q qs ih =>
    show (s.serve q).serveAll qs = _
    rw [ih, serve_eq, found, serve_eq, List.append_assoc]

theorem extent_serveAll : (s.serveAll qs).extent = s.extent := by
  induction qs generalizing s with
  | nil => rfl
  | cons q qs ih =>
    show ((s.serve q).serveAll qs).extent = _
    rw [ih, extent_serve]

theorem isFree_of_found (hr : r ∈ s.found qs) (hc : c ∈ r.cells) : s.isFree c := by
  induction qs generalizing s with
  | nil => cases hr
  | cons q qs ih =>
    rcases List.mem_append.1 hr with hr | hr
    · exact (passable_of_channel? (Option.mem_toList.1 hr) c hc).2
    · exact (isFree_serve_iff.1 (ih hr)).1

theorem pairwise_found : (s.found qs).Pairwise fun r r' => r.cells.Disjoint r'.cells := by
  induction qs generalizing s with
  | nil => exact .nil
  | cons q qs ih =>
    refine List.pairwise_append.2 ⟨?_, ih, fun r hr r' hr' c hc hc' => ?_⟩
    · cases s.channel? q with
      | none => exact .nil
      | some r => exact List.pairwise_singleton _ _
    · -- a cell of a later channel is still free once this one is recorded
      have hfree := isFree_of_found hr' hc'
      exact (isFree_serve_iff.1 hfree).2 r (Option.mem_toList.1 hr) hc

/-- **Channels that are routed one after another never collide.** The channels found for a series of
requests, each recorded before the next request, are added to those of the slice. No two of them share a
cell, and none has a cell of a channel, a patch or a distillation region that was there at the start. At
no time do the extent, the patches or the outcome of the audit change. -/
theorem found_disjoint (s : Slice) (qs : List RouteQuery) :
    (s.serveAll qs).channels = s.channels ++ s.found qs ∧
    (s.found qs).Pairwise (fun r r' => r.cells.Disjoint r'.cells) ∧
    (∀ r ∈ s.found qs, ∀ c ∈ r.cells, (∀ r' ∈ s.channels, c ∉ r'.cells) ∧
      (∀ p ∈ s.patches, c ∉ p.cells) ∧ ∀ d ∈ s.layout.reserved, c ∉ d.cells) ∧
    ∀ asked, asked <+: qs → (s.serveAll asked).extent = s.extent ∧
      (s.serveAll asked).qubits = s.qubits ∧ (s.serveAll asked).magicStates = s.magicStates ∧
      (s.serveAll asked).audit = s.audit := by
  refine ⟨by rw [serveAll_eq], pairwise_found, fun r hr c hc => ?_, fun asked _ => ?_⟩
  · obtain ⟨hreserved, hpatch, hchannel⟩ := isFree_iff_forall.1 (isFree_of_found hr hc)
    exact ⟨hchannel, hpatch, hreserved⟩
  · rw [extent_serveAll, serveAll_eq]
    exact ⟨rfl, rfl, rfl, rfl⟩

/-- On `obstructed` the channel of the first request blocks the second one, but not the third. -/
example :
    (obstructed.found [.twist (.clamp 1), .join (.clamp 0) .z (.clamp 1) .z, .twist (.clamp 0)]).map
      Region.cells =
        [[.clamp 1 4, .clamp 1 3, .clamp 0 3], [.clamp 1 0, .clamp 1 1, .clamp 0 1]] := by
  decide +kernel

end Slice

end LatticeSurgery
