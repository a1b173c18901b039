import LatticeSurgery.Proofs.Slice.Additions
import Mathlib.Data.List.Nodup

/-!
# Placement and the audit

The audit looks for a cell that is covered twice, by two patches or by one. Placement looks for something else:
a cell of the new patch that is not free at the moment. A cell that another patch covers is not free, so
patches that are placed keep clear of each other (`NoOverlap.attempt`), whatever else is put on the slice or
refused in between. A patch that lists a cell of its own twice gets past placement, though, since the cell is
free both times, and such patches are all that the audit can find afterwards.
-/

namespace LatticeSurgery

namespace Slice

variable {s t : Slice} {a : Addition} {p : Patch}

/-- Different patches of the slice have no cell in common. -/
def NoOverlap (s : Slice) : Prop := s.patches.Pairwise fun p q => p.cells.Disjoint q.cells

theorem audit_eq_ok_iff_noOverlap :
    s.audit = .ok () ↔ (∀ p ∈ s.patches, p.cells.Nodup) ∧ s.NoOverlap := by
  rw [audit_eq_ok_iff]
  exact List.nodup_flatMap

/-! ### One attempt -/

/-- The patch that is placed by an attempt, if it is one with a patch and is not refused. -/
def placed? (s : Slice) (a : Addition) : Option Patch :=
  match s.add a with
  | .ok _ => a.patch?
  | .error _ => none

theorem isFree_of_placed? (h : s.placed? a = some p) : ∀ c ∈ p.cells, s.isFree c := by
  unfold placed? at h
  split at h
  · next t ht => exact isFree_of_add h ht
  · cases h

theorem patches_attempt_perm : (s.attempt a).patches.Perm ((s.placed? a).toList ++ s.patches) := by
  unfold attempt placed?
  cases h : s.add a with
  | error e => exact .refl _
  | ok t =>
    rcases add_cases h with ⟨p, rfl, rfl⟩ | ⟨p, rfl, rfl⟩ | ⟨r, rfl, rfl⟩
    · show (s.qubits ++ [p] ++ s.magicStates).Perm (p :: (s.qubits ++ s.magicStates))
      rw [List.append_assoc]
      exact List.perm_middle
    · show (s.qubits ++ (s.magicStates ++ [p])).Perm (p :: (s.qubits ++ s.magicStates))
      rw [← List.append_assoc]
      exact List.perm_append_singleton p _
    · exact .refl _

theorem NoOverlap.attempt (h : s.NoOverlap) : (s.attempt a).NoOverlap := by
  unfold NoOverlap
  rw [patches_attempt_perm.pairwise_iff fun hpq => List.disjoint_symm hpq]
  cases hp : s.placed? a with
  | none => exact h
  | some p =>
    -- the cells of the new patch were free, so no other patch covers one of them
    refine List.pairwise_cons.2 ⟨fun q hq c hcp hcq => ?_, h⟩
    have hfree := isFree_of_placed? hp c hcp
    exact (isFree_iff_forall.1 hfree).2.1 q hq hcq

/-! ### A series of attempts -/

/-- The slice after attempts to put things on it, one after another. -/
def attemptAll (s : Slice) (as : List Addition) : Slice := as.foldl attempt s

/-- The patches that are accepted in the course of the attempts. -/
def accepted (s : Slice) : List Addition → List Patch
  | [] => []
  | a :: as => (s.placed? a).toList ++ (s.attempt a).accepted as

theorem NoOverlap.attemptAll {as : List Addition} (h : s.NoOverlap) : (s.attemptAll as).NoOverlap := by
  induction as generalizing s with
  | nil => exact h
  | cons a as ih => exact ih h.attempt

theorem mem_patches_attemptAll {as : List Addition} :
    p ∈ (s.attemptAll as).patches ↔ p ∈ s.accepted as ∨ p ∈ s.patches := by
  induction as generalizing s with
  | nil => simp [attemptAll, accepted]
  | cons a as ih =>
    show p ∈ ((s.attempt a).attemptAll as).patches ↔ _
    rw [ih, patches_attempt_perm.mem_iff, accepted, List.mem_append, List.mem_append]
    tauto

/-- **Placement and audit differ by self-overlap.** On a slice that passes the audit, let things be put one
after another, whatever they are and wherever they go; what is refused leaves the slice as it was. Then
different patches still have no cell in common, and the slice passes the audit again exactly when none of
the accepted patches lists one of its own cells twice. -/
theorem audit_attemptAll_iff (h : s.audit = .ok ()) (as : List Addition) :
    (s.attemptAll as).patches.Pairwise (fun p q => p.cells.Disjoint q.cells) ∧
    ((s.attemptAll as).audit = .ok () ↔ ∀ p ∈ s.accepted as, p.cells.Nodup) := by
  obtain ⟨hnodup, hoverlap⟩ := audit_eq_ok_iff_noOverlap.1 h
  have hafter : (s.attemptAll as).NoOverlap := hoverlap.attemptAll
  refine ⟨hafter, ?_⟩
  rw [audit_eq_ok_iff_noOverlap, and_iff_left hafter]
  constructor
  · intro hall p hp
    exact hall p (mem_patches_attemptAll.2 (.inl hp))
  · intro haccepted p hp
    rcases mem_patches_attemptAll.1 hp with hp | hp
    · exact haccepted p hp
    · exact hnodup p hp

/-- A patch that lists its only cell twice. -/
def doubled : Patch := { shape := .multi [.bare (.clamp 1 0), .bare (.clamp 1 0)] }

/-- Four attempts on `obstructed`, of which the second meets the first and the third meets a reserved cell. -/
def crowding : List Addition :=
  [.magicState doubled, .qubit (.square (.clamp 1 0)), .qubit (.square (.clamp 1 2)),
    .qubit (.square (.clamp 1 1))]

/-- What is accepted keeps clear of the rest, but the audit fails on the patch that is doubled. -/
theorem audit_crowding :
    obstructed.audit = .ok () ∧ obstructed.accepted crowding = [doubled, .square (.clamp 1 1)] ∧
    (obstructed.attemptAll crowding).patches.Pairwise (fun p q => p.cells.Disjoint q.cells) ∧
    (obstructed.attemptAll crowding).audit ≠ .ok () := by
  have haudit : obstructed.audit = .ok () := by decide +kernel
  have haccepted : obstructed.accepted crowding = [doubled, .square (.clamp 1 1)] := by decide +kernel
  obtain ⟨hapart, hiff⟩ := audit_attemptAll_iff haudit crowding
  refine ⟨haudit, haccepted, hapart, fun hafter => ?_⟩
  have hnodup := hiff.1 hafter doubled
  rw [haccepted] at hnodup
  exact absurd (hnodup List.mem_cons_self) (by decide)

end Slice

end LatticeSurgery
