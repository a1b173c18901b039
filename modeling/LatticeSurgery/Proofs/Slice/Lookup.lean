import LatticeSurgery.Proofs.Slice.Audit

/-!
# Looking up patches

A lookup by cell reads the qubit patches, then the magic states, and stops at the first patch that covers the
cell, so a patch could hide behind another one. The audit rules that out, although it looks at no patch at all
but only for a cell that is listed twice: where it passes, a cell is covered from one position at most
(`NoOverlap.position_eq`), and the lookup gives the patch that is there. A lookup by id is not affected by
cells, but the patches that two ids lead to are different, hence keep clear of each other.
-/

namespace LatticeSurgery

namespace Slice

variable {s : Slice} {c : Cell} {p q : Patch} {i j : Nat} {id : PatchId}

theorem patchAt?_eq_find? : s.patchAt? c = s.patches.find? (·.covers c) :=
  List.find?_append.symm

theorem mem_of_find?_covers {patches : List Patch} (h : patches.find? (·.covers c) = some p) :
    p ∈ patches ∧ c ∈ p.cells := by
  have hcovers := List.find?_some h
  exact ⟨List.mem_of_find?_eq_some h, Patch.covers_iff.1 hcovers⟩

theorem mem_of_qubit (h : s.qubit id = .ok p) : p ∈ s.patches ∧ p.id = some id := by
  unfold qubit at h
  split at h
  · next q hq =>
    cases h
    exact ⟨List.mem_append_left _ (List.mem_of_find?_eq_some hq), by simpa using List.find?_some hq⟩
  · cases h

/-! ### Patches without overlap -/

theorem NoOverlap.position_eq (h : s.NoOverlap) (hi : s.patches[i]? = some p)
    (hj : s.patches[j]? = some q) (hp : c ∈ p.cells) (hq : c ∈ q.cells) : i = j := by
  obtain ⟨hilt, rfl⟩ := List.getElem?_eq_some_iff.1 hi
  obtain ⟨hjlt, rfl⟩ := List.getElem?_eq_some_iff.1 hj
  have hapart := List.pairwise_iff_getElem.1 h
  by_contra hne
  rcases Nat.lt_or_gt_of_ne hne with hlt | hlt
  · exact hapart i j hilt hjlt hlt hp hq
  · exact hapart j i hjlt hilt hlt hq hp

theorem NoOverlap.eq_of_mem (h : s.NoOverlap) (hp : p ∈ s.patches) (hq : q ∈ s.patches)
    (hcp : c ∈ p.cells) (hcq : c ∈ q.cells) : p = q := by
  obtain ⟨i, hi⟩ := List.mem_iff_getElem?.1 hp
  obtain ⟨j, hj⟩ := List.mem_iff_getElem?.1 hq
  rw [h.position_eq hi hj hcp hcq, hj] at hi
  exact (Option.some.inj hi).symm

theorem NoOverlap.patchAt?_eq_some_iff (h : s.NoOverlap) :
    s.patchAt? c = some p ↔ p ∈ s.patches ∧ c ∈ p.cells := by
  rw [patchAt?_eq_find?]
  constructor
  · exact mem_of_find?_covers
  · intro hmem
    obtain ⟨hp, hcp⟩ := hmem
    cases hfind : s.patches.find? (·.covers c) with
    | none => exact absurd (Patch.covers_iff.2 hcp) (List.find?_eq_none.1 hfind p hp)
    | some q =>
      obtain ⟨hq, hcq⟩ := mem_of_find?_covers hfind
      rw [h.eq_of_mem hq hp hcq hcp]

theorem NoOverlap.not_qubitAt?_and_magicStateAt? (h : s.NoOverlap) :
    ¬ ((s.qubitAt? c).isSome ∧ (s.magicStateAt? c).isSome) := by
  intro hboth
  obtain ⟨p, hp⟩ := Option.isSome_iff_exists.1 hboth.1
  obtain ⟨q, hq⟩ := Option.isSome_iff_exists.1 hboth.2
  obtain ⟨hp, hcp⟩ := mem_of_find?_covers hp
  obtain ⟨hq, hcq⟩ := mem_of_find?_covers hq
  exact (List.pairwise_append.1 h).2.2 p hp q hq hcp hcq

theorem NoOverlap.disjoint_of_qubit {a b : PatchId} (h : s.NoOverlap) (hab : a ≠ b)
    (ha : s.qubit a = .ok p) (hb : s.qubit b = .ok q) : p.cells.Disjoint q.cells := by
  intro c hcp hcq
  obtain ⟨hp, hpid⟩ := mem_of_qubit ha
  obtain ⟨hq, hqid⟩ := mem_of_qubit hb
  rw [h.eq_of_mem hp hq hcp hcq, hqid] at hpid
  exact hab (Option.some.inj hpid).symm

/-- **No patch is hidden.** On a slice that passes the audit, the patch that a lookup by cell gives is
exactly the one that covers the cell. It stands at the only position, among the qubit patches and then the
magic states, from which the cell is covered, so a qubit patch and a magic state are never found on the same
cell. The patches that two different ids lead to have no cell in common. -/
theorem lookups_of_audit (h : s.audit = .ok ()) :
    (∀ c p, p ∈ s.patches ∧ p.covers c ↔ s.patchAt? c = some p) ∧
    (∀ c (i j : Nat) (p q : Patch), s.patches[i]? = some p → s.patches[j]? = some q →
      p.covers c → q.covers c → i = j) ∧
    (∀ c, ¬ ((s.qubitAt? c).isSome ∧ (s.magicStateAt? c).isSome)) ∧
    ∀ a b p q, a ≠ b → s.qubit a = .ok p → s.qubit b = .ok q → ∀ c, ¬ (p.covers c ∧ q.covers c) := by
  have hoverlap : s.NoOverlap := (audit_eq_ok_iff_noOverlap.1 h).2
  simp only [Patch.covers_iff]
  refine ⟨fun c p => hoverlap.patchAt?_eq_some_iff.symm, fun c i j p q hi hj hp hq => ?_,
    fun c => hoverlap.not_qubitAt?_and_magicStateAt?, fun a b p q hab ha hb c hboth => ?_⟩
  · exact hoverlap.position_eq hi hj hp hq
  · exact hoverlap.disjoint_of_qubit hab ha hb hboth.1 hboth.2

/-- On `obstructed` the lookups see the patch without id, which no lookup by id does, and the magic state. -/
theorem lookups_obstructed :
    obstructed.audit = .ok () ∧
    obstructed.patchAt? (.clamp 0 2) = some (.square (.clamp 0 2)) ∧
    obstructed.patchAt? (.clamp 2 4) = some (.square (.clamp 2 4)) ∧
    ¬ ((obstructed.qubitAt? (.clamp 2 4)).isSome ∧ (obstructed.magicStateAt? (.clamp 2 4)).isSome) ∧
    ∃ p q, obstructed.qubit (.clamp 0) = .ok p ∧ obstructed.qubit (.clamp 1) = .ok q ∧
      ∀ c, ¬ (p.covers c ∧ q.covers c) := by
  have haudit : obstructed.audit = .ok () := by decide +kernel
  obtain ⟨hcell, -, hkind, hids⟩ := lookups_of_audit haudit
  refine ⟨haudit, (hcell _ _).1 (by decide), (hcell _ _).1 (by decide), hkind _, _, _, rfl, rfl, ?_⟩
  exact hids (.clamp 0) (.clamp 1) _ _ (by decide) rfl rfl

end Slice

end LatticeSurgery
