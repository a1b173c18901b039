import LatticeSurgery.Program.Basic
import Mathlib.Data.List.Nodup
import Mathlib.Logic.Equiv.Basic

/-!
# Programs under other names

A permutation of the ids renames the qubits of a program, the targets of its instructions and the patches
of its observables. An observable keeps its factors in the order of the ids, so renaming may also move
them: the factors are the same up to their order (`factors_rename_perm`), and in their old order if the
new names have it (`factors_rename_of_pairwise`). Renaming back gives the program again
(`Program.rename_symm`).
-/

namespace LatticeSurgery

theorem insertFactor_perm {f : Factor} {fs : List Factor} (h : ∀ g ∈ fs, f.1 ≠ g.1) :
    (insertFactor f fs).Perm (f :: fs) := by
  induction fs with
  | nil => exact .refl _
  | cons g fs ih =>
    rw [List.forall_mem_cons] at h
    rw [insertFactor]
    split
    · exact .refl _
    · rw [if_neg h.1]
      exact ((ih h.2).cons g).trans (.swap f g fs)

namespace Observable

variable {o o' : Observable} {f g : Factor} {fs : List Factor} {π : Equiv.Perm PatchId}

/-! ### Factors in order -/

theorem factors_eq_of_perm (h : o.factors.Perm fs) (hfs : fs.Pairwise (·.1 < ·.1)) :
    o.factors = fs := by
  apply List.Perm.eq_of_pairwise _ o.increasing hfs h
  intro f g _ _ hfg hgf
  exact absurd (PatchId.lt_trans hfg hgf) (PatchId.lt_irrefl _)

theorem nodup_ids (o : Observable) : (o.factors.map Prod.fst).Nodup := by
  refine List.pairwise_map.2 (o.increasing.imp fun hlt heq => ?_)
  rw [heq] at hlt
  exact PatchId.lt_irrefl _ hlt

theorem factors_foldl_insert_perm (h : ((o.factors ++ fs).map Prod.fst).Nodup) :
    (fs.foldl insert o).factors.Perm (o.factors ++ fs) := by
  induction fs generalizing o with
  | nil => rw [List.append_nil]; exact .refl _
  | cons f fs ih =>
    have hnew : ∀ g ∈ o.factors, f.1 ≠ g.1 := by
      intro g hg heq
      rw [List.map_append, List.nodup_append] at h
      exact h.2.2 g.1 (List.mem_map_of_mem hg) f.1 (by simp) heq.symm
    have hinsert : ((o.insert f).factors ++ fs).Perm (o.factors ++ f :: fs) :=
      ((insertFactor_perm hnew).append_right fs).trans List.perm_middle.symm
    refine (ih ?_).trans hinsert
    exact ((hinsert.map Prod.fst).nodup_iff).2 h

theorem factors_ofList_perm (h : (fs.map Prod.fst).Nodup) : (ofList fs).factors.Perm fs :=
  factors_foldl_insert_perm (o := one) h

/-! ### Renaming -/

/-- The product on the renamed patches. -/
def rename (π : Equiv.Perm PatchId) (o : Observable) : Observable :=
  .ofList (o.factors.map (Prod.map π id))

theorem factors_rename_perm (π : Equiv.Perm PatchId) (o : Observable) :
    (o.rename π).factors.Perm (o.factors.map (Prod.map π id)) := by
  apply factors_ofList_perm
  have hids : (o.factors.map (Prod.map π id)).map Prod.fst = (o.factors.map Prod.fst).map π := by
    rw [List.map_map, List.map_map]
    rfl
  rw [hids]
  exact o.nodup_ids.map π.injective

theorem factors_rename_of_pairwise (h : o.factors.Pairwise fun f g => π f.1 < π g.1) :
    (o.rename π).factors = o.factors.map (Prod.map π id) :=
  factors_eq_of_perm (factors_rename_perm π o) (List.pairwise_map.2 h)

theorem factors_rename_of_gt (ho : o.factors = [f, g]) (h : π g.1 < π f.1) :
    (o.rename π).factors = [Prod.map π id g, Prod.map π id f] := by
  have hperm := factors_rename_perm π o
  rw [ho] at hperm
  exact factors_eq_of_perm (hperm.trans (.swap _ _ [])) (List.pairwise_pair.2 h)

theorem rename_symm (π : Equiv.Perm PatchId) (o : Observable) : (o.rename π).rename π.symm = o := by
  have hback : (o.factors.map (Prod.map π id)).map (Prod.map π.symm id) = o.factors := by
    rw [List.map_map, Prod.map_comp_map, π.symm_comp_self, Function.comp_id, Prod.map_id, List.map_id]
  have hperm := (factors_rename_perm π.symm (o.rename π)).trans
    ((factors_rename_perm π o).map (Prod.map π.symm id))
  rw [hback] at hperm
  exact Observable.ext (factors_eq_of_perm hperm o.increasing)

end Observable

/-- The instruction on the renamed patches. -/
def Instruction.rename (π : Equiv.Perm PatchId) : Instruction → Instruction
  | .measure target => .measure (π target)
  | .pauli target => .pauli (π target)
  | .joint observable => .joint (observable.rename π)
  | .requestMagic target => .requestMagic (π target)

/-- The renaming keeps the order of the patches in the observable of the instruction. -/
def Instruction.KeepsOrder (π : Equiv.Perm PatchId) : Instruction → Prop
  | .joint observable => observable.factors.Pairwise fun f g => π f.1 < π g.1
  | .measure _ | .pauli _ | .requestMagic _ => True

instance (π : Equiv.Perm PatchId) (i : Instruction) : Decidable (i.KeepsOrder π) :=
  match i with
  | .joint observable =>
    inferInstanceAs (Decidable (observable.factors.Pairwise fun f g => π f.1 < π g.1))
  | .measure _ | .pauli _ | .requestMagic _ => .isTrue trivial

theorem Instruction.rename_symm (π : Equiv.Perm PatchId) (i : Instruction) :
    (i.rename π).rename π.symm = i := by
  cases i with
  | measure target => exact congrArg Instruction.measure (π.symm_apply_apply target)
  | pauli target => exact congrArg Instruction.pauli (π.symm_apply_apply target)
  | joint o => exact congrArg Instruction.joint (o.rename_symm π)
  | requestMagic target => exact congrArg Instruction.requestMagic (π.symm_apply_apply target)

/-- The program with all its ids renamed. -/
def Program.rename (π : Equiv.Perm PatchId) (p : Program) : Program where
  qubits := p.qubits.map π
  instructions := p.instructions.map (·.rename π)

theorem Program.rename_symm (π : Equiv.Perm PatchId) (p : Program) :
    (p.rename π).rename π.symm = p := by
  have hqubits : (p.qubits.map π).map π.symm = p.qubits := by
    rw [List.map_map, π.symm_comp_self, List.map_id]
  have hinstructions : (p.instructions.map (·.rename π)).map (·.rename π.symm) = p.instructions := by
    rw [List.map_map]
    exact (List.map_congr_left fun i _ => i.rename_symm π).trans (List.map_id _)
  exact congrArg₂ Program.mk hqubits hinstructions

end LatticeSurgery
