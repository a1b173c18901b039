import LatticeSurgery.Patch.Id
import LatticeSurgery.Pauli

/-!
# Observables of joint measurements

An observable is a product of Pauli operators on different patches. Its factors are kept in
increasing order of the patches' ids, so a product has one form however it was written down. A
patch that is named again takes the later operator.
-/

namespace LatticeSurgery

/-- A Pauli operator on one patch. -/
abbrev Factor := PatchId × Pauli

/-- Puts a factor in its place among factors in increasing order, or in the place of the same id. -/
def insertFactor (f : Factor) : List Factor → List Factor
  | [] => [f]
  | g :: fs =>
    if f.1 < g.1 then f :: g :: fs
    else if f.1 = g.1 then f :: fs
    else g :: insertFactor f fs

theorem mem_insertFactor {f g : Factor} {fs : List Factor} (h : g ∈ insertFactor f fs) :
    g = f ∨ g ∈ fs := by
  induction fs with
  | nil => simpa [insertFactor] using h
  | cons x fs ih => grind [insertFactor]

theorem pairwise_insertFactor {f : Factor} {fs : List Factor} (h : fs.Pairwise (·.1 < ·.1)) :
    (insertFactor f fs).Pairwise (·.1 < ·.1) := by
  induction fs with
  | nil => simp [insertFactor]
  | cons g fs ih =>
    obtain ⟨hg, hfs⟩ := List.pairwise_cons.1 h
    simp only [insertFactor]
    split
    · next hlt =>
      refine List.pairwise_cons.2 ⟨fun x hx => ?_, h⟩
      rcases List.mem_cons.1 hx with rfl | hx
      · exact hlt
      · exact PatchId.lt_trans hlt (hg x hx)
    · next hlt =>
      split
      · next heq => exact List.pairwise_cons.2 ⟨fun x hx => heq ▸ hg x hx, hfs⟩
      · next hne =>
        refine List.pairwise_cons.2 ⟨fun x hx => ?_, ih hfs⟩
        rcases mem_insertFactor hx with rfl | hx
        · rcases PatchId.lt_trichotomy x.1 g.1 with h | h | h
          · exact absurd h hlt
          · exact absurd h hne
          · exact h
        · exact hg x hx

/-- A product of Pauli operators on different patches. -/
@[ext] structure Observable where
  factors : List Factor
  increasing : factors.Pairwise (·.1 < ·.1)
deriving DecidableEq, Repr

namespace Observable

/-- The product of no operators. -/
def one : Observable := ⟨[], .nil⟩

/-- The product with another factor, which replaces one on the same patch. -/
def insert (o : Observable) (f : Factor) : Observable :=
  ⟨insertFactor f o.factors, pairwise_insertFactor o.increasing⟩

/-- The product of the factors, the last one for each patch. -/
def ofList (fs : List Factor) : Observable := fs.foldl insert one

end Observable

end LatticeSurgery
