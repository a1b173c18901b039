import LatticeSurgery.Grid.Cell
import LatticeSurgery.Patch.Id
import LatticeSurgery.Pauli

/-!
# Faults

Everything that can stop a placement, a route or a compilation. A fault names what is to blame;
`Fault.message` is its wording for people. That two edges cannot be joined is no fault of the
router, which then answers that there is no channel; it becomes one (`Fault.noRoute`) when an
instruction needs the channel.
-/

namespace LatticeSurgery

/-- Why an operation was refused. -/
inductive Fault where
  /-- The layout has fewer patches than the program has qubits. -/
  | tooFewPatches (required available : Nat)
  /-- No patch of the slice has the id. -/
  | unknownPatch (id : PatchId)
  /-- The patch has more than one cell, and channels join single cells only. -/
  | severalCells (id : PatchId)
  /-- The observable is on other than two patches. -/
  | wrongArity (arity : Nat)
  /-- No kind of edge exposes the operator. -/
  | noEdgeFor (op : Pauli)
  /-- No free channel joins the two patches. -/
  | noRoute (source target : PatchId)
  /-- The program declares the id twice. -/
  | repeatedId (id : PatchId)
  /-- The cell is taken already. -/
  | cellTaken (cell : Cell)
  /-- The largest id is in use, so there is no fresh one. -/
  | idsExhausted
deriving DecidableEq, Repr

namespace Fault

/-- The wording of a fault. -/
def message : Fault → String
  | tooFewPatches required available =>
    "Not enough patches: " ++ required.repr ++ " qubits declared, layout provides " ++
      available.repr
  | unknownPatch id => "Patch " ++ id.val.repr ++ " not found in slice"
  | severalCells id => "Cannot route multi cell patch " ++ id.val.repr
  | wrongArity arity => "Multi patch measurement only supports 2 patches, got " ++ arity.repr
  | noEdgeFor op => "No boundary for " ++ op.letter ++ " operator"
  | noRoute source target =>
    "No ancilla route from patch " ++ source.val.repr ++ " to patch " ++ target.val.repr
  | repeatedId id => "Patch id " ++ id.val.repr ++ " declared more than once"
  | cellTaken cell =>
    "Cell (" ++ cell.row.val.repr ++ ", " ++ cell.col.val.repr ++ ") is already occupied"
  | idsExhausted => "attempt to add with overflow"

end Fault

end LatticeSurgery
