import LatticeSurgery.Program.Observable

/-!
# Programs

A program declares its logical qubits and lists the steps to take on them.
-/

namespace LatticeSurgery

/-- One step of a program. -/
inductive Instruction where
  /-- Measures a patch out. -/
  | measure (target : PatchId)
  /-- Applies a logical Pauli operator to a patch. -/
  | pauli (target : PatchId)
  /-- Measures a product of operators. -/
  | joint (observable : Observable)
  /-- Asks for a magic state next to a patch. -/
  | requestMagic (target : PatchId)
deriving DecidableEq, Repr

/-- Logical qubits and the steps to take on them. -/
structure Program where
  qubits : List PatchId
  instructions : List Instruction
deriving DecidableEq, Repr

end LatticeSurgery
