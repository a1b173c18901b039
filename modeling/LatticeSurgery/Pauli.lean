/-!
# Pauli operators
-/

namespace LatticeSurgery

/-- A Pauli operator on one logical qubit. -/
inductive Pauli where
  | i
  | x
  | y
  | z
deriving DecidableEq, Repr

namespace Pauli

/-- The letter that names the operator. -/
def letter : Pauli → String
  | i => "I"
  | x => "X"
  | y => "Y"
  | z => "Z"

end Pauli

end LatticeSurgery
