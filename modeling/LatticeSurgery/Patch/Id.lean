/-!
# Names of patches

Instructions speak of patches by id. Ids are 32-bit unsigned numbers, and all that matters about
them is which are equal and which is smaller.
-/

namespace LatticeSurgery

/-- The id of a patch: a number that fits 32 unsigned bits. -/
@[ext] structure PatchId where
  val : Nat
  val_lt : val < 4294967296 := by omega
deriving DecidableEq, Repr

namespace PatchId

instance : LT PatchId := ⟨fun a b => a.val < b.val⟩

instance (a b : PatchId) : Decidable (a < b) := inferInstanceAs (Decidable (a.val < b.val))

instance : Ord PatchId := ⟨compareOn PatchId.val⟩

instance : Std.TransOrd PatchId := inferInstanceAs (Std.TransCmp (compareOn PatchId.val))

instance : Std.LawfulEqOrd PatchId where
  compare_self := Std.ReflOrd.compare_self (α := PatchId)
  eq_of_compare h := PatchId.ext (Std.LawfulEqOrd.eq_of_compare (α := Nat) h)

/-- The id with value `n`, if `n` is in range. -/
def ofNat? (n : Nat) : Option PatchId :=
  if h : n < 4294967296 then some ⟨n, h⟩ else none

/-- The smallest id. -/
def first : PatchId := { val := 0 }

/-- The largest id. -/
def last : PatchId := { val := 4294967295 }

/-- The id nearest to a number. -/
def clamp (n : Nat) : PatchId := (ofNat? n).getD last

variable {a b : PatchId} {n : Nat}

theorem lt_iff : a < b ↔ a.val < b.val := Iff.rfl

theorem lt_irrefl (a : PatchId) : ¬ a < a := Nat.lt_irrefl a.val

theorem lt_trans {c : PatchId} (hab : a < b) (hbc : b < c) : a < c := Nat.lt_trans hab hbc

theorem lt_trichotomy (a b : PatchId) : a < b ∨ a = b ∨ b < a := by
  simp only [lt_iff, PatchId.ext_iff]; omega

theorem eq_last_iff : a = last ↔ a.val = 4294967295 := PatchId.ext_iff

theorem ofNat?_eq_some_iff : ofNat? n = some a ↔ a.val = n := by
  have := a.val_lt
  simp only [ofNat?]
  split
  · simp only [Option.some.injEq, PatchId.ext_iff]; omega
  · simp only [reduceCtorEq, false_iff]; omega

theorem ofNat?_eq_none_iff : ofNat? n = none ↔ 4294967296 ≤ n := by
  simp only [ofNat?]; split <;> simp <;> omega

end PatchId

end LatticeSurgery
