/-!
# Coordinates

Rows and columns are 32-bit signed integers. A coordinate carries its range, so arithmetic is done
on the exact value and only its result meets the range again: it fits (`Coord.ofInt?`), or it is
moved to the nearer end (`Coord.clamp`).
-/

namespace LatticeSurgery

/-- A row or a column: an integer that fits 32 signed bits. -/
@[ext] structure Coord where
  val : Int
  le_val : -2147483648 ≤ val := by omega
  val_le : val ≤ 2147483647 := by omega
deriving DecidableEq, Repr

namespace Coord

instance : LE Coord := ⟨fun a b => a.val ≤ b.val⟩

instance : LT Coord := ⟨fun a b => a.val < b.val⟩

instance (a b : Coord) : Decidable (a ≤ b) := inferInstanceAs (Decidable (a.val ≤ b.val))

instance (a b : Coord) : Decidable (a < b) := inferInstanceAs (Decidable (a.val < b.val))

instance : Ord Coord := ⟨compareOn Coord.val⟩

instance : Std.TransOrd Coord := inferInstanceAs (Std.TransCmp (compareOn Coord.val))

instance : Std.LawfulEqOrd Coord where
  compare_self := Std.ReflOrd.compare_self (α := Coord)
  eq_of_compare h := Coord.ext (Std.LawfulEqOrd.eq_of_compare (α := Int) h)

/-- The larger of two coordinates. -/
instance : Max Coord := ⟨fun a b => if a ≤ b then b else a⟩

instance : OfNat Coord 0 := ⟨{ val := 0 }⟩

/-- The coordinate with value `n`, if `n` is in range. -/
def ofInt? (n : Int) : Option Coord :=
  if h : -2147483648 ≤ n ∧ n ≤ 2147483647 then some ⟨n, h.1, h.2⟩ else none

/-- The coordinate nearest to `n`. -/
def clamp (n : Int) : Coord :=
  if h₁ : n < -2147483648 then { val := -2147483648 }
  else if h₂ : 2147483647 < n then { val := 2147483647 }
  else { val := n }

/-- The number of coordinates from `lo` to `hi`, both included; none if `hi < lo`. -/
def rangeSize (lo hi : Coord) : Nat :=
  (hi.val - lo.val + 1).toNat

/-- The coordinates from `lo` to `hi`, both included, in increasing order. -/
def range (lo hi : Coord) : List Coord :=
  List.ofFn fun i : Fin (rangeSize lo hi) =>
    { val := lo.val + (i.val : Int)
      le_val := by have := lo.le_val; omega
      val_le := by have := hi.val_le; have := i.isLt; simp only [rangeSize] at this; omega }

/-! ### What the operations do to the value -/

variable {a b lo hi : Coord} {n : Int}

theorem le_iff : a ≤ b ↔ a.val ≤ b.val := Iff.rfl

theorem lt_iff : a < b ↔ a.val < b.val := Iff.rfl

@[simp] theorem val_zero : (0 : Coord).val = 0 := rfl

theorem val_max : (max a b).val = if a.val ≤ b.val then b.val else a.val := by
  show (if a ≤ b then b else a).val = _
  simp only [le_iff]
  split <;> rfl

theorem ofInt?_eq_some_iff : ofInt? n = some a ↔ a.val = n := by
  have := a.le_val
  have := a.val_le
  simp only [ofInt?]
  split
  · simp only [Option.some.injEq, Coord.ext_iff]; omega
  · simp only [reduceCtorEq, false_iff]; omega

@[simp] theorem ofInt?_val (a : Coord) : ofInt? a.val = some a :=
  ofInt?_eq_some_iff.2 rfl

theorem clamp_eq_of_val_eq (h : a.val = n) : clamp n = a := by
  have := a.le_val
  have := a.val_le
  simp only [clamp]
  split
  · omega
  · split
    · omega
    · exact Coord.ext h.symm

theorem val_clamp :
    (clamp n).val =
      if n < -2147483648 then -2147483648 else if 2147483647 < n then 2147483647 else n := by
  simp only [clamp]
  split
  · rfl
  · split <;> rfl

theorem clamp_le_clamp {m : Int} (h : m ≤ n) : clamp m ≤ clamp n := by
  simp only [le_iff, val_clamp]
  split <;> split <;> omega

@[simp] theorem length_range : (range lo hi).length = rangeSize lo hi := by
  simp [range]

theorem mem_range : a ∈ range lo hi ↔ lo ≤ a ∧ a ≤ hi := by
  simp only [range, List.mem_ofFn, le_iff]
  constructor
  · rintro ⟨i, rfl⟩
    have := i.isLt
    simp only [rangeSize] at this
    constructor <;> simp only <;> omega
  · rintro ⟨h₁, h₂⟩
    refine ⟨⟨(a.val - lo.val).toNat, by simp only [rangeSize]; omega⟩, ?_⟩
    apply Coord.ext
    simp only
    omega

end Coord

end LatticeSurgery
