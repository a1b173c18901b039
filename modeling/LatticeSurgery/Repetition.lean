import Std.Data.TreeSet

/-!
# The first repetition in a list

Reading a list from the left, `firstRepeat?` is the first element that was there before. There is
none exactly when all elements are different, and otherwise everything up to it is.
-/

namespace LatticeSurgery

variable {α : Type} [Ord α]

/-- The first element that is in `seen` or that repeats an earlier one. -/
def firstRepeatAfter? (seen : Std.TreeSet α) : List α → Option α
  | [] => none
  | a :: l => if seen.contains a then some a else firstRepeatAfter? (seen.insert a) l

/-- The first element that repeats an earlier one. -/
def firstRepeat? (l : List α) : Option α := firstRepeatAfter? ∅ l

variable [Std.TransOrd α] [Std.LawfulEqOrd α]

theorem mem_insert_iff {seen : Std.TreeSet α} {a b : α} : b ∈ seen.insert a ↔ b = a ∨ b ∈ seen := by
  rw [Std.TreeSet.mem_insert, Std.compare_eq_iff_eq, eq_comm]

theorem firstRepeatAfter?_eq_none_iff {seen : Std.TreeSet α} {l : List α} :
    firstRepeatAfter? seen l = none ↔ l.Nodup ∧ ∀ a ∈ l, a ∉ seen := by
  induction l generalizing seen with
  | nil => simp [firstRepeatAfter?]
  | cons a l ih =>
    simp only [firstRepeatAfter?, Std.TreeSet.contains_iff_mem]
    split
    · next h => simp [h]
    · next h =>
      rw [ih]
      simp only [List.nodup_cons, List.mem_cons, mem_insert_iff]
      constructor
      · rintro ⟨hl, hs⟩
        refine ⟨⟨fun ha => (hs a ha) (.inl rfl), hl⟩, ?_⟩
        rintro b (rfl | hb)
        · exact h
        · exact fun hb' => hs b hb (.inr hb')
      · rintro ⟨⟨ha, hl⟩, hs⟩
        refine ⟨hl, fun b hb => ?_⟩
        rintro (rfl | hb')
        · exact ha hb
        · exact hs b (.inr hb) hb'

theorem firstRepeat?_eq_none_iff {l : List α} : firstRepeat? l = none ↔ l.Nodup := by
  simp [firstRepeat?, firstRepeatAfter?_eq_none_iff]

theorem firstRepeatAfter?_eq_some_iff {seen : Std.TreeSet α} {l : List α} {a : α} :
    firstRepeatAfter? seen l = some a ↔ ∃ pre post, l = pre ++ a :: post ∧
      pre.Nodup ∧ (∀ b ∈ pre, b ∉ seen) ∧ (a ∈ pre ∨ a ∈ seen) := by
  induction l generalizing seen with
  | nil => simp [firstRepeatAfter?]
  | cons x l ih =>
    simp only [firstRepeatAfter?, Std.TreeSet.contains_iff_mem]
    split
    · next h =>
      constructor
      · rintro ⟨⟩
        exact ⟨[], l, rfl, .nil, by simp, .inr h⟩
      · rintro ⟨pre, post, hl, -, hs, ha⟩
        cases pre with
        | nil => simp_all
        | cons y pre =>
          obtain ⟨rfl, -⟩ := List.cons.inj hl
          exact absurd h (hs x (by simp))
    · next h =>
      rw [ih]
      constructor
      · rintro ⟨pre, post, rfl, hnd, hs, ha⟩
        refine ⟨x :: pre, post, rfl, ?_, ?_, ?_⟩
        · exact List.nodup_cons.2 ⟨fun hx => hs x hx (mem_insert_iff.2 (.inl rfl)), hnd⟩
        · rintro b hb
          rcases List.mem_cons.1 hb with rfl | hb
          · exact h
          · exact fun hb' => hs b hb (mem_insert_iff.2 (.inr hb'))
        · rcases ha with ha | ha
          · exact .inl (by simp [ha])
          · rcases mem_insert_iff.1 ha with rfl | ha
            · exact .inl (by simp)
            · exact .inr ha
      · rintro ⟨pre, post, hl, hnd, hs, ha⟩
        cases pre with
        | nil =>
          obtain ⟨rfl, -⟩ := List.cons.inj hl
          simp_all
        | cons y pre =>
          obtain ⟨rfl, rfl⟩ := List.cons.inj hl
          obtain ⟨hx, hnd⟩ := List.nodup_cons.1 hnd
          refine ⟨pre, post, rfl, hnd, fun b hb => ?_, ?_⟩
          · rw [mem_insert_iff]
            rintro (rfl | hb')
            · exact hx hb
            · exact hs b (by simp [hb]) hb'
          · rcases ha with ha | ha
            · rcases List.mem_cons.1 ha with rfl | ha
              · exact .inr (mem_insert_iff.2 (.inl rfl))
              · exact .inl ha
            · exact .inr (mem_insert_iff.2 (.inr ha))

theorem firstRepeat?_eq_some_iff {l : List α} {a : α} :
    firstRepeat? l = some a ↔ ∃ pre post, l = pre ++ a :: post ∧ pre.Nodup ∧ a ∈ pre := by
  simp [firstRepeat?, firstRepeatAfter?_eq_some_iff]

end LatticeSurgery
