import LatticeSurgery.Fault

/-!
# Fresh ids

A source hands out ids in increasing order and never the same one twice. A source that starts
above every id in use therefore never repeats one of those either. The largest id is never handed
out: the source would have nowhere to go from it.
-/

namespace LatticeSurgery

/-- A source of fresh ids. -/
structure IdSource where
  next : PatchId
deriving DecidableEq, Repr

namespace IdSource

/-- The source that starts at the smallest id. -/
def initial : IdSource := ⟨.first⟩

/-- The least number above all the ids. -/
def firstAbove (ids : List PatchId) : Nat :=
  ids.foldr (fun id n => if n ≤ id.val then id.val + 1 else n) 0

/-- The source that starts just above all the ids that are taken. -/
def above (taken : List PatchId) : Except Fault IdSource :=
  match PatchId.ofNat? (firstAbove taken) with
  | some next => .ok ⟨next⟩
  | none => .error .idsExhausted

/-- Hands out the next id. -/
def draw (s : IdSource) : Except Fault (PatchId × IdSource) :=
  match PatchId.ofNat? (s.next.val + 1) with
  | some next => .ok (s.next, ⟨next⟩)
  | none => .error .idsExhausted

variable {s s' : IdSource} {id : PatchId} {taken : List PatchId}

theorem firstAbove_cons (id : PatchId) (ids : List PatchId) :
    firstAbove (id :: ids) = if firstAbove ids ≤ id.val then id.val + 1 else firstAbove ids :=
  rfl

theorem lt_firstAbove (h : id ∈ taken) : id.val < firstAbove taken := by
  induction taken with
  | nil => cases h
  | cons head rest ih =>
    rw [firstAbove_cons]
    rcases List.mem_cons.1 h with rfl | h
    · split <;> omega
    · have := ih h
      split <;> omega

theorem firstAbove_eq_zero_or (taken : List PatchId) :
    firstAbove taken = 0 ∨ ∃ id ∈ taken, firstAbove taken = id.val + 1 := by
  induction taken with
  | nil => exact .inl rfl
  | cons head rest ih =>
    right
    rw [firstAbove_cons]
    split
    · exact ⟨head, by simp, rfl⟩
    · rcases ih with ih | ⟨id, hid, ih⟩
      · omega
      · exact ⟨id, by simp [hid], ih⟩

theorem above_eq_ok_iff : above taken = .ok s ↔ s.next.val = firstAbove taken := by
  unfold above
  rw [← PatchId.ofNat?_eq_some_iff]
  obtain ⟨next⟩ := s
  cases PatchId.ofNat? (firstAbove taken) with
  | none => simp
  | some n => simp

theorem above_eq_error_iff {e : Fault} :
    above taken = .error e ↔ PatchId.last ∈ taken ∧ e = .idsExhausted := by
  unfold above
  cases h : PatchId.ofNat? (firstAbove taken) with
  | none =>
    have hlast : PatchId.last ∈ taken := by
      have hover := PatchId.ofNat?_eq_none_iff.1 h
      rcases firstAbove_eq_zero_or taken with hzero | ⟨id, hid, heq⟩
      · omega
      · have hval : id.val = PatchId.last.val := by
          have := id.val_lt
          show id.val = 4294967295
          omega
        rwa [← PatchId.ext hval]
    simp [hlast, eq_comm]
  | some next =>
    have hlast : PatchId.last ∉ taken := by
      intro hmem
      have hlt : 4294967295 < firstAbove taken := lt_firstAbove hmem
      have := PatchId.ofNat?_eq_some_iff.1 h
      have := next.val_lt
      omega
    simp [hlast]

theorem exists_above (h : PatchId.last ∉ taken) : ∃ ids, above taken = .ok ids := by
  cases ha : above taken with
  | ok ids => exact ⟨ids, rfl⟩
  | error e => exact absurd (above_eq_error_iff.1 ha).1 h

theorem draw_eq_ok_iff :
    s.draw = .ok (id, s') ↔ id = s.next ∧ s'.next.val = s.next.val + 1 := by
  simp only [draw]
  cases h : PatchId.ofNat? (s.next.val + 1) with
  | none =>
    have := PatchId.ofNat?_eq_none_iff.1 h
    have := s'.next.val_lt
    simp only [reduceCtorEq, false_iff]
    omega
  | some n =>
    have hn := PatchId.ofNat?_eq_some_iff.1 h
    obtain ⟨next⟩ := s'
    simp only [Except.ok.injEq, Prod.mk.injEq, IdSource.mk.injEq, PatchId.ext_iff]
    omega

theorem draw_eq_error_iff {e : Fault} :
    s.draw = .error e ↔ s.next = .last ∧ e = .idsExhausted := by
  rw [PatchId.eq_last_iff]
  unfold draw
  cases h : PatchId.ofNat? (s.next.val + 1) with
  | none =>
    have hlast : s.next.val = 4294967295 := by
      have := PatchId.ofNat?_eq_none_iff.1 h
      have := s.next.val_lt
      omega
    simp [hlast, eq_comm]
  | some n =>
    have hlast : s.next.val ≠ 4294967295 := by
      have := PatchId.ofNat?_eq_some_iff.1 h
      have := n.val_lt
      omega
    simp [hlast]

end IdSource

end LatticeSurgery
