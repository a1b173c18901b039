/-!
# Fallible steps in sequence

A sequence of steps succeeds when every step does, and otherwise fails as its first failing step
does. A property that each step keeps, also one that speaks of the steps taken so far, holds at the
end of a sequence that succeeds (`foldlM_induct`). Where the steps taken so far decide whether and how
the next one fails, the first step that fails decides it for the sequence (`foldlM_eq_error_iff`).
-/

namespace LatticeSurgery

variable {ε α β : Type}

@[simp] theorem error_bind (e : ε) (f : α → Except ε β) : (Except.error e >>= f) = .error e := rfl

@[simp] theorem ok_bind (a : α) (f : α → Except ε β) : (Except.ok a >>= f) = f a := rfl

@[simp] theorem throw_eq_error (e : ε) : (throw e : Except ε α) = .error e := rfl

@[simp] theorem pure_eq_ok (a : α) : (pure a : Except ε α) = .ok a := rfl

theorem bind_eq_ok_iff {x : Except ε α} {f : α → Except ε β} {b : β} :
    (x >>= f) = .ok b ↔ ∃ a, x = .ok a ∧ f a = .ok b := by
  cases x with
  | error e => simp
  | ok a => simp

theorem map_eq_ok_iff {x : Except ε α} {f : α → β} {b : β} :
    x.map f = .ok b ↔ ∃ a, x = .ok a ∧ f a = b := by
  cases x with
  | error e => simp [Except.map]
  | ok a => simp [Except.map]

theorem map_eq_error_iff {x : Except ε α} {f : α → β} {e : ε} :
    x.map f = .error e ↔ x = .error e := by
  cases x with
  | error e' => simp [Except.map]
  | ok a => simp [Except.map]

theorem bind_pure_eq_error_iff {x : Except ε α} {f : α → β} {e : ε} :
    (x >>= fun a => pure (f a)) = .error e ↔ x = .error e := by
  cases x with
  | error e' => simp
  | ok a => simp

/-- Where `F` is the fault of the first step and `G` that of what follows it, the sequence fails with
the first of the two that there is. -/
theorem bind_eq_error_iff_or {x : Except ε α} {f : α → Except ε β} {F G : Option ε}
    (hx : ∀ e, x = .error e ↔ F = some e) (hf : ∀ a, x = .ok a → ∀ e, f a = .error e ↔ G = some e)
    (e : ε) : (x >>= f) = .error e ↔ F.or G = some e := by
  cases h : x with
  | error e' =>
    rw [(hx e').1 h]
    simp
  | ok a =>
    have hF : F = none := by
      rw [Option.eq_none_iff_forall_ne_some]
      intro e' he'
      have := (hx e').2 he'
      rw [h] at this
      cases this
    rw [hF, Option.none_or, ← hf a h]
    rfl

theorem pure_eq_ok_iff {a b : α} : (pure a : Except ε α) = .ok b ↔ b = a := by
  simp [eq_comm]

theorem foldlM_induct {step : β → α → Except ε β} {P : List α → β → Prop}
    (hstep : ∀ done a b b', P done b → step b a = .ok b' → P (done ++ [a]) b') :
    ∀ (l done : List α) (b b' : β), P done b → l.foldlM step b = .ok b' → P (done ++ l) b' := by
  intro l
  induction l with
  | nil =>
    intro done b b' hb h
    rw [List.foldlM_nil, pure_eq_ok_iff] at h
    rw [h, List.append_nil]
    exact hb
  | cons a l ih =>
    intro done b b' hb h
    rw [List.foldlM_cons, bind_eq_ok_iff] at h
    obtain ⟨mid, hmid, hrest⟩ := h
    have := ih (done ++ [a]) mid b' (hstep done a b mid hb hmid) hrest
    rwa [List.append_assoc, List.singleton_append] at this

theorem foldlM_fault {step : β → α → Except ε β} {P : ε → Prop}
    (hstep : ∀ b a e, step b a = .error e → P e) :
    ∀ (l : List α) (b : β) (e : ε), l.foldlM step b = .error e → P e := by
  intro l
  induction l with
  | nil =>
    intro b e h
    cases h
  | cons a l ih =>
    intro b e h
    rw [List.foldlM_cons] at h
    cases hb : step b a with
    | error e' =>
      rw [hb, error_bind] at h
      cases h
      exact hstep b a e hb
    | ok b' =>
      rw [hb, ok_bind] at h
      exact ih b' e h

/-! ### The first fault -/

/-- The first fault of the steps in a list, where `fault done a` is that of step `a` after the steps in
`done`. -/
def firstFault? (fault : List α → α → Option ε) (done : List α) : List α → Option ε
  | [] => none
  | a :: l => (fault done a).or (firstFault? fault (done ++ [a]) l)

theorem foldlM_eq_error_iff {step : β → α → Except ε β} {P : List α → β → Prop}
    {fault : List α → α → Option ε}
    (hstep : ∀ done a b b', P done b → step b a = .ok b' → P (done ++ [a]) b')
    (hfault : ∀ done a b, P done b → ∀ e, step b a = .error e ↔ fault done a = some e) :
    ∀ (l done : List α) (b : β), P done b →
      ∀ e, l.foldlM step b = .error e ↔ firstFault? fault done l = some e := by
  intro l
  induction l with
  | nil => simp [firstFault?]
  | cons a l ih =>
    intro done b hb
    rw [List.foldlM_cons]
    exact bind_eq_error_iff_or (hfault done a b hb)
      fun b' hb' => ih (done ++ [a]) b' (hstep done a b b' hb hb')

theorem firstFault?_eq_some_iff {fault : List α → α → Option ε} {e : ε} (l done : List α) :
    firstFault? fault done l = some e ↔
      ∃ k a, l[k]? = some a ∧ fault (done ++ l.take k) a = some e ∧
        ∀ j < k, ∀ b, l[j]? = some b → fault (done ++ l.take j) b = none := by
  induction l generalizing done with
  | nil => simp [firstFault?]
  | cons a l ih =>
    have hshift : ∀ j, done ++ (a :: l).take (j + 1) = done ++ [a] ++ l.take j := by
      intro j
      rw [List.take_succ_cons, List.append_assoc, List.singleton_append]
    rw [firstFault?, Option.or_eq_some_iff, ih]
    constructor
    · intro h
      rcases h with hnow | ⟨hnow, k, b, hb, hk, hbefore⟩
      · refine ⟨0, a, rfl, ?_, fun j hj => absurd hj (Nat.not_lt_zero j)⟩
        rwa [List.take_zero, List.append_nil]
      · refine ⟨k + 1, b, hb, by rwa [hshift], fun j hj c hc => ?_⟩
        cases j with
        | zero =>
          cases hc
          rwa [List.take_zero, List.append_nil]
        | succ j =>
          rw [hshift]
          exact hbefore j (Nat.lt_of_succ_lt_succ hj) c hc
    · intro h
      obtain ⟨k, b, hb, hk, hbefore⟩ := h
      cases k with
      | zero =>
        cases hb
        rw [List.take_zero, List.append_nil] at hk
        exact .inl hk
      | succ k =>
        have hnow := hbefore 0 (Nat.succ_pos k) a rfl
        rw [List.take_zero, List.append_nil] at hnow
        rw [hshift] at hk
        refine .inr ⟨hnow, k, b, hb, hk, fun j hj c hc => ?_⟩
        rw [← hshift]
        exact hbefore (j + 1) (Nat.succ_lt_succ hj) c hc

end LatticeSurgery
