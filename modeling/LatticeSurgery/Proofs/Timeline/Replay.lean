import LatticeSurgery.Proofs.Timeline.Survivors
import Mathlib.Data.List.Forall2

/-!
# Runs from a slice on

A step sees nothing of the timeline but the slice with which it starts. The slices of a list of
instructions are therefore a function of one slice (`Slice.performAll`), and a compilation appends them
to what is there, whatever that is (`foldlM_step_eq`). To compare two compilations it is enough to
compare the slices that their steps start with: what one pair of steps keeps, two whole runs keep
(`exists_performAll_of_step`).

The plainest comparison is with the same program without a request for a magic state. The request makes
one slice, in which nothing happens, and the step after it starts with that same slice.
-/

namespace LatticeSurgery

namespace Slice

variable {s s' : Slice} {instructions : List Instruction} {new : List Slice}

/-- The slices of the instructions, of which the first is carried out on this slice. -/
def performAll (s : Slice) : List Instruction → Except Fault (List Slice)
  | [] => return []
  | i :: instructions => do
    let t ← s.perform i
    return t :: (← t.next.performAll instructions)

theorem performAll_cons_eq_ok_iff {i : Instruction} :
    s.performAll (i :: instructions) = .ok new ↔
      ∃ t rest, s.perform i = .ok t ∧ t.next.performAll instructions = .ok rest ∧
        new = t :: rest := by
  rw [performAll]
  simp only [bind_eq_ok_iff, pure_eq_ok_iff]
  constructor
  · intro h
    obtain ⟨t, ht, rest, hrest, hnew⟩ := h
    exact ⟨t, rest, ht, hrest, hnew⟩
  · intro h
    obtain ⟨t, rest, ht, hrest, hnew⟩ := h
    exact ⟨t, ht, rest, hrest, hnew⟩

theorem performAll_requestMagic (target : PatchId) :
    s.performAll (.requestMagic target :: instructions) =
      (s.next.performAll instructions).map (s :: ·) := by
  show (s.next.performAll instructions >>= fun rest => pure (s :: rest)) = _
  cases s.next.performAll instructions with
  | error e => rfl
  | ok rest => rfl

theorem next_next (s : Slice) : s.next.next = s.next := by
  have hqubits : s.next.next.qubits = s.next.qubits := by
    rw [qubits_next (s := s.next), qubits_next, List.filter_map, List.map_map]
    have hidle : ∀ p ∈ s.qubits.filter (·.activity ≠ .measurement),
        (fun p : Patch => decide (p.activity ≠ .measurement)) { p with activity := .idle } := by
      intro p _
      rfl
    congr 1
    exact List.filter_eq_self.2 hidle
  show (⟨s.layout, s.next.next.qubits, [], []⟩ : Slice) = ⟨s.layout, s.next.qubits, [], []⟩
  rw [hqubits]

/-- **Two runs side by side.** Let `S` relate the slices with which two steps start. If steps that start
so make slices in the relation `R`, and the steps after them start so again, then the slices of two runs
are in the relation `R` one by one. The slices of the first run may be assumed to satisfy `Q`. -/
theorem exists_performAll_of_step {S R : Slice → Slice → Prop} {Q : Slice → Prop}
    {f : Instruction → Instruction}
    (hstep : ∀ i ∈ instructions, ∀ s s' t, S s s' → s.perform i = .ok t → Q t →
      ∃ t', s'.perform (f i) = .ok t' ∧ R t t' ∧ S t.next t'.next)
    (hs : S s s') (h : s.performAll instructions = .ok new) (hQ : ∀ t ∈ new, Q t) :
    ∃ new', s'.performAll (instructions.map f) = .ok new' ∧ List.Forall₂ R new new' := by
  induction instructions generalizing s s' new with
  | nil =>
    obtain rfl := pure_eq_ok_iff.1 h
    exact ⟨[], rfl, .nil⟩
  | cons i instructions ih =>
    obtain ⟨t, rest, ht, hrest, rfl⟩ := performAll_cons_eq_ok_iff.1 h
    rw [List.forall_mem_cons] at hQ
    obtain ⟨t', ht', hR, hnext⟩ := hstep i List.mem_cons_self s s' t hs ht hQ.1
    obtain ⟨rest', hrest', hall⟩ :=
      ih (fun j hj => hstep j (List.mem_cons_of_mem i hj)) hnext hrest hQ.2
    exact ⟨t' :: rest', performAll_cons_eq_ok_iff.2 ⟨t', rest', ht', hrest', rfl⟩, .cons hR hall⟩

end Slice

namespace Timeline

variable {t u : Timeline} {layout : Layout} {qubits : List PatchId} {pre post : List Instruction}

/-- The timeline with more slices at its end. -/
def append (t : Timeline) (new : List Slice) : Timeline :=
  new.foldl (fun t s => ⟨t.slices, s, t.ids⟩) t

theorem slices_append (t : Timeline) (new : List Slice) :
    (t.append new).slices = t.slices ++ new := by
  induction new generalizing t with
  | nil => rw [List.append_nil]; rfl
  | cons s new ih =>
    show (append ⟨t.slices, s, t.ids⟩ new).slices = _
    rw [ih]
    show t.slices ++ [s] ++ new = _
    rw [List.append_assoc, List.singleton_append]

theorem ids_append (t : Timeline) (new : List Slice) : (t.append new).ids = t.ids := by
  induction new generalizing t with
  | nil => rfl
  | cons s new ih => exact ih ⟨t.slices, s, t.ids⟩

theorem foldlM_step_eq (instructions : List Instruction) (t : Timeline) :
    instructions.foldlM step t = (t.now.next.performAll instructions).map t.append := by
  induction instructions generalizing t with
  | nil => rfl
  | cons i instructions ih =>
    rw [List.foldlM_cons]
    cases hp : t.now.next.perform i with
    | error e =>
      have hstep : t.step i = .error e := by
        show (t.now.next.perform i >>= _) = _
        rw [hp, error_bind]
      have hall : t.now.next.performAll (i :: instructions) = .error e := by
        show (t.now.next.perform i >>= _) = _
        rw [hp, error_bind]
      rw [hstep, hall]
      rfl
    | ok s =>
      rw [step_eq_ok_iff.2 ⟨s, hp, rfl⟩, ok_bind, ih]
      show (s.next.performAll instructions).map (append ⟨t.slices, s, t.ids⟩) =
        (t.now.next.perform i >>= _).map t.append
      rw [hp, ok_bind]
      cases s.next.performAll instructions with
      | error e => rfl
      | ok rest => rfl

theorem compileOn_append :
    Program.compileOn ⟨qubits, pre ++ post⟩ layout =
      Program.compileOn ⟨qubits, pre⟩ layout >>= fun t =>
        (t.now.next.performAll post).map t.append := by
  unfold Program.compileOn
  cases start layout qubits with
  | error e => rfl
  | ok t =>
    rw [ok_bind, ok_bind, List.foldlM_append]
    simp only [foldlM_step_eq]

theorem compileOn_eq_ok_iff {p : Program} :
    p.compileOn layout = .ok u ↔
      ∃ t new, start layout p.qubits = .ok t ∧ t.now.next.performAll p.instructions = .ok new ∧
        t.append new = u := by
  unfold Program.compileOn
  simp only [bind_eq_ok_iff, foldlM_step_eq, map_eq_ok_iff, exists_and_left]

theorem compileOn_append_eq_ok_iff :
    Program.compileOn ⟨qubits, pre ++ post⟩ layout = .ok u ↔
      ∃ t new, Program.compileOn ⟨qubits, pre⟩ layout = .ok t ∧
        t.now.next.performAll post = .ok new ∧ t.append new = u := by
  simp only [compileOn_append, bind_eq_ok_iff, map_eq_ok_iff, exists_and_left]

theorem length_slices_of_compileOn {p : Program} (h : p.compileOn layout = .ok t) :
    t.slices.length = p.instructions.length + 1 := by
  obtain ⟨_, -, hunrolled⟩ := unrolled_of_compileOn h
  exact hunrolled.length_eq

/-- **A request for a magic state changes nothing.** With and without it, a program fails in the same
way, or compiles to the same slices but for one more: after the slices of the instructions before the
request stands the slice with which the next step would have started anyway. -/
theorem compileOn_requestMagic (layout : Layout) (qubits : List PatchId)
    (pre post : List Instruction) (target : PatchId) :
    (∀ e, Program.compileOn ⟨qubits, pre ++ .requestMagic target :: post⟩ layout = .error e ↔
      Program.compileOn ⟨qubits, pre ++ post⟩ layout = .error e) ∧
    ∀ t, Program.compileOn ⟨qubits, pre ++ post⟩ layout = .ok t →
      ∃ u s, Program.compileOn ⟨qubits, pre ++ .requestMagic target :: post⟩ layout = .ok u ∧
        t.slices[pre.length]? = some s ∧
        u.slices = t.slices.take (pre.length + 1) ++ s.next :: t.slices.drop (pre.length + 1) ∧
        u.ids = t.ids := by
  have hwith : Program.compileOn ⟨qubits, pre ++ .requestMagic target :: post⟩ layout = _ :=
    compileOn_append
  simp only [Slice.performAll_requestMagic, Slice.next_next] at hwith
  rw [hwith, compileOn_append]
  cases hpre : Program.compileOn ⟨qubits, pre⟩ layout with
  | error e =>
    rw [error_bind, error_bind]
    exact ⟨fun _ => Iff.rfl, fun t ht => by cases ht⟩
  | ok before =>
    rw [ok_bind, ok_bind]
    cases before.now.next.performAll post with
    | error e => exact ⟨fun _ => Iff.rfl, fun t ht => by cases ht⟩
    | ok new =>
      refine ⟨fun e => ⟨fun he => (by cases he), fun he => (by cases he)⟩, fun t ht => ?_⟩
      obtain rfl := Except.ok.inj ht
      have hlen : before.slices.length = pre.length + 1 := length_slices_of_compileOn hpre
      have hnow : before.slices[pre.length]? = some before.now := by
        have hpast : before.past.length = pre.length := by
          unfold slices at hlen
          simpa using hlen
        unfold slices
        rw [← hpast, List.getElem?_concat_length]
      refine ⟨_, before.now, rfl, ?_, ?_, ?_⟩
      · rw [slices_append, List.getElem?_append_left (by omega), hnow]
      · rw [slices_append, slices_append, List.take_left' hlen, List.drop_left' hlen]
      · rw [ids_append, ids_append]

theorem compileOn_requestMagic_busyProgram :
    ∃ t u s, busyProgram.compileOn busyLayout = .ok t ∧
      Program.compileOn ⟨busyProgram.qubits, busyProgram.instructions.take 1 ++
        .requestMagic (.clamp 3) :: busyProgram.instructions.drop 1⟩ busyLayout = .ok u ∧
      t.slices[1]? = some s ∧ u.slices = t.slices.take 2 ++ s.next :: t.slices.drop 2 := by
  have hok : (busyProgram.compileOn busyLayout).map (fun _ => ()) = .ok () := by decide +kernel
  obtain ⟨t, ht, -⟩ := map_eq_ok_iff.1 hok
  obtain ⟨u, s, hu, hs, hslices, -⟩ := (compileOn_requestMagic busyLayout busyProgram.qubits
    (busyProgram.instructions.take 1) (busyProgram.instructions.drop 1) (.clamp 3)).2 t ht
  exact ⟨t, u, s, ht, hu, hs, hslices⟩

end Timeline

end LatticeSurgery
