import LatticeSurgery.Proofs.Slice.FreeSpace
import LatticeSurgery.Proofs.Timeline.Identity

/-!
# How long ids stay fresh

An id source counts up and never starts again from below: at the largest id it stops. A source above the taken
ids starts one past the largest of them (`firstAbove_eq`), each draw gives the id at which the source stands and
moves it by one, and so `n` draws in a row give `n` consecutive ids, none of them taken, or run into the end of
the range (`draws_eq_ok_iff`, `draws_eq_error_iff`).

A timeline has its ids from such a source. It looks up the id that comes next, places the patch under it, and
draws it only then; a patch that is refused leaves the source where it was, and one that is accepted meets the end
of the range if the source stands there (`placeQubit_eq_error_iff`). What the placements of a run of edits
give is therefore what as many draws in a row would have given (`draws_handedOut`).
-/

namespace LatticeSurgery

namespace IdSource

variable {s rest : IdSource} {n : Nat} {ids taken : List PatchId} {e : Fault}

/-- The ids of `n` draws in a row, in the order in which they are drawn, and the source that they leave. -/
def draws (s : IdSource) : Nat → Except Fault (List PatchId × IdSource)
  | 0 => return ([], s)
  | n + 1 => do
    let (ids, s) ← s.draws n
    let (id, s) ← s.draw
    return (ids ++ [id], s)

theorem firstAbove_eq (taken : List PatchId) :
    firstAbove taken = (taken.map PatchId.val).max?.elim 0 (· + 1) := by
  cases h : (taken.map PatchId.val).max? with
  | none =>
    rw [List.max?_eq_none_iff, List.map_eq_nil_iff] at h
    rw [h]
    rfl
  | some top =>
    obtain ⟨hmem, hmax⟩ := List.max?_eq_some_iff.1 h
    obtain ⟨id, hid, rfl⟩ := List.mem_map.1 hmem
    have hlt := lt_firstAbove hid
    rcases firstAbove_eq_zero_or taken with hzero | ⟨id', hid', heq⟩
    · omega
    · have hle := hmax id'.val (List.mem_map_of_mem hid')
      show firstAbove taken = id.val + 1
      omega

/-! ### Draws in a row -/

theorem draws_succ_eq_ok_iff :
    s.draws (n + 1) = .ok (ids, rest) ↔ ∃ before mid id, s.draws n = .ok (before, mid) ∧
      mid.draw = .ok (id, rest) ∧ ids = before ++ [id] := by
  rw [draws]
  simp only [bind_eq_ok_iff, pure_eq_ok_iff, Prod.exists, Prod.mk.injEq]
  constructor
  · rintro ⟨before, mid, hbefore, id, _, hdraw, rfl, rfl⟩
    exact ⟨before, mid, id, hbefore, hdraw, rfl⟩
  · rintro ⟨before, mid, id, hbefore, hdraw, rfl⟩
    exact ⟨before, mid, hbefore, id, rest, hdraw, rfl, rfl⟩

theorem draws_eq_ok_iff :
    s.draws n = .ok (ids, rest) ↔
      ids.map PatchId.val = List.range' s.next.val n ∧ rest.next.val = s.next.val + n := by
  induction n generalizing ids rest with
  | zero =>
    obtain ⟨here⟩ := s
    obtain ⟨there⟩ := rest
    rw [draws, pure_eq_ok_iff, Prod.mk.injEq, IdSource.mk.injEq, List.range'_zero, List.map_eq_nil_iff,
      PatchId.ext_iff]
    rfl
  | succ n ih =>
    rw [draws_succ_eq_ok_iff, List.range'_1_concat]
    constructor
    · rintro ⟨before, mid, id, hbefore, hdraw, rfl⟩
      obtain ⟨hids, hmid⟩ := ih.1 hbefore
      obtain ⟨rfl, hrest⟩ := draw_eq_ok_iff.1 hdraw
      rw [List.map_append, List.map_singleton, hids, hmid]
      exact ⟨rfl, by omega⟩
    · rintro ⟨hids, hrest⟩
      obtain ⟨before, after, rfl, hbefore, hafter⟩ := List.map_eq_append_iff.1 hids
      obtain ⟨id, rfl, hid⟩ := List.map_eq_singleton_iff.1 hafter
      -- the last draw was made from a source that stood at its id
      refine ⟨before, ⟨id⟩, id, ih.2 ⟨hbefore, hid⟩, draw_eq_ok_iff.2 ⟨rfl, ?_⟩, rfl⟩
      show rest.next.val = id.val + 1
      omega

theorem draws_eq_error_iff :
    s.draws n = .error e ↔ 4294967295 < s.next.val + n ∧ e = .idsExhausted := by
  induction n generalizing e with
  | zero =>
    have := s.next.val_lt
    rw [draws, pure_eq_ok]
    simp only [reduceCtorEq, false_iff]
    omega
  | succ n ih =>
    rw [draws]
    cases h : s.draws n with
    | error e' =>
      obtain ⟨hend, rfl⟩ := ih.1 h
      rw [error_bind, Except.error.injEq, eq_comm]
      exact ⟨fun he => ⟨by omega, he⟩, fun he => he.2⟩
    | ok out =>
      obtain ⟨before, mid⟩ := out
      obtain ⟨-, hmid⟩ := draws_eq_ok_iff.1 h
      have := mid.next.val_lt
      rw [ok_bind]
      show (mid.draw >>= fun out => pure (before ++ [out.1], out.2)) = .error e ↔ _
      rw [bind_pure_eq_error_iff, draw_eq_error_iff, PatchId.eq_last_iff, hmid]
      have hend : s.next.val + n = 4294967295 ↔ 4294967295 < s.next.val + (n + 1) := by omega
      rw [hend]

theorem exists_draws (h : s.next.val + n ≤ 4294967295) : ∃ ids rest, s.draws n = .ok (ids, rest) := by
  cases hdraws : s.draws n with
  | ok out => exact ⟨out.1, out.2, rfl⟩
  | error e =>
    have := (draws_eq_error_iff.1 hdraws).1
    omega

theorem exists_draw (h : s.next ≠ .last) : ∃ rest, s.draw = .ok (s.next, rest) := by
  cases hdraw : s.draw with
  | ok out =>
    obtain ⟨id, rest⟩ := out
    obtain ⟨rfl, -⟩ := draw_eq_ok_iff.1 hdraw
    exact ⟨rest, rfl⟩
  | error e => exact absurd (draw_eq_error_iff.1 hdraw).1 h

theorem nodup_of_draws (h : s.draws n = .ok (ids, rest)) : ids.Nodup := by
  apply List.Nodup.of_map PatchId.val
  rw [(draws_eq_ok_iff.1 h).1]
  exact List.nodup_range'

theorem not_mem_of_draws (habove : above taken = .ok s) (h : s.draws n = .ok (ids, rest)) :
    ∀ id ∈ ids, id ∉ taken := by
  intro id hid htaken
  have hlt := lt_firstAbove htaken
  rw [← above_eq_ok_iff.1 habove] at hlt
  have hval : id.val ∈ List.range' s.next.val n := by
    rw [← (draws_eq_ok_iff.1 h).1]
    exact List.mem_map_of_mem hid
  have := (List.mem_range'_1.1 hval).1
  omega

end IdSource

/-! ### Placements under fresh ids -/

theorem Slice.placeQubit_eq_error_iff {s : Slice} {p : Patch} {e : Fault} :
    s.placeQubit p = .error e ↔ ∃ c, s.IsFirstTaken p c ∧ e = .cellTaken c :=
  @add_eq_error_iff s (.qubit p) p e rfl

namespace Timeline

variable {t : Timeline} {p : Patch} {e : Fault}

theorem placeQubit_eq_error_iff :
    t.placeQubit p = .error e ↔
      t.now.placeQubit { p with id := some t.ids.next } = .error e ∨
      (∃ now, t.now.placeQubit { p with id := some t.ids.next } = .ok now) ∧
        t.ids.next = .last ∧ e = .idsExhausted := by
  unfold placeQubit
  cases t.now.placeQubit { p with id := some t.ids.next } with
  | error e' => simp
  | ok now =>
    rw [ok_bind, ← IdSource.draw_eq_error_iff]
    show (t.ids.draw >>= fun out => pure (out.1, _)) = .error e ↔ _
    rw [bind_pure_eq_error_iff]
    simp

theorem placeQubit_eq_idsExhausted_iff :
    t.placeQubit p = .error .idsExhausted ↔
      (∃ now, t.now.placeQubit { p with id := some t.ids.next } = .ok now) ∧ t.ids.next = .last := by
  rw [placeQubit_eq_error_iff]
  constructor
  · rintro (hrefused | ⟨haccepted, hlast, -⟩)
    · obtain ⟨c, -, he⟩ := Slice.placeQubit_eq_error_iff.1 hrefused
      cases he
    · exact ⟨haccepted, hlast⟩
  · rintro ⟨haccepted, hlast⟩
    exact .inr ⟨haccepted, hlast, rfl⟩

theorem next_of_placeQubit {u : Timeline} {id : PatchId} (h : t.placeQubit p = .ok (id, u)) :
    u.ids.next.val = t.ids.next.val + 1 := by
  obtain ⟨now, ids, -, hdraw, rfl⟩ := placeQubit_eq_ok_iff.1 h
  exact (IdSource.draw_eq_ok_iff.1 hdraw).2

theorem next_run (edits : List Edit) :
    ∀ t : Timeline, (t.run edits).ids.next.val = t.ids.next.val + (t.handedOut edits).length := by
  induction edits with
  | nil => exact fun t => rfl
  | cons e edits ih =>
    intro t
    cases e with
    | newSlice => exact ih t.advance
    | place p =>
      have hedit : t.edit (.place p) = t.placeQubit p >>= fun out => pure out.2 := rfl
      rw [run, hedit, handedOut]
      cases hplace : t.placeQubit p with
      | ok out =>
        obtain ⟨id, u⟩ := out
        have hnext := next_of_placeQubit hplace
        show (u.run edits).ids.next.val = t.ids.next.val + (u.handedOut edits).length + 1
        rw [ih, hnext]
        omega
      | error e =>
        -- the run of edits goes on unless there was no id
        cases e with
        | idsExhausted => rfl
        | _ => exact ih t

theorem draws_handedOut (t : Timeline) (edits : List Edit) :
    t.ids.draws (t.handedOut edits).length = .ok (t.handedOut edits, (t.run edits).ids) :=
  IdSource.draws_eq_ok_iff.2 ⟨handedOut_eq_range' edits t, next_run edits t⟩

end Timeline

namespace IdSource

/-- **Ids are fresh up to the end of their range.** There is a source above the taken ids unless the largest id
is one of them. It starts at zero, or one past the largest that is taken. Draw after draw then gives the next
id, which is the one at which the source stands, and so ids that are different from each other and from the taken
ones. The source stops at the largest id, where every draw fails. Placing a patch in a timeline fails for lack of
an id exactly when the patch itself is accepted and the source of the timeline stands at the largest id; the ids
that a run of edits hands out are those of as many draws. -/
theorem draws_above (taken : List PatchId) :
    (∀ e, above taken = .error e ↔ PatchId.last ∈ taken ∧ e = .idsExhausted) ∧
    (PatchId.last ∉ taken → ∃ s, above taken = .ok s ∧
      s.next.val = (taken.map PatchId.val).max?.elim 0 (· + 1) ∧
      (∀ n, s.next.val + n ≤ 4294967295 → ∃ ids rest, s.draws n = .ok (ids, rest) ∧
        ids.map PatchId.val = List.range' s.next.val n ∧ ids.Nodup ∧ (∀ id ∈ ids, id ∉ taken) ∧
        rest.next.val = s.next.val + n ∧
        (s.next.val + n < 4294967295 → ∃ rest', rest.draw = .ok (rest.next, rest')) ∧
        (s.next.val + n = 4294967295 → rest.draw = .error .idsExhausted)) ∧
      ∀ n, 4294967295 < s.next.val + n → s.draws n = .error .idsExhausted) ∧
    (∀ (s : IdSource) id rest, s.draw = .ok (id, rest) → id = s.next) ∧
    ∀ (t : Timeline) (p : Patch),
      (t.placeQubit p = .error .idsExhausted ↔
        (∃ now, t.now.placeQubit { p with id := some t.ids.next } = .ok now) ∧ t.ids.next = .last) ∧
      ∀ edits, t.ids.draws (t.handedOut edits).length = .ok (t.handedOut edits, (t.run edits).ids) := by
  refine ⟨fun e => above_eq_error_iff, fun hlast => ?_, fun s id rest h => (draw_eq_ok_iff.1 h).1,
    fun t p => ⟨Timeline.placeQubit_eq_idsExhausted_iff, t.draws_handedOut⟩⟩
  obtain ⟨s, hs⟩ := exists_above hlast
  refine ⟨s, hs, ?_, fun n hn => ?_, fun n hn => draws_eq_error_iff.2 ⟨hn, rfl⟩⟩
  · rw [above_eq_ok_iff.1 hs, firstAbove_eq]
  · obtain ⟨ids, rest, h⟩ := exists_draws hn
    obtain ⟨hids, hrest⟩ := draws_eq_ok_iff.1 h
    refine ⟨ids, rest, h, hids, nodup_of_draws h, not_mem_of_draws hs h, hrest, fun hlt => ?_, fun heq => ?_⟩
    · apply exists_draw
      rw [ne_eq, PatchId.eq_last_iff]
      omega
    · rw [draw_eq_error_iff, PatchId.eq_last_iff]
      exact ⟨by omega, rfl⟩

/-- Taken ids that leave two fresh ones above them. -/
def nearLast : List PatchId := [.clamp 4294967292, .clamp 7, .clamp 4294967292]

/-- A program that declares the last id but one, so that none is left to draw. -/
def lastButOne : Program where
  qubits := [.clamp 4294967294]
  instructions := []

theorem draws_above_nearLast :
    (∃ s, above nearLast = .ok s ∧
      (∃ ids rest, s.draws 2 = .ok (ids, rest) ∧ ids.map PatchId.val = [4294967293, 4294967294] ∧
        rest.draw = .error .idsExhausted) ∧
      s.draws 3 = .error .idsExhausted) ∧
    ∃ t, lastButOne.compile = .ok t ∧
      t.placeQubit (.square (.clamp 1 0)) = .error .idsExhausted ∧
      t.placeQubit (.square (.clamp 0 0)) ≠ .error .idsExhausted := by
  obtain ⟨-, hfresh, -, hplace⟩ := draws_above nearLast
  constructor
  · obtain ⟨s, hs, hnext, hdraws, hend⟩ := hfresh (by decide +kernel)
    have hstart : s.next.val = 4294967293 := by
      rw [hnext]
      decide +kernel
    obtain ⟨ids, rest, h, hids, -, -, -, -, hlast⟩ := hdraws 2 (by omega)
    rw [hstart] at hids
    exact ⟨s, hs, ⟨ids, rest, h, hids, hlast (by omega)⟩, hend 3 (by omega)⟩
  · have hcompile : lastButOne.compile.map (fun t =>
        (t.ids.next, t.now.isFree (.clamp 1 0), t.now.isFree (.clamp 0 0))) = .ok (.last, true, false) := by
      decide +kernel
    obtain ⟨t, ht, heq⟩ := map_eq_ok_iff.1 hcompile
    simp only [Prod.mk.injEq] at heq
    obtain ⟨hlast, hfree, htaken⟩ := heq
    refine ⟨t, ht, ?_, fun hplaced => ?_⟩
    · refine (hplace t _).1.2 ⟨⟨_, Slice.placeQubit_eq_ok_iff.2 ⟨?_, rfl⟩⟩, hlast⟩
      intro c hc
      rw [List.mem_singleton.1 hc]
      exact hfree
    · obtain ⟨⟨now, hnow⟩, -⟩ := (hplace t _).1.1 hplaced
      have hall := (Slice.placeQubit_eq_ok_iff.1 hnow).1
      have := hall (.clamp 0 0) (List.mem_singleton.2 rfl)
      rw [htaken] at this
      cases this

end IdSource

end LatticeSurgery
