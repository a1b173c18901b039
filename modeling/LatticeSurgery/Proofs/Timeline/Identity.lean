import LatticeSurgery.Proofs.Slice.Roster
import LatticeSurgery.Proofs.Timeline.Occupancy

/-!
# Ids over whole runs

Nothing checks after the start that ids are different. It rests on three facts: the declared ids are
different and replace whatever ids the layout came with, new ids are drawn from above all of them, and
from one slice to the next patches are dropped and never renamed. `Timeline.Tracked` is what a
compilation and every edit after it keep: in no slice is an id used twice, every id in use is below
the next one to be drawn, and a patch stays in the timeline without a gap, the same but for its
activity, from the slice where its id first occurs to the one where it last does (`Lasting`).
-/

namespace LatticeSurgery

/-- The patches are the same but for their activity. -/
def Patch.Alike (p q : Patch) : Prop := p.withActivity .idle = q.withActivity .idle

/-! ### Patches that stay -/

/-- A patch that is on one roster and whose id is on a later one is on all rosters from the one to the
other. -/
def Lasting (rosters : List (List Patch)) : Prop :=
  ∀ i k j : Nat, i ≤ k → k ≤ j → ∀ a b c : List Patch, rosters[i]? = some a →
    rosters[k]? = some c → rosters[j]? = some b → ∀ p ∈ a, ∀ id, p.id = some id →
      id ∈ b.filterMap Patch.id → p ∈ c

theorem lasting_singleton (r : List Patch) : Lasting [r] := by
  intro i k j hik hkj a b c ha hc hb p hp id hid hmem
  have hj := (List.getElem?_eq_some_iff.1 hb).1
  rw [List.length_singleton] at hj
  obtain rfl : i = 0 := by omega
  obtain rfl : k = 0 := by omega
  cases ha
  cases hc
  exact hp

/-- One more roster asks for more only of the patches with an id on it: they are on all rosters since
they were on one, and on the new one. -/
theorem lasting_concat_iff {past : List (List Patch)} {r : List Patch} :
    Lasting (past ++ [r]) ↔ Lasting past ∧
      ∀ i k : Nat, i ≤ k → ∀ a c : List Patch, past[i]? = some a → past[k]? = some c →
        ∀ p ∈ a, ∀ id, p.id = some id → id ∈ r.filterMap Patch.id → p ∈ c ∧ p ∈ r := by
  have hlast : (past ++ [r])[past.length]? = some r := List.getElem?_concat_length
  have hold : ∀ {n : Nat} {a : List Patch}, past[n]? = some a → (past ++ [r])[n]? = some a := by
    intro n a hn
    rw [List.getElem?_append_left (List.getElem?_eq_some_iff.1 hn).1]
    exact hn
  constructor
  · intro h
    constructor
    · intro i k j hik hkj a b c ha hc hb
      exact h i k j hik hkj a b c (hold ha) (hold hc) (hold hb)
    · intro i k hik a c ha hc p hp id hid hmem
      have hk := (List.getElem?_eq_some_iff.1 hc).1
      exact ⟨h i k past.length hik (by omega) a r c (hold ha) (hold hc) hlast p hp id hid hmem,
        h i past.length past.length (by omega) (Nat.le_refl _) a r r (hold ha) hlast hlast p hp id
          hid hmem⟩
  · intro h i k j hik hkj a b c ha hc hb p hp id hid hmem
    obtain ⟨hpast, hnew⟩ := h
    have hj := (List.getElem?_eq_some_iff.1 hb).1
    rw [List.length_append, List.length_singleton] at hj
    rcases Nat.lt_or_ge j past.length with hj' | hj'
    · rw [List.getElem?_append_left (by omega)] at ha hb hc
      exact hpast i k j hik hkj a b c ha hc hb p hp id hid hmem
    · obtain rfl : j = past.length := by omega
      cases hlast.symm.trans hb
      rcases Nat.lt_or_ge i past.length with hi | hi
      · rw [List.getElem?_append_left hi] at ha
        rcases Nat.lt_or_ge k past.length with hk | hk
        · rw [List.getElem?_append_left hk] at hc
          exact (hnew i k hik a c ha hc p hp id hid hmem).1
        · obtain rfl : k = past.length := by omega
          cases hlast.symm.trans hc
          exact (hnew i i (Nat.le_refl i) a a ha ha p hp id hid hmem).2
      · obtain rfl : i = k := by omega
        cases ha.symm.trans hc
        exact hp

theorem Lasting.concat {past : List (List Patch)} {now r : List Patch} (h : Lasting (past ++ [now]))
    (hnd : (now.filterMap Patch.id).Nodup) (hsub : ∀ p ∈ r, p ∈ now) :
    Lasting (past ++ [now] ++ [r]) := by
  have hlast : (past ++ [now])[past.length]? = some now := List.getElem?_concat_length
  refine lasting_concat_iff.2 ⟨h, fun i k hik a c ha hc p hp id hid hmem => ?_⟩
  obtain ⟨q, hq, hqid⟩ := List.mem_filterMap.1 hmem
  have hmem' : id ∈ now.filterMap Patch.id := List.mem_filterMap.2 ⟨q, hsub q hq, hqid⟩
  have hk := (List.getElem?_eq_some_iff.1 hc).1
  rw [List.length_append, List.length_singleton] at hk
  constructor
  · exact h i k past.length hik (by omega) a now c ha hc hlast p hp id hid hmem'
  · -- the patch is on the last roster, so it is the one there that bears the id
    have hnow := h i past.length past.length (by omega) (Nat.le_refl _) a now now ha hlast hlast
      p hp id hid hmem'
    rwa [Slice.eq_of_id_eq hnd hnow (hsub q hq) hid hqid]

theorem Lasting.append {past : List (List Patch)} {now : List Patch} {new : Patch} {fresh : PatchId}
    (h : Lasting (past ++ [now])) (hnew : new.id = some fresh)
    (hfresh : ∀ r ∈ past, fresh ∉ r.filterMap Patch.id) : Lasting (past ++ [now ++ [new]]) := by
  obtain ⟨hpast, hnow⟩ := lasting_concat_iff.1 h
  refine lasting_concat_iff.2 ⟨hpast, fun i k hik a c ha hc p hp id hid hmem => ?_⟩
  rw [List.filterMap_append, List.filterMap_cons_some hnew, List.mem_append] at hmem
  rcases hmem with hmem | hmem
  · obtain ⟨hpc, hpnow⟩ := hnow i k hik a c ha hc p hp id hid hmem
    exact ⟨hpc, List.mem_append_left _ hpnow⟩
  · rw [List.filterMap_nil, List.mem_singleton] at hmem
    subst hmem
    exact absurd (List.mem_filterMap.2 ⟨p, hp, hid⟩) (hfresh a (List.mem_of_getElem? ha))

namespace Timeline

variable {t u : Timeline} {layout : Layout} {declared : List PatchId}

/-! ### What every operation keeps -/

/-- The ids of a timeline of a program with the declared qubits. -/
structure Tracked (declared : List PatchId) (t : Timeline) : Prop where
  nodup : ∀ s ∈ t.slices, s.ids.Nodup
  lt_next : ∀ s ∈ t.slices, ∀ id ∈ s.ids, id < t.ids.next
  declared_lt_next : ∀ id ∈ declared, id < t.ids.next
  lasting : Lasting (t.slices.map Slice.roster)

theorem tracked_start (h : start layout declared = .ok t) : t.Tracked declared := by
  obtain ⟨hpast, hids, hnd⟩ := ids_start h
  have hslices : t.slices = [t.now] := by
    unfold slices
    rw [hpast, List.nil_append]
  have hlt : ∀ id ∈ declared, id < t.ids.next := by
    intro id hid
    obtain ⟨-, -, -, ids, habove, rfl⟩ := start_eq_ok_iff.1 h
    rw [PatchId.lt_iff, IdSource.above_eq_ok_iff.1 habove]
    rw [← hids] at hid
    exact IdSource.lt_firstAbove hid
  refine ⟨?_, ?_, hlt, ?_⟩
  · rw [hslices, List.forall_mem_singleton, hids]
    exact hnd
  · rw [hslices, List.forall_mem_singleton, hids]
    exact hlt
  · rw [hslices, List.map_singleton]
    exact lasting_singleton _

theorem Tracked.extend {s : Slice} (h : t.Tracked declared) (hs : s.roster.Sublist t.now.roster) :
    Tracked declared ⟨t.slices, s, t.ids⟩ := by
  have hids : s.ids.Sublist t.now.ids := by
    rw [Slice.ids_eq_filterMap_roster, Slice.ids_eq_filterMap_roster]
    exact hs.filterMap Patch.id
  have hnow := (forall_mem_slices.1 h.nodup).2
  refine ⟨forall_mem_slices.2 ⟨h.nodup, hnow.sublist hids⟩, forall_mem_slices.2 ⟨h.lt_next, ?_⟩,
    h.declared_lt_next, ?_⟩
  · intro id hid
    exact (forall_mem_slices.1 h.lt_next).2 id (hids.subset hid)
  · have hlasting := h.lasting
    show Lasting ((t.slices ++ [s]).map Slice.roster)
    unfold slices at hlasting ⊢
    rw [List.map_append, List.map_singleton] at hlasting
    rw [List.map_append, List.map_append, List.map_singleton, List.map_singleton]
    rw [Slice.ids_eq_filterMap_roster] at hnow
    exact hlasting.concat hnow fun p hp => hs.subset hp

theorem Tracked.advance (h : t.Tracked declared) : t.advance.Tracked declared :=
  h.extend Slice.roster_next_sublist

theorem Tracked.step {i : Instruction} (h : t.Tracked declared) (hs : t.step i = .ok u) :
    u.Tracked declared := by
  obtain ⟨s, hperform, rfl⟩ := step_eq_ok_iff.1 hs
  apply h.extend
  rw [Slice.roster_perform hperform]
  exact Slice.roster_next_sublist

theorem Tracked.placeQubit {p : Patch} {id : PatchId} (h : t.Tracked declared)
    (hp : t.placeQubit p = .ok (id, u)) : u.Tracked declared := by
  obtain ⟨now, ids, hnow, hdraw, rfl⟩ := placeQubit_eq_ok_iff.1 hp
  obtain ⟨rfl, hnext⟩ := IdSource.draw_eq_ok_iff.1 hdraw
  have hids := Slice.ids_placeQubit hnow rfl
  have hlt : ∀ id, id < t.ids.next → id < ids.next := by
    intro id hid
    rw [PatchId.lt_iff] at hid ⊢
    omega
  obtain ⟨hpastnd, hnownd⟩ := forall_mem_slices.1 h.nodup
  obtain ⟨hpastlt, hnowlt⟩ := forall_mem_slices.1 h.lt_next
  refine ⟨forall_mem_slices.2 ⟨hpastnd, ?_⟩, forall_mem_slices.2 ⟨?_, ?_⟩, ?_, ?_⟩
  · rw [hids, List.nodup_append]
    refine ⟨hnownd, List.nodup_singleton _, fun id hid id' hid' heq => ?_⟩
    rw [List.mem_singleton] at hid'
    subst heq hid'
    exact PatchId.lt_irrefl _ (hnowlt _ hid)
  · intro s hs id hid
    exact hlt id (hpastlt s hs id hid)
  · intro id hid
    rw [hids, List.mem_append, List.mem_singleton] at hid
    rcases hid with hid | rfl
    · exact hlt id (hnowlt id hid)
    · show t.ids.next.val < ids.next.val
      omega
  · intro id hid
    exact hlt id (h.declared_lt_next id hid)
  · have hlasting := h.lasting
    unfold slices at hlasting ⊢
    rw [List.map_append, List.map_singleton] at hlasting ⊢
    rw [Slice.roster_placeQubit hnow]
    refine hlasting.append rfl fun r hr hmem => ?_
    obtain ⟨s, hs, rfl⟩ := List.mem_map.1 hr
    rw [← Slice.ids_eq_filterMap_roster] at hmem
    exact PatchId.lt_irrefl _ (hpastlt s hs _ hmem)

theorem tracked_of_compileOn {p : Program} (h : p.compileOn layout = .ok t) :
    t.Tracked p.qubits := by
  obtain ⟨start, hstart, hsteps⟩ := bind_eq_ok_iff.1 h
  have hkeep : ∀ (done : List Instruction) i (a b : Timeline), a.Tracked p.qubits →
      a.step i = .ok b → b.Tracked p.qubits := fun _ _ _ _ ha hs => ha.step hs
  exact foldlM_induct hkeep p.instructions [] start t (tracked_start hstart) hsteps

theorem Tracked.alike_of_mem (h : t.Tracked declared) {i k j : Nat} (hik : i ≤ k) (hkj : k ≤ j)
    {a b c : Slice} (ha : t.slices[i]? = some a) (hc : t.slices[k]? = some c)
    (hb : t.slices[j]? = some b) {q r : Patch} (hq : q ∈ a.qubits) (hr : r ∈ b.qubits)
    {id : PatchId} (hqid : q.id = some id) (hrid : r.id = some id) :
    q.Alike r ∧ ∃ m ∈ c.qubits, m.Alike q := by
  have hroster : ∀ (n : Nat) (s : Slice), t.slices[n]? = some s →
      (t.slices.map Slice.roster)[n]? = some s.roster := by
    intro n s hn
    rw [List.getElem?_map, hn, Option.map_some]
  have hmem : id ∈ b.roster.filterMap Patch.id := by
    rw [← Slice.ids_eq_filterMap_roster]
    exact Slice.mem_ids.2 ⟨r, hr, hrid⟩
  have hbetween : ∀ (n : Nat) (s : Slice), i ≤ n → n ≤ j → t.slices[n]? = some s →
      q.withActivity .idle ∈ s.roster := by
    intro n s hin hnj hn
    exact h.lasting i n j hin hnj _ _ _ (hroster i a ha) (hroster n s hn) (hroster j b hb) _
      (List.mem_map_of_mem hq) id hqid hmem
  constructor
  · -- the last of the slices between is the one with `r`
    have hnd := h.nodup b (List.mem_of_getElem? hb)
    rw [Slice.ids_eq_filterMap_roster] at hnd
    exact Slice.eq_of_id_eq hnd (hbetween j b (by omega) (Nat.le_refl j) hb)
      (List.mem_map_of_mem hr) hqid hrid
  · exact Slice.mem_roster.1 (hbetween k c hik hkj hc)

/-! ### The ids that are handed out -/

/-- The ids that the placements of a run of edits give. -/
def handedOut (t : Timeline) : List Edit → List PatchId
  | [] => []
  | .newSlice :: edits => t.advance.handedOut edits
  | .place p :: edits =>
    match t.placeQubit p with
    | .ok (id, u) => id :: u.handedOut edits
    | .error .idsExhausted => []
    | .error _ => t.handedOut edits

theorem handedOut_eq_range' (edits : List Edit) :
    ∀ t : Timeline, (t.handedOut edits).map PatchId.val =
      List.range' t.ids.next.val (t.handedOut edits).length := by
  induction edits with
  | nil => exact fun t => rfl
  | cons e edits ih =>
    intro t
    cases e with
    | newSlice => exact ih t.advance
    | place p =>
      unfold handedOut
      split
      · next id u hu =>
        obtain ⟨now, ids, -, hdraw, rfl⟩ := placeQubit_eq_ok_iff.1 hu
        obtain ⟨rfl, hnext⟩ := IdSource.draw_eq_ok_iff.1 hdraw
        rw [List.map_cons, List.length_cons, List.range'_succ, ih, ← hnext]
      · rfl
      · exact ih t

theorem run_place_of_cellTaken {p : Patch} {c : Cell} (h : t.placeQubit p = .error (.cellTaken c))
    (rest : List Edit) :
    t.run (.place p :: rest) = t.run rest ∧ t.handedOut (.place p :: rest) = t.handedOut rest := by
  have hedit : t.edit (.place p) = .error (.cellTaken c) := by
    show (t.placeQubit p >>= _) = _
    rw [h, error_bind]
  constructor
  · rw [run, hedit]
  · rw [handedOut, h]

/-- **Ids over whole runs.** After every compilation and every run of edits: no slice has an id twice.
The ids that were handed out are consecutive and above all declared ones. A placement that is refused
changes nothing, and one that is accepted adds its patch to the last slice, with the id it returns, and
changes nothing else. A patch whose id occurs in two slices is in all slices from the one to the other,
the same but for its activity. -/
theorem ids_run {p : Program} (h : p.compileOn layout = .ok t) (edits : List Edit) :
    (∀ s ∈ (t.run edits).slices, s.ids.Nodup) ∧
    (∃ n, (∀ id ∈ p.qubits, id.val < n) ∧
      (t.handedOut edits).map PatchId.val = List.range' n (t.handedOut edits).length) ∧
    (∀ q c, (t.run edits).placeQubit q = .error (.cellTaken c) → ∀ rest,
      (t.run edits).run (.place q :: rest) = (t.run edits).run rest ∧
      (t.run edits).handedOut (.place q :: rest) = (t.run edits).handedOut rest) ∧
    (∀ q id u, (t.run edits).placeQubit q = .ok (id, u) → u.past = (t.run edits).past ∧
      u.now = { (t.run edits).now with
        qubits := (t.run edits).now.qubits ++ [{ q with id := some id }] }) ∧
    ∀ i k j : Nat, i ≤ k → k ≤ j → ∀ a b c : Slice, (t.run edits).slices[i]? = some a →
      (t.run edits).slices[k]? = some c → (t.run edits).slices[j]? = some b →
      ∀ q ∈ a.qubits, ∀ r ∈ b.qubits, ∀ id, q.id = some id → r.id = some id →
        q.Alike r ∧ ∃ m ∈ c.qubits, m.Alike q := by
  have htracked := tracked_of_compileOn h
  have hrun : (t.run edits).Tracked p.qubits := by
    apply run_induct
    · exact fun t ht => ht.advance
    · exact fun t u q id ht hq => ht.placeQubit hq
    · exact htracked
  refine ⟨hrun.nodup, ⟨t.ids.next.val, htracked.declared_lt_next, handedOut_eq_range' edits t⟩,
    fun q c hq rest => run_place_of_cellTaken hq rest, fun q id u hq => ?_, ?_⟩
  · obtain ⟨now, ids, hnow, hdraw, rfl⟩ := placeQubit_eq_ok_iff.1 hq
    obtain ⟨rfl, -⟩ := IdSource.draw_eq_ok_iff.1 hdraw
    exact ⟨rfl, (Slice.placeQubit_eq_ok_iff.1 hnow).2⟩
  · intro i k j hik hkj a b c ha hc hb q hq r hr id hqid hrid
    exact hrun.alike_of_mem hik hkj ha hc hb hq hr hqid hrid

/-- Edits of which the first is refused and three more are accepted, two in one slice and one in the
next. -/
def crowdingEdits : List Edit :=
  clearingEdits ++ [.place (.square (.clamp 1 0)), .newSlice, .place (.square (.clamp 1 1))]

theorem ids_clearingProgram :
    ∃ t, clearingProgram.compile = .ok t ∧
      (∀ s ∈ (t.run crowdingEdits).slices, s.ids.Nodup) ∧
      ∃ n, 2 < n ∧ (t.handedOut crowdingEdits).map PatchId.val = [n, n + 1, n + 2] := by
  have hcount : clearingProgram.compile.map (fun t => (t.handedOut crowdingEdits).length) =
      .ok 3 := by
    decide +kernel
  cases h : clearingProgram.compile with
  | error e =>
    rw [h] at hcount
    cases hcount
  | ok t =>
    obtain ⟨hnd, ⟨n, hn, hout⟩, -⟩ := ids_run h crowdingEdits
    rw [h] at hcount
    have hlen : (t.handedOut crowdingEdits).length = 3 := Except.ok.inj hcount
    rw [hlen] at hout
    exact ⟨t, rfl, hnd, n, hn (.clamp 2) (by decide), hout⟩

end Timeline

end LatticeSurgery
