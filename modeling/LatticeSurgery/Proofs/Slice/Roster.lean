import LatticeSurgery.Proofs.Timeline.Steps
import Mathlib.Data.List.Nodup
import Mathlib.Data.List.Pairwise

/-!
# The patches of a slice and their names

What an instruction marks on a patch is over after one step; the rest of the patch stays as long as
the patch does. `Slice.roster` lists the qubit patches without the marks and `Slice.ids` their names.
A step forward drops some entries of the roster and changes none (`roster_next`), and no instruction
touches it (`roster_perform`). A patch that is placed is its last entry (`roster_placeQubit`).

Marks are set on the first patch with an id. Where no two patches share an id, that is every patch
with the id (`qubits_setActivity`).
-/

namespace LatticeSurgery

/-- The patch with another activity. -/
def Patch.withActivity (p : Patch) (a : Activity) : Patch := { p with activity := a }

namespace Patch

variable {p : Patch} {a : Activity}

@[simp] theorem id_withActivity : (p.withActivity a).id = p.id := rfl

@[simp] theorem singleTile?_withActivity : (p.withActivity a).singleTile? = p.singleTile? := rfl

theorem withActivity_activity (p : Patch) : p.withActivity p.activity = p := rfl

end Patch

namespace Slice

variable {s t : Slice} {p q : Patch} {id : PatchId}

/-- The ids of the qubit patches, in order. -/
def ids (s : Slice) : List PatchId := s.qubits.filterMap Patch.id

/-- The qubit patches without what happens to them in the slice. -/
def roster (s : Slice) : List Patch := s.qubits.map (·.withActivity .idle)

theorem mem_ids : id ∈ s.ids ↔ ∃ p ∈ s.qubits, p.id = some id := List.mem_filterMap

theorem ids_eq_filterMap_roster : s.ids = s.roster.filterMap Patch.id := by
  unfold ids roster
  rw [List.filterMap_map]
  rfl

theorem mem_roster : q ∈ s.roster ↔ ∃ p ∈ s.qubits, p.withActivity .idle = q := List.mem_map

theorem eq_of_id_eq {patches : List Patch} (h : (patches.filterMap Patch.id).Nodup)
    (hp : p ∈ patches) (hq : q ∈ patches) (hpid : p.id = some id) (hqid : q.id = some id) :
    p = q := by
  by_contra hne
  have hpairs := List.pairwise_filterMap.1 h
  have hsymm : Std.Symm fun a a' : Patch => ∀ b, a.id = some b → ∀ b', a'.id = some b' → b ≠ b' :=
    ⟨fun a a' haa' b hb b' hb' => (haa' b' hb' b hb).symm⟩
  exact hpairs.forall hp hq hne id hpid id hqid rfl

theorem find?_eq_some_iff_of_nodup (hnd : s.ids.Nodup) :
    s.qubits.find? (·.id = some id) = some p ↔ p ∈ s.qubits ∧ p.id = some id := by
  constructor
  · intro h
    exact ⟨List.mem_of_find?_eq_some h, by simpa using List.find?_some h⟩
  · intro h
    obtain ⟨hp, hid⟩ := h
    cases h : s.qubits.find? (·.id = some id) with
    | none => simpa [hid] using List.find?_eq_none.1 h p hp
    | some q =>
      have hq : q.id = some id := by simpa using List.find?_some h
      rw [eq_of_id_eq hnd (List.mem_of_find?_eq_some h) hp hq hid]

/-! ### Marks -/

theorem qubits_setActivity {a : Activity} (hnd : s.ids.Nodup) (h : s.setActivity id a = .ok t) :
    t.qubits = s.qubits.map fun p => if p.id = some id then p.withActivity a else p := by
  obtain ⟨i, hi, rfl⟩ := setActivity_eq_ok_iff.1 h
  clear h
  show s.qubits.modify i (fun p => p.withActivity a) = _
  unfold ids at hnd
  generalize s.qubits = patches at hnd hi
  induction patches generalizing i with
  | nil => cases hi
  | cons p patches ih =>
    rw [List.findIdx?_cons] at hi
    rw [List.map_cons]
    by_cases hp : p.id = some id
    · -- the first patch has the id, so no other one does
      simp only [hp, decide_true, if_true, Option.some.injEq] at hi
      rw [← hi, List.modify_zero_cons, if_pos hp]
      rw [List.filterMap_cons_some hp, List.nodup_cons] at hnd
      have hrest : ∀ q ∈ patches, (if q.id = some id then q.withActivity a else q) = q := by
        intro q hq
        exact if_neg fun hqid => hnd.1 (List.mem_filterMap.2 ⟨q, hq, hqid⟩)
      rw [List.map_congr_left hrest, List.map_id']
    · simp only [hp, decide_false, Bool.false_eq_true, if_false, Option.map_eq_some_iff] at hi
      obtain ⟨k, hk, rfl⟩ := hi
      rw [List.modify_succ_cons, if_neg hp, ih k (hnd.sublist ?_) hk]
      exact (List.sublist_cons_self p patches).filterMap Patch.id

theorem setActivity_eq_error_iff {a : Activity} (e : Fault) :
    s.setActivity id a = .error e ↔ id ∉ s.ids ∧ e = .unknownPatch id := by
  unfold setActivity
  cases h : s.qubits.findIdx? (·.id = some id) with
  | none =>
    have habsent : id ∉ s.ids := by
      rw [mem_ids]
      simpa using List.findIdx?_eq_none_iff.1 h
    simp [habsent, eq_comm]
  | some i =>
    obtain ⟨hi, hid, -⟩ := List.findIdx?_eq_some_iff_getElem.1 h
    have hpresent : id ∈ s.ids := mem_ids.2 ⟨s.qubits[i], List.getElem_mem hi, by simpa using hid⟩
    simp [hpresent]

/-! ### The roster from slice to slice -/

theorem roster_next : s.next.roster = s.next.qubits := by
  unfold roster
  rw [qubits_next, List.map_map]
  rfl

theorem roster_next_sublist : s.next.roster.Sublist s.roster := by
  rw [roster_next, qubits_next]
  exact List.filter_sublist.map _

theorem roster_setActivity {a : Activity} (h : s.setActivity id a = .ok t) :
    t.roster = s.roster := by
  obtain ⟨i, -, rfl⟩ := setActivity_eq_ok_iff.1 h
  unfold roster
  apply List.ext_getElem?
  intro k
  simp only [List.getElem?_map, List.getElem?_modify]
  cases s.qubits[k]? with
  | none => rfl
  | some p => split <;> rfl

theorem roster_perform {i : Instruction} (h : s.perform i = .ok t) : t.roster = s.roster := by
  rcases perform_cases h with ⟨_, _, _, hset⟩ | ⟨_, _, _, _, _, _, _, _, _, rfl⟩ | ⟨_, _, rfl⟩
  · exact roster_setActivity hset
  · rfl
  · rfl

theorem ids_placeQubit (h : s.placeQubit p = .ok t) (hid : p.id = some id) :
    t.ids = s.ids ++ [id] := by
  obtain ⟨-, rfl⟩ := placeQubit_eq_ok_iff.1 h
  show (s.qubits ++ [p]).filterMap Patch.id = _
  rw [List.filterMap_append, List.filterMap_cons_some hid]
  rfl

theorem roster_placeQubit (h : s.placeQubit p = .ok t) :
    t.roster = s.roster ++ [p.withActivity .idle] := by
  obtain ⟨-, rfl⟩ := placeQubit_eq_ok_iff.1 h
  show (s.qubits ++ [p]).map _ = _
  rw [List.map_append, List.map_singleton]
  rfl

/-! ### Names at the start -/

theorem qubits_assignIds (names : List PatchId) :
    (s.assignIds (names.map some)).qubits = s.qubits.mapIdx fun i p => { p with id := names[i]? } := by
  show s.qubits.mapIdx _ = _
  congr 1
  funext i p
  simp only [List.getElem?_toArray, List.getElem?_map]
  cases names[i]? with
  | none => rfl
  | some name => rfl

theorem ids_assignIds {names : List PatchId} (h : names.length ≤ s.qubits.length) :
    (s.assignIds (names.map some)).ids = names := by
  unfold ids
  rw [qubits_assignIds]
  generalize s.qubits = patches at h
  induction patches generalizing names with
  | nil =>
    rw [List.eq_nil_of_length_eq_zero (Nat.le_zero.1 h)]
    rfl
  | cons p patches ih =>
    rw [List.mapIdx_cons]
    cases names with
    | nil =>
      rw [List.filterMap_cons_none (by rfl)]
      exact @ih [] (Nat.zero_le _)
    | cons name names =>
      rw [List.filterMap_cons_some (b := name) (by rfl)]
      simp only [List.getElem?_cons_succ]
      rw [ih (Nat.le_of_succ_le_succ h)]

end Slice

namespace Timeline

variable {t : Timeline} {layout : Layout}

theorem ids_start {qubits : List PatchId} (h : start layout qubits = .ok t) :
    t.past = [] ∧ t.now.ids = qubits ∧ qubits.Nodup := by
  obtain ⟨hrepeat, hlen, -, ids, -, rfl⟩ := start_eq_ok_iff.1 h
  exact ⟨rfl, Slice.ids_assignIds hlen, firstRepeat?_eq_none_iff.1 hrepeat⟩

end Timeline

end LatticeSurgery
