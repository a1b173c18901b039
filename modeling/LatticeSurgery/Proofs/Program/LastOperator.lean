import LatticeSurgery.Proofs.Program.Renaming
import LatticeSurgery.Proofs.Timeline.Failure
import Mathlib.Data.Finset.Card

/-!
# The last operator on each patch

The observable of a joint measurement may be written down in many ways: its factors come in any order, and a
patch may be named again. Each factor replaces an earlier one on the same patch and leaves the others
(`Observable.mem_factors_insert`), so of the whole list only the last operator on each patch is left
(`Observable.mem_factors_ofList`). As the factors are kept in the order of the ids, two lists that agree in
that are the same observable (`Observable.ofList_eq_iff`). What a joint measurement does is then decided by
the number of patches in the list: a channel from the smaller id to the larger for two, and a fault otherwise.
-/

namespace LatticeSurgery

variable {fs gs : List Factor} {f g : Factor} {id : PatchId} {op : Pauli}

/-- The operator on the patch in the last factor that names it. -/
def lastOp? (fs : List Factor) (id : PatchId) : Option Pauli :=
  (fs.filter (·.1 = id)).getLast?.map Prod.snd

/-- The patches that the factors name. -/
def namedPatches (fs : List Factor) : Finset PatchId := (fs.map Prod.fst).toFinset

theorem lastOp?_concat (fs : List Factor) (f : Factor) (id : PatchId) :
    lastOp? (fs ++ [f]) id = if f.1 = id then some f.2 else lastOp? fs id := by
  unfold lastOp?
  rw [List.filter_append]
  split
  · next hf => rw [List.filter_cons_of_pos (by simpa using hf), List.filter_nil, List.getLast?_concat,
      Option.map_some]
  · next hf => rw [List.filter_cons_of_neg (by simpa using hf), List.filter_nil, List.append_nil]

theorem isSome_lastOp?_iff : (lastOp? fs id).isSome ↔ id ∈ fs.map Prod.fst := by
  induction fs using List.reverseRecOn with
  | nil => exact iff_of_false Bool.false_ne_true List.not_mem_nil
  | append_singleton fs f ih =>
    rw [lastOp?_concat, List.map_append, List.mem_append, List.map_singleton, List.mem_singleton, ← ih]
    split
    · next hf => exact iff_of_true rfl (.inr hf.symm)
    · next hf => rw [or_iff_left (Ne.symm hf)]

/-! ### Factors in their places -/

theorem mem_insertFactor_iff (h : fs.Pairwise (·.1 < ·.1)) :
    g ∈ insertFactor f fs ↔ g = f ∨ g ∈ fs ∧ g.1 ≠ f.1 := by
  induction fs with
  | nil => simp [insertFactor]
  | cons x fs ih =>
    obtain ⟨hx, hfs⟩ := List.pairwise_cons.1 h
    -- no factor after `x` is on a patch with an id up to that of `x`
    have hlater : ∀ g ∈ fs, ∀ id, id < x.1 ∨ id = x.1 → g.1 ≠ id := by
      intro g hg id hid
      have hlt := hx g hg
      rw [PatchId.lt_iff, PatchId.ext_iff] at hid
      rw [PatchId.lt_iff] at hlt
      rw [ne_eq, PatchId.ext_iff]
      omega
    rw [insertFactor]
    split
    · next hlt =>
      have hne : x.1 ≠ f.1 := fun hid => PatchId.lt_irrefl _ (hid ▸ hlt)
      grind
    · split
      · next heq => grind
      · next hne =>
        rw [List.mem_cons, ih hfs]
        grind

namespace Observable

theorem mem_factors_insert {o : Observable} : g ∈ (o.insert f).factors ↔ g = f ∨ g ∈ o.factors ∧ g.1 ≠ f.1 :=
  mem_insertFactor_iff o.increasing

theorem mem_factors_ofList : (id, op) ∈ (ofList fs).factors ↔ lastOp? fs id = some op := by
  induction fs using List.reverseRecOn with
  | nil => exact iff_of_false List.not_mem_nil (Option.some_ne_none op).symm
  | append_singleton fs f ih =>
    have hstep : ofList (fs ++ [f]) = (ofList fs).insert f := List.foldl_concat _ _ _ _
    rw [hstep, mem_factors_insert, lastOp?_concat, ih, Prod.ext_iff]
    split
    · next hf => simp [hf, eq_comm]
    · next hf => simp [Ne.symm hf]

theorem mem_ids_ofList : id ∈ (ofList fs).factors.map Prod.fst ↔ id ∈ fs.map Prod.fst := by
  rw [← @isSome_lastOp?_iff fs id, Option.isSome_iff_exists]
  simp only [← mem_factors_ofList, List.mem_map, Prod.exists, exists_and_right, exists_eq_right]

theorem eq_of_mem_iff {o o' : Observable} (h : ∀ f, f ∈ o.factors ↔ f ∈ o'.factors) : o = o' := by
  refine Observable.ext (factors_eq_of_perm ?_ o'.increasing)
  exact (List.perm_ext_iff_of_nodup o.nodup_ids.of_map o'.nodup_ids.of_map).2 h

theorem ofList_eq_iff : ofList fs = ofList gs ↔ ∀ id, lastOp? fs id = lastOp? gs id := by
  constructor
  · intro h id
    apply Option.ext
    intro op
    rw [← mem_factors_ofList, ← mem_factors_ofList, h]
  · intro h
    apply eq_of_mem_iff
    intro f
    rw [← Prod.eta f, mem_factors_ofList, mem_factors_ofList, h]

theorem ofList_eq_of_perm (h : fs.Perm gs) (hnd : (fs.map Prod.fst).Nodup) : ofList fs = ofList gs := by
  have hnd' : (gs.map Prod.fst).Nodup := (h.map Prod.fst).nodup_iff.1 hnd
  refine Observable.ext (factors_eq_of_perm ?_ (ofList gs).increasing)
  exact (factors_ofList_perm hnd).trans (h.trans (factors_ofList_perm hnd').symm)

theorem length_factors_ofList (fs : List Factor) :
    (ofList fs).factors.length = (namedPatches fs).card := by
  have hnamed : namedPatches fs = ((ofList fs).factors.map Prod.fst).toFinset := by
    ext id
    rw [namedPatches, List.mem_toFinset, List.mem_toFinset, mem_ids_ofList]
  rw [hnamed, List.toFinset_card_of_nodup (ofList fs).nodup_ids, List.length_map]

theorem exists_factors_ofList_eq_pair (h : (namedPatches fs).card = 2) :
    ∃ a opA b opB, a < b ∧ lastOp? fs a = some opA ∧ lastOp? fs b = some opB ∧
      (ofList fs).factors = [(a, opA), (b, opB)] := by
  rw [← length_factors_ofList, List.length_eq_two] at h
  obtain ⟨⟨a, opA⟩, ⟨b, opB⟩, hfactors⟩ := h
  have hlt := (ofList fs).increasing
  rw [hfactors, List.pairwise_pair] at hlt
  refine ⟨a, opA, b, opB, hlt, ?_, ?_, hfactors⟩
  · rw [← mem_factors_ofList, hfactors]
    exact List.mem_cons_self
  · rw [← mem_factors_ofList, hfactors]
    exact List.mem_cons_of_mem _ List.mem_cons_self

end Observable

namespace Slice

variable {s : Slice} {o : Observable}

/-! ### What a joint measurement does -/

theorem measureJointly_of_pair {source target : PatchId} {sourceOp targetOp : Pauli}
    (ho : o.factors = [(source, sourceOp), (target, targetOp)]) :
    s.measureJointly o = s.route source sourceOp target targetOp >>= fun answer =>
      answer.elim (.error (.noRoute source target)) fun region => .ok (s.addChannel region) := by
  cases hroute : s.route source sourceOp target targetOp with
  | ok answer => exact measureJointly_eq ho hroute
  | error e =>
    rw [error_bind, measureJointly_eq_error_iff ho, (route_eq_error_iff e).1 hroute]
    rfl

theorem measureJointly_eq_wrongArity_iff {n : Nat} :
    s.measureJointly o = .error (.wrongArity n) ↔ o.factors.length ≠ 2 ∧ n = o.factors.length := by
  constructor
  · intro h
    rcases measureJointly_fault_cases h with ⟨hlength, he⟩ | ⟨op, he⟩ | ⟨id, he | he⟩ | ⟨source, target, he⟩
    · exact ⟨hlength, Fault.wrongArity.inj he⟩
    all_goals cases he
  · intro h
    rw [measureJointly_of_length_ne h.1, h.2]

end Slice

theorem Timeline.compileOn_of_step_eq_error {p : Program} {layout : Layout} {t : Timeline} {i : Instruction}
    {e : Fault} (h : p.compileOn layout = .ok t) (hstep : t.step i = .error e) (after : List Instruction) :
    (p.followedBy (i :: after)).compileOn layout = .error e := by
  rw [compileOn_followedBy h, List.foldlM_cons, hstep, error_bind]

namespace Observable

/-- **Only the last operators count.** The product of a list of factors has each patch that the list names
once, in increasing order of the ids, with the last operator that the list gives it. Lists that agree in the
last operator on every patch, as the orders of a list without repetitions do, are therefore the same product,
and compile to the same timeline after any program and on any layout. A joint measurement is at fault for the
number of its patches exactly when there are not two of them, and tells how many there are. If there are two,
the channel is routed from the smaller id to the larger. -/
theorem ofList_by_lastOp (fs : List Factor) :
    ((ofList fs).factors.Pairwise (·.1 < ·.1) ∧
      (∀ id, id ∈ (ofList fs).factors.map Prod.fst ↔ id ∈ fs.map Prod.fst) ∧
      ∀ id op, (id, op) ∈ (ofList fs).factors ↔ lastOp? fs id = some op) ∧
    (∀ gs, (∀ id, lastOp? fs id = lastOp? gs id) → ofList fs = ofList gs ∧
      ∀ (p : Program) after,
        (p.followedBy (.joint (ofList fs) :: after)).compile =
          (p.followedBy (.joint (ofList gs) :: after)).compile ∧
        ∀ layout, (p.followedBy (.joint (ofList fs) :: after)).compileOn layout =
          (p.followedBy (.joint (ofList gs) :: after)).compileOn layout) ∧
    (∀ gs, fs.Perm gs → (fs.map Prod.fst).Nodup → ∀ id, lastOp? fs id = lastOp? gs id) ∧
    (∀ (s : Slice) n, s.perform (.joint (ofList fs)) = .error (.wrongArity n) ↔
      (namedPatches fs).card ≠ 2 ∧ n = (namedPatches fs).card) ∧
    (∀ (p : Program) after layout t, p.compileOn layout = .ok t → (namedPatches fs).card ≠ 2 →
      (p.followedBy (.joint (ofList fs) :: after)).compileOn layout =
        .error (.wrongArity (namedPatches fs).card)) ∧
    ((namedPatches fs).card = 2 → ∃ a opA b opB, a < b ∧
      lastOp? fs a = some opA ∧ lastOp? fs b = some opB ∧
      ∀ s : Slice, s.perform (.joint (ofList fs)) = s.route a opA b opB >>= fun answer =>
        answer.elim (.error (.noRoute a b)) fun region => .ok (s.addChannel region)) := by
  have harity : ∀ (s : Slice) n, s.perform (.joint (ofList fs)) = .error (.wrongArity n) ↔
      (namedPatches fs).card ≠ 2 ∧ n = (namedPatches fs).card := by
    intro s n
    rw [← length_factors_ofList]
    exact Slice.measureJointly_eq_wrongArity_iff
  refine ⟨⟨(ofList fs).increasing, fun id => mem_ids_ofList, fun id op => mem_factors_ofList⟩,
    fun gs h => ?_, fun gs h hnd => ofList_eq_iff.1 (ofList_eq_of_perm h hnd), harity,
    fun p after layout t ht hcard => ?_, fun h => ?_⟩
  · rw [ofList_eq_iff.2 h]
    exact ⟨rfl, fun p after => ⟨rfl, fun layout => rfl⟩⟩
  · apply Timeline.compileOn_of_step_eq_error ht
    rw [Timeline.step_eq_error_iff, harity]
    exact ⟨hcard, rfl⟩
  · obtain ⟨a, opA, b, opB, hlt, ha, hb, hfactors⟩ := exists_factors_ofList_eq_pair h
    exact ⟨a, opA, b, opB, hlt, ha, hb, fun s => Slice.measureJointly_of_pair hfactors⟩

/-- Two patches out of order, the first of them named again. -/
def twiceNamed : List Factor := [(.clamp 7, .y), (.clamp 3, .x), (.clamp 7, .z)]

theorem ofList_twiceNamed :
    (∀ id, lastOp? twiceNamed id = lastOp? [(.clamp 3, .x), (.clamp 7, .z)] id) ∧
    ofList twiceNamed = ofList [(.clamp 3, .x), (.clamp 7, .z)] ∧
    (namedPatches twiceNamed).card = 2 ∧ ∃ a opA b opB, a < b ∧
      lastOp? twiceNamed a = some opA ∧ lastOp? twiceNamed b = some opB ∧
      ∀ s : Slice, s.perform (.joint (ofList twiceNamed)) = s.route a opA b opB >>= fun answer =>
        answer.elim (.error (.noRoute a b)) fun region => .ok (s.addChannel region) := by
  obtain ⟨-, hsame, -, -, -, hroute⟩ := ofList_by_lastOp twiceNamed
  have hlast : ∀ id, lastOp? twiceNamed id = lastOp? [(.clamp 3, .x), (.clamp 7, .z)] id :=
    ofList_eq_iff.1 (by decide)
  have hcard : (namedPatches twiceNamed).card = 2 := by decide
  exact ⟨hlast, (hsame _ hlast).1, hcard, hroute hcard⟩

end Observable

end LatticeSurgery
