import LatticeSurgery.Proofs.Routing.Comparison
import LatticeSurgery.Proofs.Timeline.Failure
import LatticeSurgery.Proofs.Timeline.Replay

/-!
# Measuring out a patch that is not needed any more

A program that measures out a patch which no later instruction mentions frees the cells of the patch for
the channels to come. It also gives up the room that the patch held open: channels stay in the box from
the origin to the furthest covered cell, and without the patch the box may shrink. One patch of
`cornerLayout` alone keeps the second row in the box; once it is measured out, no channel can pass below
the first row.

A channel that stays within reach of the other patches can still be used, and what the router finds
instead is not longer (`perform_without`). So a program whose later channels are all of that kind still
compiles.
-/

namespace LatticeSurgery

/-- The patch is a target of the instruction or occurs in its observable. -/
def Instruction.Mentions (id : PatchId) : Instruction → Prop
  | .measure target | .pauli target | .requestMagic target => target = id
  | .joint observable => id ∈ observable.factors.map Prod.fst

instance (id : PatchId) (i : Instruction) : Decidable (i.Mentions id) :=
  match i with
  | .measure target | .pauli target | .requestMagic target =>
    inferInstanceAs (Decidable (target = id))
  | .joint observable => inferInstanceAs (Decidable (id ∈ observable.factors.map Prod.fst))

namespace Slice

variable {s t first : Slice} {q id : PatchId} {c : Cell} {i : Instruction}

/-- The slice without the patch and before any channel is routed. -/
def without (s : Slice) (q : PatchId) : Slice :=
  { s with qubits := s.qubits.filter (·.id ≠ some q), channels := [] }

/-- All channels of the slice are within reach of the patches other than `q`. -/
def InReachWithout (q : PatchId) (s : Slice) : Prop :=
  ∀ c ∈ s.channelCells, c ∈ Box.upTo (s.without q).extent

instance : Decidable (s.InReachWithout q) := List.decidableBAll _ _

/-- The second slice has as many channels as the first, each at most as long as its counterpart. -/
def NoLonger (s t : Slice) : Prop :=
  List.Forall₂ (fun r r' => r'.tiles.length ≤ r.tiles.length) s.channels t.channels

/-! ### What is left without the patch -/

theorem ids_without_sublist : (s.without q).ids.Sublist s.ids :=
  List.filter_sublist.filterMap Patch.id

theorem mem_ids_without (hid : id ∈ s.ids) (hne : id ≠ q) : id ∈ (s.without q).ids := by
  obtain ⟨p, hp, hpid⟩ := mem_ids.1 hid
  refine mem_ids.2 ⟨p, List.mem_filter.2 ⟨hp, ?_⟩, hpid⟩
  rw [hpid]
  simpa using hne

theorem tile?_without (hne : id ≠ q) : (s.without q).tile? id = s.tile? id := by
  have hfind : (s.without q).qubits.find? (·.id = some id) = s.qubits.find? (·.id = some id) := by
    show (s.qubits.filter _).find? _ = _
    rw [List.find?_filter]
    congr 1
    funext p
    rw [Bool.eq_iff_iff]
    simp only [ne_eq, decide_eq_true_eq, and_iff_right_iff_imp]
    intro hid hq
    rw [hid] at hq
    exact hne (Option.some.inj hq)
  unfold tile?
  rw [hfind]

theorem isFree_without (h : s.isFree c) : (s.without q).isFree c := by
  rw [isFree_iff] at h ⊢
  refine ⟨h.1, fun hc => h.2.1 ?_, by simp [channelCells, without]⟩
  obtain ⟨p, hp, hcp⟩ := List.mem_flatMap.1 hc
  refine List.mem_flatMap.2 ⟨p, ?_, hcp⟩
  rcases List.mem_append.1 hp with hp | hp
  · exact List.mem_append_left _ (List.mem_of_mem_filter hp)
  · exact List.mem_append_right _ hp

theorem next_without (s : Slice) (q : PatchId) : (s.without q).next = s.next.without q := by
  have hqubits : (s.without q).next.qubits = (s.next.without q).qubits := by
    show _ = s.next.qubits.filter _
    rw [qubits_next, qubits_next, List.filter_map]
    show ((s.qubits.filter _).filter _).map _ = _
    rw [List.filter_filter, List.filter_filter]
    congr 2
    funext p
    exact Bool.and_comm _ _
  show (⟨s.layout, (s.without q).next.qubits, [], []⟩ : Slice) = _
  rw [hqubits]
  rfl

theorem survivors_concat_measure {done : List Instruction} :
    first.survivors (done ++ [.measure q]) = (first.survivors done).without q := by
  have hqubits : (first.survivors (done ++ [.measure q])).qubits =
      ((first.survivors done).without q).qubits := by
    show (first.qubits.filter _).map _ = ((first.qubits.filter _).map _).filter _
    rw [List.filter_map, List.filter_filter]
    congr 2
    funext p
    have hkept : (Instruction.measure q).activityOn p.id ≠ .measurement ↔ p.id ≠ some q := by
      simp [Patch.activityOn_eq_measurement_iff]
    rw [Bool.eq_iff_iff, Patch.survives_concat, Bool.and_eq_true, and_comm, hkept]
    exact and_congr_left fun _ => decide_eq_true_iff.symm
  exact congrArg (fun qubits => (⟨first.layout, qubits, [], []⟩ : Slice)) hqubits

/-! ### One instruction -/

theorem exists_setActivity_iff (a : Activity) : (∃ t, s.setActivity id a = .ok t) ↔ id ∈ s.ids := by
  cases h : s.setActivity id a with
  | error e => simp [((setActivity_eq_error_iff e).1 h).1]
  | ok t =>
    refine ⟨fun _ => ?_, fun _ => ⟨t, rfl⟩⟩
    by_contra habsent
    rw [(setActivity_eq_error_iff _).2 ⟨habsent, rfl⟩] at h
    cases h

theorem exists_measure {done : List Instruction} (hnd : first.ids.Nodup)
    (hlive : first.Live first.ids done q) :
    ∃ t, (first.survivors done).perform (.measure q) = .ok t ∧
      t.next = (first.survivors done).without q := by
  obtain ⟨t, ht⟩ := (exists_setActivity_iff .measurement).2 ((live_iff hnd).1 hlive)
  have hnext := next_perform_survivors (i := .measure q) hnd ht
  rw [survivors_concat_measure] at hnext
  exact ⟨t, ht, hnext⟩

theorem setActivity_without {a : Activity} (hnd : s.ids.Nodup) (hne : id ≠ q)
    (h : s.setActivity id a = .ok t) : (s.without q).setActivity id a = .ok (t.without q) := by
  obtain ⟨t', h'⟩ := (exists_setActivity_iff a).2
    (mem_ids_without (q := q) ((exists_setActivity_iff a).1 ⟨t, h⟩) hne)
  have hqubits : t'.qubits = (t.without q).qubits := by
    rw [qubits_setActivity (hnd.sublist ids_without_sublist) h']
    show (s.qubits.filter _).map _ = t.qubits.filter _
    rw [qubits_setActivity hnd h, List.filter_map]
    congr 2
    funext p
    show _ = decide ((if p.id = some id then p.withActivity a else p).id ≠ some q)
    split
    · rfl
    · rfl
  obtain ⟨_, -, rfl⟩ := setActivity_eq_ok_iff.1 h
  obtain ⟨_, -, rfl⟩ := setActivity_eq_ok_iff.1 h'
  rw [h']
  exact congrArg (fun qubits => Except.ok (⟨s.layout, qubits, s.magicStates, []⟩ : Slice)) hqubits

theorem nodup_ids_next_perform (hnd : s.ids.Nodup) (h : s.perform i = .ok t) :
    t.next.ids.Nodup := by
  rw [ids_eq_filterMap_roster] at hnd ⊢
  rw [← roster_perform h] at hnd
  exact hnd.sublist (roster_next_sublist.filterMap Patch.id)

/-- An instruction that does not mention the patch can be carried out without it, if its channel stays
within reach of the other patches, and the channel does not become longer. -/
theorem perform_without (hnd : s.ids.Nodup) (hc : s.channels = []) (hi : ¬ i.Mentions q)
    (h : s.perform i = .ok t) (hreach : t.InReachWithout q) :
    ∃ t', (s.without q).perform i = .ok t' ∧ t.NoLonger t' ∧ t'.next = t.next.without q := by
  rcases perform_cases h with ⟨id, a, hmark, hset⟩ |
    ⟨o, source, sourceOp, target, targetOp, region, rfl, ho, hroute, rfl⟩ | ⟨id, rfl, rfl⟩
  · have hne : id ≠ q := by
      rcases hmark with ⟨rfl, -⟩ | ⟨rfl, -⟩
      · exact hi
      · exact hi
    have hchannels : t.channels = [] := by
      obtain ⟨_, -, rfl⟩ := setActivity_eq_ok_iff.1 hset
      exact hc
    have hset' := setActivity_without hnd hne hset
    refine ⟨t.without q, ?_, ?_, next_without t q⟩
    · rcases hmark with ⟨rfl, rfl⟩ | ⟨rfl, rfl⟩
      · exact hset'
      · exact hset'
    · unfold NoLonger
      rw [hchannels]
      exact .nil
  · have hsource : source ≠ q := by
      rintro rfl
      exact hi (by simp [Instruction.Mentions, ho])
    have htarget : target ≠ q := by
      rintro rfl
      exact hi (by simp [Instruction.Mentions, ho])
    have hchannels : (s.addChannel region).channels = [region] := by
      show s.channels ++ [region] = _
      rw [hc, List.nil_append]
    have hpassable : ∀ c ∈ region.cells,
        c ∈ Box.upTo (s.without q).extent ∧ (s.without q).isFree c := by
      intro c hcell
      refine ⟨hreach c ?_, isFree_without (passable_of_route hroute c hcell).2⟩
      exact List.mem_flatMap.2 ⟨region, by simp [hchannels], hcell⟩
    obtain ⟨region', hroute', hle⟩ := exists_route_of_passable (tile?_without hsource)
      (tile?_without htarget) hroute hpassable
    refine ⟨(s.without q).addChannel region', measureJointly_eq ho hroute', ?_, ?_⟩
    · unfold NoLonger
      rw [hchannels]
      exact .cons hle .nil
    · exact next_without s q
  · refine ⟨t.without q, rfl, ?_, next_without t q⟩
    unfold NoLonger
    rw [hc]
    exact .nil

theorem exists_performAll_without {post : List Instruction} {new : List Slice} (hnd : s.ids.Nodup)
    (hc : s.channels = []) (hunused : ∀ i ∈ post, ¬ i.Mentions q)
    (h : s.performAll post = .ok new) (hreach : ∀ t ∈ new, t.InReachWithout q) :
    ∃ new', (s.without q).performAll post = .ok new' ∧ List.Forall₂ NoLonger new new' := by
  have hstep : ∀ i ∈ post, ∀ s s' t : Slice, s.ids.Nodup ∧ s.channels = [] ∧ s' = s.without q →
      s.perform i = .ok t → t.InReachWithout q → ∃ t', s'.perform (id i) = .ok t' ∧ t.NoLonger t' ∧
        (t.next.ids.Nodup ∧ t.next.channels = [] ∧ t'.next = t.next.without q) := by
    intro i hi s s' t hs hperform hreach
    obtain ⟨hnd, hc, rfl⟩ := hs
    obtain ⟨t', ht', hle, hnext⟩ := perform_without hnd hc (hunused i hi) hperform hreach
    exact ⟨t', ht', hle, nodup_ids_next_perform hnd hperform, rfl, hnext⟩
  have hall := exists_performAll_of_step
    (S := fun s s' => s.ids.Nodup ∧ s.channels = [] ∧ s' = s.without q)
    hstep ⟨hnd, hc, rfl⟩ h hreach
  rwa [List.map_id] at hall

end Slice

namespace Timeline

variable {t : Timeline} {layout : Layout} {qubits : List PatchId} {pre post : List Instruction}
  {first : Slice} {q : PatchId}

/-! ### The room that a patch holds open -/

/-- Two patches in the first row and one below them, further right. -/
def cornerLayout : Layout where
  initial := .pure [.square (.clamp 0 0), .square (.clamp 0 2), .square (.clamp 1 3)]
  extent := .clamp 1 3

/-- The X operators of the patches in the first row. -/
def rowMeasurement : Instruction := .joint (.ofList [(.clamp 0, .x), (.clamp 1, .x)])

/-- The row's operators are measured through the row below, which is there only as long as the third patch
is. The measurement does not mention that patch; still the program fails once the patch is measured
out. -/
theorem noRoute_cornerLayout :
    (∃ t first, Program.compileOn ⟨[.clamp 0, .clamp 1, .clamp 2], [] ++ [rowMeasurement]⟩
        cornerLayout = .ok t ∧
      t.slices[0]? = some first ∧ first.Live [.clamp 0, .clamp 1, .clamp 2] [] (.clamp 2)) ∧
    (∀ i ∈ [rowMeasurement], ¬ i.Mentions (.clamp 2)) ∧
    Program.compileOn ⟨[.clamp 0, .clamp 1, .clamp 2],
      [] ++ .measure (.clamp 2) :: [rowMeasurement]⟩ cornerLayout =
        .error (.noRoute (.clamp 0) (.clamp 1)) := by
  refine ⟨?_, by decide, ?_⟩
  · have hlive : (Program.compileOn ⟨[.clamp 0, .clamp 1, .clamp 2], [] ++ [rowMeasurement]⟩
        cornerLayout).map (fun t => decide (∃ first ∈ t.slices[0]?,
          first.Live [.clamp 0, .clamp 1, .clamp 2] [] (.clamp 2))) = .ok true := by
      decide +kernel
    obtain ⟨t, ht, hlive⟩ := map_eq_ok_iff.1 hlive
    obtain ⟨first, hfirst, hlive⟩ := of_decide_eq_true hlive
    exact ⟨t, first, ht, hfirst, hlive⟩
  · have hfails : (Program.compileOn ⟨[.clamp 0, .clamp 1, .clamp 2],
        [] ++ .measure (.clamp 2) :: [rowMeasurement]⟩ cornerLayout).map (fun _ => ()) =
          .error (.noRoute (.clamp 0) (.clamp 1)) := by
      decide +kernel
    exact map_eq_error_iff.1 hfails

/-! ### Whole compilations -/

/-- **A patch that is not needed any more can be measured out.** Let a program compile, and let none of
the instructions after `pre` mention the patch `q`, which is alive there. If the channels of those
instructions are all within reach of the other patches, the program also compiles when `q` is measured
out after `pre`, and no channel of the later instructions becomes longer. -/
theorem compileOn_release (h : Program.compileOn ⟨qubits, pre ++ post⟩ layout = .ok t)
    (hfirst : t.slices[0]? = some first) (hlive : first.Live qubits pre q)
    (hunused : ∀ i ∈ post, ¬ i.Mentions q)
    (hreach : ∀ s ∈ t.slices.drop (pre.length + 1), s.InReachWithout q) :
    ∃ u, Program.compileOn ⟨qubits, pre ++ .measure q :: post⟩ layout = .ok u ∧
      List.Forall₂ Slice.NoLonger (t.slices.drop (pre.length + 1)) (u.slices.drop (pre.length + 2)) := by
  obtain ⟨before, new, hbefore, hnew, rfl⟩ := compileOn_append_eq_ok_iff.1 h
  have hlen : before.slices.length = pre.length + 1 := length_slices_of_compileOn hbefore
  obtain ⟨start, hstart, hunrolled⟩ := unrolled_of_compileOn hbefore
  obtain ⟨-, hids, hnd⟩ := ids_start hstart
  rw [← hids] at hnd
  have hnext : before.now.next = start.now.survivors pre := hunrolled.next_eq
  rw [slices_append] at hfirst hreach ⊢
  rw [List.drop_left' hlen] at hreach ⊢
  have hsame : first = start.now := by
    rw [List.getElem?_append_left (by omega), hunrolled.first_eq] at hfirst
    exact (Option.some.inj hfirst).symm
  obtain ⟨s, hs, hsnext⟩ : ∃ s, before.now.next.perform (.measure q) = .ok s ∧
      s.next = before.now.next.without q := by
    rw [hnext]
    apply Slice.exists_measure hnd
    rw [hids, ← hsame]
    exact hlive
  obtain ⟨new', hnew', hall⟩ := Slice.exists_performAll_without
    (hnext ▸ hnd.sublist Slice.ids_survivors_sublist) rfl hunused hnew hreach
  rw [← hsnext] at hnew'
  refine ⟨before.append (s :: new'), compileOn_append_eq_ok_iff.2 ⟨before, s :: new', hbefore,
    Slice.performAll_cons_eq_ok_iff.2 ⟨s, new', hs, hnew', rfl⟩, rfl⟩, ?_⟩
  rw [slices_append, ← List.drop_drop (i := 1), List.drop_left' hlen]
  exact hall

/-- Three patches in a row, and a nameless one that keeps the row below in reach of the outer two. -/
def guardedRow : Layout where
  initial := .pure [.square (.clamp 0 0), .square (.clamp 0 2), .square (.clamp 0 4),
    .square (.clamp 1 5)]
  extent := .clamp 1 5

/-- A Pauli on the patch in the middle, then its release, then a measurement of the outer patches. The
release opens the straight way between them. -/
theorem compileOn_release_guardedRow :
    ∃ t u, Program.compileOn ⟨[.clamp 0, .clamp 1, .clamp 2],
        [.pauli (.clamp 1)] ++ [.joint (.ofList [(.clamp 0, .z), (.clamp 2, .z)])]⟩ guardedRow =
          .ok t ∧
      Program.compileOn ⟨[.clamp 0, .clamp 1, .clamp 2],
        [.pauli (.clamp 1)] ++ .measure (.clamp 1) ::
          [.joint (.ofList [(.clamp 0, .z), (.clamp 2, .z)])]⟩ guardedRow = .ok u ∧
      List.Forall₂ Slice.NoLonger (t.slices.drop 2) (u.slices.drop 3) ∧
      u.slices.map (·.channels.map (·.tiles.length)) = [[], [], [], [3]] := by
  have hbefore : (Program.compileOn ⟨[.clamp 0, .clamp 1, .clamp 2],
      [.pauli (.clamp 1)] ++ [.joint (.ofList [(.clamp 0, .z), (.clamp 2, .z)])]⟩ guardedRow).map
        (fun t => decide ((∃ first ∈ t.slices[0]?,
            first.Live [.clamp 0, .clamp 1, .clamp 2] [.pauli (.clamp 1)] (.clamp 1)) ∧
          ∀ s ∈ t.slices.drop 2, s.InReachWithout (.clamp 1))) = .ok true := by
    decide +kernel
  have hafter : (Program.compileOn ⟨[.clamp 0, .clamp 1, .clamp 2],
      [.pauli (.clamp 1)] ++ .measure (.clamp 1) ::
        [.joint (.ofList [(.clamp 0, .z), (.clamp 2, .z)])]⟩ guardedRow).map
        (·.slices.map (·.channels.map (·.tiles.length))) = .ok [[], [], [], [3]] := by
    decide +kernel
  obtain ⟨t, ht, hfacts⟩ := map_eq_ok_iff.1 hbefore
  obtain ⟨⟨first, hfirst, hlive⟩, hreach⟩ := of_decide_eq_true hfacts
  obtain ⟨u, hu, hle⟩ := compileOn_release ht hfirst hlive (by decide) hreach
  rw [hu] at hafter
  exact ⟨t, u, ht, hu, hle, Except.ok.inj hafter⟩

end Timeline

end LatticeSurgery
