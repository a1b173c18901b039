import LatticeSurgery.Proofs.Slice.Additions
import Mathlib.Data.Finset.Card

/-!
# Filling the deposit cells of a region

A distillation region leaves its states on the first of its deposit cells that is free. When one state after
another is left there, each takes its cell from those that are free, so the next search gives another cell,
and the search ends when the free cells have run out (`openDeposits_round`). A layout may list a cell more
than once, or one that is taken or reserved. What counts is which of the listed cells are free at the start:
the states go to these, each once and in the order in which they are first listed.
-/

namespace LatticeSurgery

/-- What a distillery delivers: a patch on the one cell that is asked for. It may depend on the slice. -/
structure Supply where
  patch : Slice → Cell → Patch
  cells_patch : ∀ s c, (patch s c).cells = [c]

theorem nodup_eraseDups {α : Type} [DecidableEq α] (l : List α) : l.eraseDups.Nodup := by
  match l with
  | [] => exact .nil
  | a :: l =>
    rw [List.eraseDups_cons, List.nodup_cons]
    refine ⟨fun ha => ?_, nodup_eraseDups _⟩
    simpa using (List.mem_filter.1 (List.mem_eraseDups.1 ha)).2
termination_by l.length
decreasing_by exact Nat.lt_succ_of_le (List.length_filter_le _ _)

namespace Slice

variable {s t : Slice} {region : Nat} {c : Cell} {p : Patch}

/-- The deposit cells of a region that are free, as often as the layout lists them. -/
def openDeposits (s : Slice) (region : Nat) : List Cell :=
  (s.layout.depositCells region).filter s.isFree

/-! ### One round -/

theorem freeDeposit?_eq_head? : s.freeDeposit? region = (s.openDeposits region).head? :=
  List.head?_filter.symm

theorem exists_placeMagicState (hc : s.freeDeposit? region = some c) (hp : p.cells = [c]) :
    ∃ t, s.placeMagicState p = .ok t := by
  refine ⟨_, placeMagicState_eq_ok_iff.2 ⟨fun d hd => ?_, rfl⟩⟩
  rw [hp, List.mem_singleton] at hd
  rw [hd]
  exact List.find?_some hc

theorem openDeposits_placeMagicState (hp : p.cells = [c]) (h : s.placeMagicState p = .ok t) :
    t.openDeposits region = (s.openDeposits region).filter (!· == c) := by
  have hadd : s.add (.magicState p) = .ok t := h
  unfold openDeposits
  rw [layout_add hadd, List.filter_filter]
  apply List.filter_congr
  intro d _
  have hfree := isFree_add_iff (c := d) hadd
  rw [show (Addition.magicState p).cells = [c] from hp, List.mem_singleton] at hfree
  rw [Bool.eq_iff_iff, hfree]
  simp [and_comm]

/-- A round uses the first of the open deposit cells and leaves the others, without its repetitions. -/
theorem openDeposits_round (hc : s.freeDeposit? region = some c) (hp : p.cells = [c])
    (h : s.placeMagicState p = .ok t) :
    ∃ rest, s.openDeposits region = c :: rest ∧ t.openDeposits region = rest.filter (!· == c) := by
  rw [freeDeposit?_eq_head?] at hc
  have hcons := (List.cons_head?_tail hc).symm
  refine ⟨_, hcons, ?_⟩
  rw [openDeposits_placeMagicState hp h, hcons]
  exact List.filter_cons_of_neg (by simp)

theorem length_openDeposits_lt (hc : s.freeDeposit? region = some c) (hp : p.cells = [c])
    (h : s.placeMagicState p = .ok t) :
    (t.openDeposits region).length < (s.openDeposits region).length := by
  obtain ⟨rest, hbefore, hafter⟩ := openDeposits_round hc hp h
  rw [hbefore, hafter]
  exact Nat.lt_succ_of_le (List.length_filter_le _ _)

theorem eraseDups_openDeposits (hc : s.freeDeposit? region = some c) (hp : p.cells = [c])
    (h : s.placeMagicState p = .ok t) :
    (s.openDeposits region).eraseDups = c :: (t.openDeposits region).eraseDups := by
  obtain ⟨rest, hbefore, hafter⟩ := openDeposits_round hc hp h
  rw [hbefore, hafter, List.eraseDups_cons]

/-! ### All rounds -/

/-- Leaves states on the deposit cells of the region for as long as one of them is free. Gives the cells
that were used, in order, and the slice at the end. -/
def fillDeposits (s : Slice) (region : Nat) (supply : Supply) : Except Fault (List Cell × Slice) :=
  match _hc : s.freeDeposit? region with
  | none => .ok ([], s)
  | some c =>
    match _ht : s.placeMagicState (supply.patch s c) with
    | .error e => .error e
    | .ok t => (t.fillDeposits region supply).map fun (cells, u) => (c :: cells, u)
termination_by (s.openDeposits region).length
decreasing_by exact length_openDeposits_lt _hc (supply.cells_patch s c) _ht

variable {supply : Supply}

theorem fillDeposits_of_none (hc : s.freeDeposit? region = none) :
    s.fillDeposits region supply = .ok ([], s) := by
  rw [fillDeposits]
  split
  · rfl
  · next h => cases hc.symm.trans h

theorem fillDeposits_of_some (hc : s.freeDeposit? region = some c)
    (ht : s.placeMagicState (supply.patch s c) = .ok t) :
    s.fillDeposits region supply =
      (t.fillDeposits region supply).map fun (cells, u) => (c :: cells, u) := by
  rw [fillDeposits]
  split
  · next h => cases hc.symm.trans h
  · next d h =>
    cases hc.symm.trans h
    split
    · next e he => cases ht.symm.trans he
    · next u hu =>
      cases ht.symm.trans hu
      rfl

theorem exists_fillDeposits (s : Slice) (region : Nat) (supply : Supply) :
    ∃ placed, s.fillDeposits region supply = .ok ((s.openDeposits region).eraseDups,
        { s with magicStates := s.magicStates ++ placed }) ∧
      placed.map Patch.cells = (s.openDeposits region).eraseDups.map ([·]) ∧
      ({ s with magicStates := s.magicStates ++ placed } : Slice).freeDeposit? region = none := by
  induction s using fillDeposits.induct region supply with
  | case1 s hc =>
    have hopen : s.openDeposits region = [] := by
      rwa [freeDeposit?_eq_head?, List.head?_eq_none_iff] at hc
    refine ⟨[], ?_⟩
    rw [fillDeposits_of_none hc, hopen, List.append_nil]
    exact ⟨rfl, rfl, hc⟩
  | case2 s c hc e he =>
    obtain ⟨t, ht⟩ := exists_placeMagicState hc (supply.cells_patch s c)
    cases he.symm.trans ht
  | case3 s c hc t ht ih =>
    obtain ⟨placed, hfill, hcells, hfull⟩ := ih
    have hround := eraseDups_openDeposits hc (supply.cells_patch s c) ht
    have hafter := (placeMagicState_eq_ok_iff.1 ht).2
    -- what the later rounds place comes after the patch of this one
    have hplaced : ({ t with magicStates := t.magicStates ++ placed } : Slice) =
        { s with magicStates := s.magicStates ++ supply.patch s c :: placed } := by
      rw [hafter, ← List.append_cons]
    rw [hplaced] at hfill hfull
    refine ⟨supply.patch s c :: placed, ?_, ?_, hfull⟩
    · rw [fillDeposits_of_some hc ht, hfill, hround]
      rfl
    · rw [List.map_cons, hcells, hround, List.map_cons, supply.cells_patch]

/-- **Filling the deposit cells of a region.** State after state is left on the first deposit cell that is
free, until there is none. No state is refused. There are as many rounds as there are different deposit cells
that were free at the start, and the cells used are these, in the order in which the layout first lists them.
At the end the slice has one more magic state on each of them and is otherwise as it was. -/
theorem fillDeposits_answers (s : Slice) (region : Nat) (supply : Supply) :
    ∃ cells placed t, s.fillDeposits region supply = .ok (cells, t) ∧ t.freeDeposit? region = none ∧
      cells.length = {c ∈ (s.layout.depositCells region).toFinset | s.isFree c}.card ∧
      cells = ((s.layout.depositCells region).filter s.isFree).eraseDups ∧
      placed.map Patch.cells = cells.map ([·]) ∧
      t = { s with magicStates := s.magicStates ++ placed } := by
  obtain ⟨placed, hfill, hcells, hfull⟩ := exists_fillDeposits s region supply
  refine ⟨_, placed, _, hfill, hfull, ?_, rfl, hcells, rfl⟩
  rw [← List.toFinset_card_of_nodup (nodup_eraseDups _)]
  congr 1
  ext c
  rw [List.mem_toFinset, List.mem_eraseDups, openDeposits, List.mem_filter, Finset.mem_filter,
    List.mem_toFinset]

/-- `obstructed` with a region whose deposit cells are in a bad state: of those listed, one is under a patch,
one is reserved, one lies in a channel, and one of the two that are free comes twice. -/
def depositing : Slice :=
  { obstructed with
    layout :=
      { obstructed.layout with
        depositCells := fun _ =>
          [.clamp 0 2, .clamp 2 2, .clamp 1 2, .clamp 2 0, .clamp 2 2, .clamp 1 1] } }

theorem fillDeposits_depositing :
    ∃ t, depositing.fillDeposits 0 ⟨fun _ c => .square c, fun _ _ => rfl⟩ =
        .ok ([.clamp 2 2, .clamp 1 1], t) ∧ t.freeDeposit? 0 = none := by
  obtain ⟨cells, placed, t, hfill, hnone, -, hcells, -⟩ :=
    fillDeposits_answers depositing 0 ⟨fun _ c => .square c, fun _ _ => rfl⟩
  have htwo : cells = [.clamp 2 2, .clamp 1 1] := by
    rw [hcells]
    decide +kernel
  rw [htwo] at hfill
  exact ⟨t, hfill, hnone⟩

end Slice

end LatticeSurgery
