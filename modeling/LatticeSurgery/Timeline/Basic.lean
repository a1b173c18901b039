import LatticeSurgery.Patch.IdSource
import LatticeSurgery.Slice.Basic

/-!
# Timelines

A timeline is what a program compiles to: one slice after another, all on the same layout, and the
ids that are still fresh. It starts with the layout's patches under the names that the program
declares (`Timeline.start`). After that only the last slice changes: a new one is appended
(`Timeline.advance`), or a patch is placed in it under a fresh id (`Timeline.placeQubit`).
-/

namespace LatticeSurgery

/-- A sequence of slices that is not empty, and the source of ids for new patches. -/
structure Timeline where
  /-- All slices but the last. -/
  past : List Slice
  /-- The last slice. -/
  now : Slice
  ids : IdSource

namespace Timeline

/-- The slices, from the first to the last. -/
def slices (t : Timeline) : List Slice := t.past ++ [t.now]

/-- The layout of all slices. -/
def layout (t : Timeline) : Layout := t.now.layout

/-- One slice, with the declared names on the first patches of the layout and none on the others. -/
def start (layout : Layout) (qubits : List PatchId) : Except Fault Timeline := do
  if let some id := firstRepeat? qubits then
    throw (.repeatedId id)
  let first := Slice.ofLayout layout
  if first.qubits.length < qubits.length then
    throw (.tooFewPatches qubits.length first.qubits.length)
  first.audit
  let first := first.assignIds (qubits.map some)
  let ids ← IdSource.above (first.qubits.filterMap Patch.id)
  return { past := [], now := first, ids }

/-- Appends the slice with which the next step starts. -/
def advance (t : Timeline) : Timeline := { t with past := t.slices, now := t.now.next }

/-- Places a patch in the last slice under a fresh id, and gives that id. -/
def placeQubit (t : Timeline) (p : Patch) : Except Fault (PatchId × Timeline) := do
  let now ← t.now.placeQubit { p with id := some t.ids.next }
  let (id, ids) ← t.ids.draw
  return (id, { t with now, ids })

end Timeline

end LatticeSurgery
