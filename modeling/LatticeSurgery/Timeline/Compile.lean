import LatticeSurgery.Layout.Row
import LatticeSurgery.Program.Basic
import LatticeSurgery.Routing.Router
import LatticeSurgery.Timeline.Basic

/-!
# Compiling programs

Each instruction becomes one slice. The slice starts as the next one after the last, without the
patches that were measured out, and the instruction then marks a patch or routes a channel. The
first instruction that cannot be carried out stops the compilation.
-/

namespace LatticeSurgery

namespace Slice

/-- Routes the channel of a joint measurement of two patches, from the smaller id to the larger. -/
def measureJointly (s : Slice) (o : Observable) : Except Fault Slice :=
  match o.factors with
  | [(source, sourceOp), (target, targetOp)] => do
    match ← s.route source sourceOp target targetOp with
    | some channel => return s.addChannel channel
    | none => throw (.noRoute source target)
  | factors => throw (.wrongArity factors.length)

/-- Carries out an instruction. Requests for magic states are not scheduled and change nothing. -/
def perform (s : Slice) : Instruction → Except Fault Slice
  | .measure target => s.setActivity target .measurement
  | .pauli target => s.setActivity target .unitary
  | .joint observable => s.measureJointly observable
  | .requestMagic _ => return s

end Slice

namespace Timeline

/-- Appends the slice of an instruction. -/
def step (t : Timeline) (i : Instruction) : Except Fault Timeline := do
  let t := t.advance
  return { t with now := ← t.now.perform i }

end Timeline

namespace Program

/-- The timeline of a program on a layout. -/
def compileOn (p : Program) (layout : Layout) : Except Fault Timeline := do
  p.instructions.foldlM Timeline.step (← Timeline.start layout p.qubits)

/-- The row of patches on which a program is compiled by default: one for each declared qubit. -/
def defaultLayout (p : Program) : RowLayout := { count := p.qubits.length }

/-- The timeline of a program on its own row of patches. -/
def compile (p : Program) : Except Fault Timeline := p.compileOn p.defaultLayout.toLayout

end Program

end LatticeSurgery
