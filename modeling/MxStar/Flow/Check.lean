import MxStar.Flow.Function

/-!
# Checking flow graphs

`Function.check` accepts a function whose layout starts with the entry and
lists the exit, whose laid-out blocks all have terminators that stay inside the
layout, and whose edge sets agree with the terminators.
-/

namespace MxStar.Flow

namespace Function

/-- The error for a block whose edges are wrong. -/
def inconsistent (f : Function) (id : BlockId) : Except Error Unit := do
  let b ← f.blocks.find id
  throw (.inconsistentEdges f.name b.label)

/-- Whether a block is laid out and has an edge to `target`. -/
def isLaidOutSource (f : Function) (target source : BlockId) : Except Error Bool := do
  if source ∈ f.layout then
    let b ← f.blocks.find source
    return b.successors.contains target
  else
    return false

/-- Whether all of the blocks are laid out and have an edge to `target`; the
first that is not decides. -/
def allLaidOutSources (f : Function) (target : BlockId) : List BlockId → Except Error Bool
  | [] => .ok true
  | source :: rest => do
    if ← f.isLaidOutSource target source then f.allLaidOutSources target rest else return false

/-- Check one block of the layout. -/
def checkBlock (f : Function) (id : BlockId) : Except Error Unit := do
  let b ← f.blocks.find id
  let some t := b.terminator | throw (.missingTerminator f.name b.label)
  let targets : IndexSet .block := Std.ExtTreeSet.ofList t.successors
  unless targets = b.successors ∧ ∀ target ∈ t.successors, target ∈ f.layout do
    throw (.inconsistentEdges f.name b.label)
  unless ← f.allLaidOutSources id b.predecessors.toList do
    throw (.inconsistentEdges f.name b.label)

/-- Check the invariants of a function. -/
def check (f : Function) : Except Error Unit := do
  unless f.layout.head? = some f.entry do f.inconsistent f.entry
  unless f.exit ∈ f.layout do f.inconsistent f.exit
  f.layout.forM f.checkBlock

end Function

/-- Check all functions of a unit. -/
def Program.check (p : Program) : Except Error Unit :=
  p.allFunctions.forM Function.check

end MxStar.Flow
