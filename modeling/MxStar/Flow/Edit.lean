import MxStar.Event
import MxStar.Flow.Reachable

/-!
# Edits of flow graphs

The edits that report an event: a finished block drops what is added to it, and
pruning says how many blocks it took out of the layout.
-/

namespace MxStar.Flow

namespace Function

/-- Replace a block by what `change` makes of it, and tell whether there was
such a change.  A block without one stays as it is and the event `dropped` is
noted. -/
def changeBlock (f : Function) (id : BlockId) (change : Block → Option Block)
    (dropped : String → Event) : Logged (Function × Bool) := do
  let b ← ofExcept (f.blocks.find id)
  match change b with
  | some changed => return ({ f with blocks := f.blocks.modify id fun _ => changed }, true)
  | none =>
    note (dropped b.label)
    return (f, false)

/-- Append an instruction to a block. -/
def push (f : Function) (id : BlockId) (i : Instr) : Logged (Function × Bool) :=
  f.changeBlock id (·.push? i) .droppedInstruction

/-- End a block. -/
def terminate (f : Function) (id : BlockId) (t : Terminator) : Logged (Function × Bool) :=
  f.changeBlock id (·.terminate? t) .droppedTerminator

/-- Prune the function and report how many blocks that took out of the layout. -/
def pruneNoted (f : Function) : Logged Function := do
  let kept ← ofExcept f.dropUnreachable
  unless kept.layout.length = f.layout.length do
    note (.prunedBlocks (f.layout.length - kept.layout.length) f.name)
  ofExcept kept.rebuildEdges

end Function

end MxStar.Flow
