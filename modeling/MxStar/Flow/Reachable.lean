import MxStar.Flow.Function

/-!
# Reachable blocks

`gather` visits the blocks that can be reached from a list of pending ones.  It
ends because every visit takes a block out of the unseen ones, so cycles and
repeated edges need no bound of their own.  `prune` takes the unreachable
blocks out of the layout, keeping the exit block in any case.
-/

namespace MxStar.Flow

/-- The blocks among `unseen` that are reached from the pending ones through
unseen blocks only, each once. -/
def gather (next : BlockId → List BlockId) (unseen pending : List BlockId) : List BlockId :=
  match pending with
  | [] => []
  | b :: rest =>
    if b ∈ unseen then
      b :: gather next (unseen.erase b) (next b ++ rest)
    else
      gather next unseen rest
termination_by (unseen.length, pending.length)
decreasing_by
  · apply Prod.Lex.left
    have hlen := List.length_erase_of_mem ‹b ∈ unseen›
    have hpos := List.length_pos_of_mem ‹b ∈ unseen›
    omega
  · apply Prod.Lex.right
    simp

namespace Function

/-- The blocks that can be reached from the entry. -/
def reachable (f : Function) : List BlockId :=
  gather f.targets f.blocks.indices [f.entry]

/-- Whether the entry and all targets of reachable blocks exist. -/
def isClosed (f : Function) : Bool :=
  (f.entry :: f.reachable.flatMap f.targets).all fun b => b.val < f.blocks.size

/-- Take all blocks out of the layout that cannot be reached, except the exit. -/
def dropUnreachable (f : Function) : Except Error Function :=
  if f.isClosed then
    let reachable := f.reachable
    .ok { f with layout := f.layout.filter fun b => b ∈ reachable || b == f.exit }
  else
    .error .outOfRange

/-- Drop unreachable blocks and derive the edge sets afresh. -/
def prune (f : Function) : Except Error Function := do
  (← f.dropUnreachable).rebuildEdges

end Function

end MxStar.Flow
