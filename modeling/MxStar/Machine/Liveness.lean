import MxStar.Machine.Function

/-!
# Liveness

A register is live where its present value may still be read.  For every block

```text
liveOut = union of liveIn over the successors
liveIn  = uses ∪ (liveOut - defs)
```

where `uses` are the registers read before they are written in the block.  The
sets are computed from below by a queue of blocks that are still to be visited.
It starts with every block, the exit first, so that blocks from which the exit
cannot be reached are solved too; a block is queued again when the set of one of
its successors grew.

The queue is visited at most `visitBound` times: the live-in sets only grow,
none of them can hold more registers than the function reads, and each growth
queues no more than all blocks.
-/

namespace MxStar.Machine

/-- The registers live before an instruction, from those live after it. -/
def Instr.liveBefore (i : Instr) (after : RegisterSet) : RegisterSet :=
  (i.defs.foldl (fun live r => live.erase r) after).insertMany i.uses

theorem mem_foldl_erase (rs : List Register) (live : RegisterSet) (r : Register) :
    r ∈ rs.foldl (fun live r => live.erase r) live ↔ r ∈ live ∧ r ∉ rs := by
  induction rs generalizing live with
  | nil => simp
  | cons a rest ih =>
    simp only [List.foldl_cons, ih, Std.ExtTreeSet.mem_erase, Std.compare_eq_iff_eq, ne_eq,
      List.mem_cons, not_or]
    constructor
    · rintro ⟨⟨hne, hlive⟩, hrest⟩
      exact ⟨hlive, fun h => hne h.symm, hrest⟩
    · rintro ⟨hlive, hne, hrest⟩
      exact ⟨⟨fun h => hne h.symm, hlive⟩, hrest⟩

theorem Instr.mem_liveBefore (i : Instr) (after : RegisterSet) (r : Register) :
    r ∈ i.liveBefore after ↔ r ∈ i.uses ∨ r ∈ after ∧ r ∉ i.defs := by
  rw [Instr.liveBefore, Std.ExtTreeSet.mem_insertMany_list, mem_foldl_erase]
  simp [or_comm]

/-- The registers live before a piece of code, from those live after it. -/
def liveBefore (code : List Instr) (after : RegisterSet) : RegisterSet :=
  code.foldr Instr.liveBefore after

namespace Block

/-- The registers read before they are written in the block. -/
def uses (b : Block) : RegisterSet :=
  liveBefore b.code ∅

/-- The registers written in the block. -/
def defs (b : Block) : RegisterSet :=
  Std.ExtTreeSet.ofList (b.code.flatMap Instr.defs)

end Block

/-- What liveness knows about a block. -/
structure LiveSets where
  uses : RegisterSet := ∅
  defs : RegisterSet := ∅
  liveIn : RegisterSet := ∅
  liveOut : RegisterSet := ∅

/-- What is live in each block, and how many visits it took to find out. -/
structure Liveness where
  sets : Table .machineBlock LiveSets := ∅
  visits : Nat := 0

namespace Liveness

/-- What is known about a block. -/
def block (l : Liveness) (b : BlockId) : LiveSets :=
  (l.sets.get? b).getD {}

/-- All registers live at the start of one of the blocks. -/
def joined (l : Liveness) (blocks : List BlockId) : RegisterSet :=
  blocks.foldl (fun out b => out ∪ (l.block b).liveIn) ∅

theorem mem_joined (l : Liveness) (blocks : List BlockId) (r : Register) :
    r ∈ l.joined blocks ↔ ∃ b ∈ blocks, r ∈ (l.block b).liveIn := by
  suffices h : ∀ out : RegisterSet, r ∈ blocks.foldl (fun out b => out ∪ (l.block b).liveIn) out ↔
      r ∈ out ∨ ∃ b ∈ blocks, r ∈ (l.block b).liveIn by
    simpa [joined] using h ∅
  induction blocks with
  | nil => simp
  | cons b rest ih =>
    intro out
    rw [List.foldl_cons, ih]
    simp [or_assoc]

/-- Visit a block: compute its live sets from those of its successors. -/
def visit (l : Liveness) (b : BlockId) (successors : List BlockId) : Liveness :=
  let out := l.joined successors
  { sets := l.sets.modify b fun s =>
      { s with
        liveOut := out
        liveIn := s.uses ∪ out.filter fun r => !s.defs.contains r }
    visits := l.visits + 1 }

/-- Queue the blocks that are not queued yet. -/
def enqueue (queue blocks : List BlockId) : List BlockId :=
  blocks.foldl (fun queue b => if b ∈ queue then queue else queue ++ [b]) queue

/-- Visit queued blocks until none is left, at most `fuel` of them. -/
def solve (edges : Table .machineBlock Edges) : Nat → List BlockId → Liveness → Liveness
  | 0, _, l => l
  | _ + 1, [], l => l
  | fuel + 1, b :: queue, l =>
    let around := (edges.get? b).getD {}
    let next := l.visit b around.successors.toList
    if (next.block b).liveIn = (l.block b).liveIn then
      solve edges fuel queue next
    else
      solve edges fuel (enqueue queue around.predecessors.toList) next

/-- Nothing is live yet. -/
def start (f : Function) : Liveness :=
  { sets := f.blocks.map fun b => { uses := b.uses, defs := b.defs } }

/-- Every block, the exit first and then the others from the last to the first. -/
def startQueue (f : Function) : List BlockId :=
  f.exit :: f.blocks.indices.reverse.filter fun b => b != f.exit

/-- More visits than this are never needed. -/
def visitBound (f : Function) : Nat :=
  let blocks := f.blocks.size
  let reads := (f.code.flatMap Instr.uses).length
  blocks * reads * (blocks + 1) + blocks

/-- What is live in each block of a function. -/
def compute (f : Function) : Except Error Liveness := do
  let edges ← f.edges
  if f.exit.val < f.blocks.size then
    return solve edges (visitBound f) (startQueue f) (start f)
  else
    throw .outOfRange

end Liveness

end MxStar.Machine
