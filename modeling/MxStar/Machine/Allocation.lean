import MxStar.Event
import MxStar.Machine.Coloring
import MxStar.Machine.Selection
import MxStar.Machine.Spill

/-!
# Register allocation

Allocation goes in rounds.  A round computes liveness, builds the interference
graph and colours it; registers without a colour are spilled, and the next
round starts from the longer code.  A colouring without spills ends the rounds.

`Function.checkAssignment` tells independently of how an assignment was found
whether interfering registers got different places.  `Function.assign` then
puts the physical registers in place, drops the moves that have become empty
and records the registers the function has to give back unchanged.
-/

namespace MxStar.Machine

/-- A place for every virtual register, and the number of rounds it took to find them. -/
structure Assignment where
  colors : Colors := ∅
  rounds : Nat := 0

/-- What allocation leaves: the function with its spill code, its liveness as
last computed, and an assignment unless the rounds were used up. -/
structure Allocation where
  function : Function
  liveness : Liveness := {}
  outcome : Except Error Assignment

/-- Compute liveness and report the number of visits. -/
def Function.liveness (f : Function) : Logged Liveness := do
  let l ← ofExcept (Liveness.compute f)
  note (.livenessConverged f.name l.visits)
  return l

/-- The rounds that are left, the present one being number `round`. -/
def allocateRounds (colors : List Physical) (failure : Error) :
    (left round : Nat) → Function → Liveness → Logged Allocation
  | 0, _, f, l => return { function := f, liveness := l, outcome := .error failure }
  | left + 1, round, f, _ => do
    let l ← f.liveness
    let coloring := (Interference.build f l).color f.spillInfo colors
    if coloring.uncolored.isEmpty then
      note (.allocated f.name colors.length round)
      return { function := f, liveness := l
               outcome := .ok { colors := coloring.colors, rounds := round } }
    else
      note (.spilled f.name round coloring.uncolored)
      allocateRounds colors failure left (round + 1) (f.spill coloring.uncolored) l

namespace Function

/-- Find a place for every virtual register, spilling until that succeeds.  The
function still names virtual registers afterwards. -/
def allocate (f : Function) (l : Liveness) (options : Options) : Logged Allocation :=
  allocateRounds (palette options.budget) (.allocationDidNotConverge f.name options.rounds)
    options.rounds 1 f l

/-- The place an assignment gives to a register. -/
def placeOf (colors : Colors) : Register → Option Physical
  | .virtual v => colors[v]?
  | .physical p => some p

/-- Check that a register has a place and that no neighbour shares it. -/
def checkRegister (f : Function) (colors : Colors) (v : VirtualId) (neighbours : RegisterSet) :
    Except Error Unit :=
  match colors[v]? with
  | none => .error (.conflictingAssignment f.name (.virtual v) (.virtual v) none)
  | some color =>
    match neighbours.toList.find? fun r => placeOf colors r = some color with
    | some r => .error (.conflictingAssignment f.name (.virtual v) r (some color))
    | none => .ok ()

/-- Check that no two interfering registers share a place. -/
def checkColors (f : Function) (l : Liveness) (colors : Colors) : Except Error Unit :=
  (Interference.build f l).adjacency.toList.forM fun (v, neighbours) =>
    f.checkRegister colors v neighbours

/-- Check an assignment against liveness computed afresh. -/
def checkAssignment (f : Function) (a : Assignment) : Logged Unit := do
  let l ← f.liveness
  ofExcept (f.checkColors l a.colors)

end Function

/-- A register, or the place an assignment gives to it. -/
def replaceBy (colors : Colors) : Register → Register
  | .virtual v =>
    match colors[v]? with
    | some color => .physical color
    | none => .virtual v
  | .physical p => .physical p

/-- Whether the instruction moves a register to itself. -/
def Instr.isEmptyMove : Instr → Bool
  | .mv rd rs => rd == rs
  | _ => false

/-- The block with physical registers in place. -/
def Block.assign (colors : Colors) (b : Block) : Block :=
  { b with code := (b.code.map (·.mapRegisters (replaceBy colors))).filter (!·.isEmptyMove) }

namespace Function

/-- The registers of `candidates` that the function writes. -/
def written (f : Function) (candidates : List Physical) : List Physical :=
  candidates.filter fun p => f.code.any fun i => .physical p ∈ i.defs

/-- Put the physical registers in place. -/
def assign (f : Function) (a : Assignment) : Function :=
  let f := { f with blocks := f.blocks.map (Block.assign a.colors) }
  { f with saved := f.written Physical.calleeSaved }

/-- Find places for the virtual registers, check them and put them in place.
The outcome is the error that stopped this, if one did. -/
def allocateRegisters (f : Function) (l : Liveness) (options : Options) :
    Logged (Function × Liveness × Option Error) := do
  let allocation ← f.allocate l options
  let f := allocation.function
  match allocation.outcome with
  | .error e => return (f, allocation.liveness, some e)
  | .ok a =>
    let fresh ← f.liveness
    match f.checkColors fresh a.colors with
    | .error e => return (f, allocation.liveness, some e)
    | .ok () => return (f.assign a, allocation.liveness, none)

end Function

end MxStar.Machine
