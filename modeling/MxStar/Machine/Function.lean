import MxStar.Machine.Instr
import Std.Data.ExtTreeMap

/-!
# Machine functions

Machine code is grouped in blocks.  Jumps name a block by its position, and a
block carries a number of its own, which in selected code is that position.  The
edges between blocks are read off the last instruction of each one.
-/

namespace MxStar.Machine

/-- A block of machine code. -/
structure Block where
  id : BlockId
  label : String
  code : List Instr := []
deriving DecidableEq, Repr

namespace Block

/-- The last instruction, if it ends the block. -/
def terminator? (b : Block) : Option Instr :=
  b.code.getLast?.filter Instr.isTerminator

/-- The blocks control can go to. -/
def targets (b : Block) : List BlockId :=
  match b.terminator? with
  | some t => t.targets
  | none => []

end Block

/-- A function, before or after its registers are allocated. -/
structure Function where
  name : String
  blocks : Table .machineBlock Block := ∅
  entry : BlockId := ⟨0⟩
  exit : BlockId := ⟨0⟩
  frame : Frame := {}
  /-- The number the next virtual register gets -/
  virtuals : Nat := 0
  /-- Temporaries of spilled registers; to spill them again would gain nothing -/
  unspillable : IndexSet .virtual := ∅
  /-- Registers the body writes and has to give back unchanged -/
  saved : List Physical := []
  makesCalls : Bool := false

/-- The blocks before and after a block. -/
structure Edges where
  predecessors : IndexSet .machineBlock := ∅
  successors : IndexSet .machineBlock := ∅

namespace Function

/-- A virtual register that was not handed out before. -/
def fresh (f : Function) : VirtualId × Function :=
  (.ofNat f.virtuals, { f with virtuals := f.virtuals + 1 })

/-- All instructions, block by block. -/
def code (f : Function) : List Instr :=
  f.blocks.entries.toList.flatMap Block.code

/-- Every mention of a virtual register, in order. -/
def mentions (f : Function) : List VirtualId :=
  f.code.flatMap fun i => (i.uses ++ i.defs).filterMap Register.virtual?

/-- The virtual registers the function mentions. -/
def inUse (f : Function) : IndexSet .virtual :=
  Std.ExtTreeSet.ofList f.mentions

/-- How often the function mentions each virtual register. -/
def occurrences (f : Function) : Std.ExtTreeMap VirtualId Nat :=
  f.mentions.foldl (fun counts v => counts.insert v ((counts[v]?).getD 0 + 1)) ∅

/-- The registers the function keeps in its frame. -/
def frameSaved (f : Function) : List Physical :=
  if f.makesCalls then .ra :: f.saved else f.saved

/-- Where everything in the frame stands. -/
def frameLayout (f : Function) : Except Error FrameLayout :=
  FrameLayout.compute f.frame f.frameSaved

/-- Record an edge at both of its ends. -/
def link (table : Table .machineBlock Edges) (edge : BlockId × BlockId) :
    Table .machineBlock Edges :=
  (table.modify edge.1 fun e => { e with successors := e.successors.insert edge.2 }).modify
    edge.2 fun e => { e with predecessors := e.predecessors.insert edge.1 }

/-- Source and target of every edge. -/
def edgeList (f : Function) : List (BlockId × BlockId) :=
  f.blocks.pairs.flatMap fun (id, b) => b.targets.map fun target => (id, target)

/-- The edges of every block.  All targets have to exist. -/
def edges (f : Function) : Except Error (Table .machineBlock Edges) :=
  if f.edgeList.all fun (_, target) => target.val < f.blocks.size then
    .ok (f.edgeList.foldl link (f.blocks.map fun _ => {}))
  else
    .error .outOfRange

end Function

/-- What a global variable starts out as. -/
inductive DataValue
  | word (value : Word)
  | byte (value : BitVec 8)
  /-- The address of a label -/
  | address (label : String)
deriving DecidableEq, Repr

/-- A global variable. -/
structure DataItem where
  label : String
  value : DataValue
deriving DecidableEq, Repr

/-- A unit of machine code. -/
structure Module where
  /-- Label and contents of every string constant -/
  strings : List (String × String) := []
  globals : List DataItem := []
  functions : List Function := []

/-- The function of a name. -/
def Module.function? (m : Module) (name : String) : Option Function :=
  m.functions.find? fun f => f.name == name

end MxStar.Machine
