import MxStar.Error
import MxStar.Flow.Struct
import MxStar.Pool

/-!
# Functions as flow graphs

A function is a table of blocks together with the order in which they are
emitted, its layout.  A block that the layout does not list is dead.

Each block also records the blocks control can come from and go to.  These
edge sets repeat what the terminators say; `rebuildEdges` derives them afresh
for the blocks in the layout.

A block under construction starts with a provisional terminator or with none.
It is finished once control has definitely left it, and from then on
`push?` and `terminate?` refuse what is dead code.
-/

namespace MxStar.Flow

/-- A block of instructions.  Its number is its position in the table of the function, which is
the only place a block is kept. -/
structure Block where
  label : String
  instrs : Array Instr := #[]
  terminator : Option Terminator := none
  predecessors : IndexSet .block := ∅
  successors : IndexSet .block := ∅
  /-- Set once control has definitely left the block -/
  finished : Bool := false

namespace Block

/-- Append an instruction, unless the block is finished. -/
def push? (b : Block) (i : Instr) : Option Block :=
  if b.finished then none else some { b with instrs := b.instrs.push i }

/-- Set the terminator and finish the block, unless it is finished already. -/
def terminate? (b : Block) (t : Terminator) : Option Block :=
  if b.finished then none else some { b with terminator := some t, finished := true }

/-- The blocks the terminator can go to. -/
def targets (b : Block) : List BlockId :=
  match b.terminator with
  | some t => t.successors
  | none => []

/-- The block without its edges. -/
def clearEdges (b : Block) : Block :=
  { b with predecessors := ∅, successors := ∅ }

end Block

/-- The type of a register and the name of the variable it stands for. -/
structure RegisterInfo where
  ty : Ty
  name : Option String := none
deriving DecidableEq, Repr

/-- A stack cell: the register that holds its address and the type of its content. -/
structure Cell where
  register : RegisterId
  ty : Ty
deriving DecidableEq, Repr

/-- The instruction that reserves the cell. -/
def Cell.instr (c : Cell) : Instr :=
  .alloca c.register c.ty

/-- A function. -/
structure Function where
  name : String
  returnType : Ty
  parameters : List RegisterId := []
  registers : Table .register RegisterInfo := ∅
  /-- All stack cells, which exist from entry to exit -/
  cells : Array Cell := #[]
  blocks : Table .block Block := ∅
  /-- The blocks in the order of emission -/
  layout : List BlockId := []
  entry : BlockId := ⟨0⟩
  exit : BlockId := ⟨0⟩

namespace Function

/-- The type of a register. -/
def registerType (f : Function) (r : RegisterId) : Except Error Ty := do
  return (← f.registers.find r).ty

/-- The type of an operand.  What a global holds is not known here, only that
its name stands for an address. -/
def operandType (f : Function) : Operand → Except Error Ty
  | .register r => f.registerType r
  | .constant c => .ok c.ty
  | .string _ => .ok .string
  | .global _ => .ok .anyPointer

/-- Whether a register holds the address of a stack cell. -/
def isCell (f : Function) (r : RegisterId) : Bool :=
  f.cells.any fun c => c.register == r

/-- The blocks of the layout, which have to exist. -/
def orderedBlocks (f : Function) : Except Error (List (BlockId × Block)) :=
  f.layout.mapM fun id => do return (id, ← f.blocks.find id)

/-- Where the terminator of a block can go. -/
def targets (f : Function) (id : BlockId) : List BlockId :=
  ((f.blocks.get? id).map Block.targets).getD []

/-- Source and target of every edge that leaves a block of the layout.  Both
have to exist. -/
def edges (f : Function) : Except Error (List (BlockId × BlockId)) := do
  let blocks ← f.orderedBlocks
  let edges := blocks.flatMap fun (id, b) => b.targets.map fun target => (id, target)
  if edges.all fun (_, target) => target.val < f.blocks.size then
    return edges
  else
    throw .outOfRange

/-- Record an edge at both of its ends. -/
def link (blocks : Table .block Block) (edge : BlockId × BlockId) : Table .block Block :=
  (blocks.modify edge.1 fun b => { b with successors := b.successors.insert edge.2 }).modify
    edge.2 fun b => { b with predecessors := b.predecessors.insert edge.1 }

/-- Derive the edge sets of all blocks from the terminators in the layout. -/
def rebuildEdges (f : Function) : Except Error Function := do
  let edges ← f.edges
  return { f with blocks := edges.foldl link (f.blocks.map Block.clearEdges) }

end Function

/-- A global variable and its initial value: a constant or the address of a string. -/
structure Global where
  name : String
  ty : Ty
  initial : Operand
deriving DecidableEq, Repr

/-- A compilation unit. -/
structure Program where
  structs : List Struct := []
  strings : StringPool := {}
  globals : List Global := []
  /-- Computes the globals that do not start out as a constant, if there are any -/
  initializer : Option Function := none
  functions : List Function := []

namespace Program

/-- The layout of a class. -/
def struct? (p : Program) (name : String) : Option Struct :=
  p.structs.find? fun s => s.name == name

/-- The initializer, if there is one, and then the functions. -/
def allFunctions (p : Program) : List Function :=
  p.initializer.toList ++ p.functions

/-- Replace the function at a position of `allFunctions`. -/
def setFunction (p : Program) (n : Nat) (f : Function) : Program :=
  match p.initializer, n with
  | some _, 0 => { p with initializer := some f }
  | some _, n + 1 => { p with functions := p.functions.set n f }
  | none, n => { p with functions := p.functions.set n f }

/-- The function of a name. -/
def function? (p : Program) (name : String) : Option Function :=
  p.allFunctions.find? fun f => f.name == name

end Program

end MxStar.Flow
