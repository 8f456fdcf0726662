import MxStar.Flow.Listing
import MxStar.Machine.Function
import MxStar.Text.Control

/-!
# Selecting machine code

Every instruction of a flow graph becomes a few machine instructions over
virtual registers.  Three ingredients keep the pieces apart:

1.  A `Naming` hands out virtual registers and remembers which one holds the
    value of which register of the graph.
2.  A stack cell is an object of the frame, so a load or store through a cell
    names the object and never builds its address.
3.  Each function below returns the code it selects; blocks are put together
    from these lists at the end.
-/

namespace MxStar.Machine

open MxStar.Flow (Operand RegisterId Ty Terminator)

/-- Choices a caller of the back end has. -/
structure Options where
  /-- Show each instruction of the graph above the code selected for it -/
  comments : Bool := false
  /-- The style of listings; where one is quoted, its controls are left out -/
  style : Text.Style := .plain
  /-- Allocate among the first so many registers only -/
  budget : Option Nat := none
  /-- Give up on a function after so many rounds -/
  rounds : Nat := 32
deriving DecidableEq, Repr

/-- The label of a pooled string. -/
def stringLabel (id : Flow.StringId) : String :=
  s!".str.{id.val}"

/-- The virtual registers handed out so far, and what calls need. -/
structure Naming where
  values : Std.ExtTreeMap RegisterId VirtualId := ∅
  virtuals : Nat := 0
  outgoing : Nat := 0
  makesCalls : Bool := false

/-- A step of selecting code. -/
abbrev Select := StateT Naming (Except Error)

/-- A new virtual register. -/
def fresh : Select Register :=
  modifyGet fun s => (.virtual ⟨s.virtuals⟩, { s with virtuals := s.virtuals + 1 })

/-- The virtual register that holds the value of a register of the graph. -/
def valueRegister (r : RegisterId) : Select Register := do
  match (← get).values[r]? with
  | some v => return .virtual v
  | none =>
    modifyGet fun s =>
      (.virtual ⟨s.virtuals⟩,
        { s with virtuals := s.virtuals + 1, values := s.values.insert r ⟨s.virtuals⟩ })

/-- The function that is selected, the unit it belongs to and the caller's
choices. -/
structure Selector where
  program : Flow.Program
  source : Flow.Function
  options : Options := {}

/-- A number added to a register: as an immediate if it fits, else from a register. -/
def addOffset (rd base : Register) (offset : Word) : Select (List Instr) := do
  if fitsImmediate offset.toInt then
    return [.aluImm .addi rd base offset]
  else
    let amount ← fresh
    return [.li amount offset, .alu .add rd base amount]

/-- The instruction with an immediate that computes `lhs op constant`, if there is one. -/
def immediate? (op : Flow.ArithOp) (rhs : Operand) : Option (AluImmOp × Word) :=
  let candidate : Option (AluImmOp × Word) :=
    match op, rhs with
    | .add, .constant c => some (.addi, c.bits)
    | .sub, .constant c => if c.bits = BitVec.intMin 32 then none else some (.addi, -c.bits)
    | .and, .constant c => some (.andi, c.bits)
    | .or, .constant c => some (.ori, c.bits)
    | .xor, .constant c => some (.xori, c.bits)
    | .shl, .constant c => some (.slli, c.bits &&& 31)
    | .ashr, .constant c => some (.srai, c.bits &&& 31)
    | _, _ => none
  candidate.filter fun (_, value) => fitsImmediate value.toInt

/-- The instruction that carries out an operator on two registers. -/
def aluOp : Flow.ArithOp → AluOp
  | .add => .add
  | .sub => .sub
  | .mul => .mul
  | .sdiv => .div
  | .srem => .rem
  | .shl => .sll
  | .ashr => .sra
  | .and => .and
  | .or => .or
  | .xor => .xor

/-- Whether the difference of two registers is zero, or is not zero.  Against
the zero register the difference is the register itself. -/
def selectEquality (isEqual : Bool) (rd a b : Register) : Select (List Instr) := do
  let (difference, code) ←
    if b = .zero then
      pure (a, [])
    else do
      let difference ← fresh
      pure (difference, [Instr.alu .xor difference a b])
  let test : Instr :=
    if isEqual then .aluImm .sltiu rd difference 1 else .alu .sltu rd .zero difference
  return code ++ [test]

/-- The code of a comparison of two registers. -/
def selectCondition (condition : Flow.Condition) (rd a b : Register) : Select (List Instr) := do
  match condition with
  | .slt => return [.alu .slt rd a b]
  | .sgt => return [.alu .slt rd b a]
  | .sle =>
    let less ← fresh
    return [.alu .slt less b a, .aluImm .xori rd less 1]
  | .sge =>
    let less ← fresh
    return [.alu .slt less a b, .aluImm .xori rd less 1]
  | .eq => selectEquality true rd a b
  | .ne => selectEquality false rd a b

/-- A register times the size of an element. -/
def scale (index : Register) (size : Nat) : Select (Register × List Instr) := do
  if size = 1 then
    return (index, [])
  else if 1 <<< size.log2 = size then
    let scaled ← fresh
    return (scaled, [.aluImm .slli scaled index (BitVec.ofNat 32 size.log2)])
  else
    let factor ← fresh
    let scaled ← fresh
    return (scaled, [.li factor (BitVec.ofNat 32 size), .alu .mul scaled index factor])

namespace Selector

/-- The object of the frame that a register holds the address of. -/
def slot? (sel : Selector) (r : RegisterId) : Option SlotId :=
  (sel.source.cells.toList.zipIdx.reverse.find? fun (c, _) => c.register == r).map
    fun (_, i) => ⟨i⟩

/-- The machine block of a block of the graph: its last place in the layout. -/
def position (sel : Selector) (id : Flow.BlockId) : Except Error BlockId :=
  match sel.source.layout.zipIdx.reverse.find? fun (b, _) => b == id with
  | some (_, i) => .ok ⟨i⟩
  | none => do
    let b ← sel.source.blocks.find id
    throw (.inconsistentEdges sel.source.name b.label)

/-- The register that holds an operand, and the code that puts it there. -/
def operand (sel : Selector) : Operand → Select (Register × List Instr)
  | .register r => do
    match sel.slot? r with
    | some slot =>
      let rd ← fresh
      return (rd, [.slotAddress rd slot])
    | none => return (← valueRegister r, [])
  | .constant c => do
    if c.bits = 0 then
      return (.zero, [])
    else
      let rd ← fresh
      return (rd, [.li rd c.bits])
  | .global name => do
    let rd ← fresh
    return (rd, [.la rd name])
  | .string id => do
    let rd ← fresh
    return (rd, [.la rd (stringLabel id)])

/-- Base and offset of the memory an operand points to. -/
def address (sel : Selector) (o : Operand) : Select (Register × Offset × List Instr) := do
  match o with
  | .register r =>
    match sel.slot? r with
    | some slot => return (.sp, .slot slot, [])
    | none => return (← valueRegister r, .immediate 0, [])
  | _ =>
    let (base, code) ← sel.operand o
    return (base, .immediate 0, code)

/-- The type of what an address points to, as far as it is known. -/
def pointeeType? (sel : Selector) : Operand → Except Error (Option Ty)
  | .register r => do
    let ty ← sel.source.registerType r
    if ty.isHollow then throw .overflow else return ty.pointee?
  | .global name =>
    .ok ((sel.program.globals.find? fun g => g.name == name).map Flow.Global.ty)
  | _ => .ok none

/-- The type of what a store writes. -/
def storedType (sel : Selector) (value address : Operand) : Except Error Ty := do
  match ← sel.pointeeType? address with
  | some ty => return ty
  | none => sel.source.operandType value

/-- The code of arithmetic. -/
def selectArith (sel : Selector) (op : Flow.ArithOp) (destination : RegisterId)
    (lhs rhs : Operand) : Select (List Instr) := do
  let (rs1, code) ← sel.operand lhs
  match immediate? op rhs with
  | some (immOp, value) =>
    let rd ← valueRegister destination
    return code ++ [.aluImm immOp rd rs1 value]
  | none =>
    let (rs2, more) ← sel.operand rhs
    let rd ← valueRegister destination
    return code ++ more ++ [.alu (aluOp op) rd rs1 rs2]

/-- The code of a comparison. -/
def selectCompare (sel : Selector) (condition : Flow.Condition) (destination : RegisterId)
    (lhs rhs : Operand) : Select (List Instr) := do
  let (a, code) ← sel.operand lhs
  let (b, more) ← sel.operand rhs
  let rd ← valueRegister destination
  return code ++ more ++ (← selectCondition condition rd a b)

/-- The code of the address of an array element. -/
def selectElement (sel : Selector) (destination : RegisterId) (base : Operand) (element : Ty)
    (index : Operand) : Select (List Instr) := do
  let (base, code) ← sel.operand base
  match index with
  | .constant c =>
    let rd ← valueRegister destination
    return code ++ (← addOffset rd base (c.bits * BitVec.ofNat 32 element.size))
  | _ =>
    let (index, more) ← sel.operand index
    let (scaled, scaling) ← scale index element.size
    let rd ← valueRegister destination
    return code ++ more ++ scaling ++ [.alu .add rd base scaled]

/-- The code of the address of a member. -/
def selectMember (sel : Selector) (destination : RegisterId) (base : Operand) (struct : String)
    (field : Nat) : Select (List Instr) := do
  let some layout := sel.program.struct? struct | throw (.unknownStruct struct)
  let some member := layout.members[field]? | throw (.unknownMember struct s!"#{field}")
  let (base, code) ← sel.operand base
  let rd ← valueRegister destination
  return code ++ (← addOffset rd base (BitVec.ofNat 32 member.offset))

/-- The registers that hold operands, and the code that puts them there. -/
def operands (sel : Selector) : List Operand → Select (List Register × List Instr)
  | [] => return ([], [])
  | o :: rest => do
    let (r, code) ← sel.operand o
    let (rs, more) ← sel.operands rest
    return (r :: rs, code ++ more)

/-- The code of a call.  All arguments are built before the first argument
register is written; those that find no register are passed on the stack. -/
def selectCall (sel : Selector) (destination : Option RegisterId) (symbol : String)
    (arguments : List Operand) : Select (List Instr) := do
  let (values, code) ← sel.operands arguments
  let onStack := values.drop Physical.arguments.length
  let stores : List Instr := onStack.zipIdx.map fun (r, i) => .store .word r .sp (.outgoing i)
  let moves : List Instr :=
    List.zipWith (fun a r => .mv (.physical a) r) Physical.arguments values
  modify fun s => { s with outgoing := max s.outgoing onStack.length, makesCalls := true }
  let call : Instr := .call symbol (min values.length Physical.arguments.length)
  match destination with
  | some d =>
    let rd ← valueRegister d
    return code ++ stores ++ moves ++ [call, .mv rd (.physical Physical.result)]
  | none => return code ++ stores ++ moves ++ [call]

/-- The code of an instruction. -/
def selectInstr (sel : Selector) : Flow.Instr → Select (List Instr)
  | .alloca _ _ => return []
  | .load destination address => do
    let ty ← sel.source.registerType destination
    let (base, offset, code) ← sel.address address
    let rd ← valueRegister destination
    return code ++ [.load (.ofSize ty.size) rd base offset]
  | .store value address => do
    let ty ← sel.storedType value address
    let (rs, code) ← sel.operand value
    let (base, offset, more) ← sel.address address
    return code ++ more ++ [.store (.ofSize ty.size) rs base offset]
  | .arith op destination lhs rhs => sel.selectArith op destination lhs rhs
  | .compare condition destination lhs rhs => sel.selectCompare condition destination lhs rhs
  | .zeroExtend destination value | .bitCast destination value => do
    let (rs, code) ← sel.operand value
    let rd ← valueRegister destination
    return code ++ [.mv rd rs]
  | .truncate destination value => do
    let (rs, code) ← sel.operand value
    let rd ← valueRegister destination
    return code ++ [.aluImm .andi rd rs 1]
  | .elementAddress destination base element index =>
    sel.selectElement destination base element index
  | .memberAddress destination base struct field => sel.selectMember destination base struct field
  | .call destination function arguments => sel.selectCall destination function arguments

/-- The code of a terminator.  A branch whose targets coincide is a jump. -/
def selectTerminator (sel : Selector) : Terminator → Select (List Instr)
  | .jump destination => do return [.jump (← sel.position destination)]
  | .branch condition positive negative => do
    let positive ← sel.position positive
    let negative ← sel.position negative
    if positive = negative then
      return [.jump positive]
    else
      let (condition, code) ← sel.operand condition
      return code ++ [.branch condition positive negative]
  | .ret (some value) => do
    let (rs, code) ← sel.operand value
    return code ++ [.mv (.physical Physical.result) rs, .ret true]
  | .ret none => return [.ret false]

/-- A listing as a comment, if comments are wanted. -/
def comment (sel : Selector) (listing : Except Error String) : Except Error (List Instr) := do
  if sel.options.comments then
    return [.comment (Text.withoutControls (← listing))]
  else
    return []

/-- The code of the instructions of a block. -/
def selectInstrs (sel : Selector) : List Flow.Instr → Select (List Instr)
  | [] => return []
  | i :: rest => do
    let comment ← sel.comment (sel.source.instrListing sel.options.style i)
    let code ← sel.selectInstr i
    return comment ++ code ++ (← sel.selectInstrs rest)

/-- The code of a block and its place. -/
def selectBlock (sel : Selector) (id : Flow.BlockId) (b : Flow.Block) :
    Select (BlockId × List Instr) := do
  let place ← sel.position id
  let code ← sel.selectInstrs b.instrs.toList
  let some t := b.terminator | throw (.missingTerminator sel.source.name b.label)
  let comment ← sel.comment (sel.source.terminatorListing sel.options.style t)
  return (place, code ++ comment ++ (← sel.selectTerminator t))

/-- Parameters arrive in the argument registers, and those that find no
register in the caller's frame. -/
def selectParameter (r : RegisterId) (n : Nat) : Select Instr := do
  let rd ← valueRegister r
  match Physical.arguments[n]? with
  | some a => return .mv rd (.physical a)
  | none => return .load .word rd .sp (.incoming (n - Physical.arguments.length))

/-- The code of all blocks: that which receives the parameters stands first in
the entry. -/
def selectBlocks (sel : Selector) (entry : BlockId) (blocks : List (Flow.BlockId × Flow.Block)) :
    Select (List (BlockId × List Instr)) := do
  let parameters ← sel.source.parameters.zipIdx.mapM fun (r, n) => selectParameter r n
  let pieces ← blocks.mapM fun (id, b) => sel.selectBlock id b
  return (entry, parameters) :: pieces

end Selector

/-- All pieces of code that belong to a place, in order. -/
def piecesAt (pieces : List (BlockId × List Instr)) (place : BlockId) : List Instr :=
  (pieces.filter fun (b, _) => b == place).flatMap Prod.snd

/-- The frame with one object for each stack cell. -/
def frameOf (cells : List Flow.Cell) : Frame :=
  cells.foldl (fun frame c => (frame.allocate c.ty.size c.ty.alignment).2) {}

/-- Select the code of a function. -/
def Function.ofFlow (program : Flow.Program) (source : Flow.Function) (options : Options) :
    Except Error Function := do
  let sel : Selector := { program, source, options }
  let blocks ← source.orderedBlocks
  let entry ← sel.position source.entry
  let exit ← sel.position source.exit
  let (pieces, naming) ← (sel.selectBlocks entry blocks).run {}
  let machineBlocks := blocks.zipIdx.map fun ((_, b), i) =>
    { id := ⟨i⟩, label := b.label, code := piecesAt pieces ⟨i⟩ : Block }
  return {
    name := source.name
    blocks := ⟨machineBlocks.toArray⟩
    entry
    exit
    frame := { frameOf source.cells.toList with outgoing := naming.outgoing }
    virtuals := naming.virtuals
    makesCalls := naming.makesCalls }

/-- What a global variable starts out as. -/
def DataItem.ofFlow (g : Flow.Global) : Except Error DataItem :=
  match g.initial with
  | .string id => .ok { label := g.name, value := .address (stringLabel id) }
  | .constant c =>
    if g.ty = .bool then
      .ok { label := g.name, value := .byte (c.bits.setWidth 8) }
    else
      .ok { label := g.name, value := .word c.bits }
  | initial => .error (.malformedExpression (.initialNotConstant g.name initial))

end MxStar.Machine
