import MxStar.Machine.Frame

/-!
# Machine instructions

RV32IM instructions over physical and virtual registers.  An instruction
reports the registers it reads (`uses`) and writes (`defs`), calls and returns
included, but only those that liveness follows.  `operands` lists the registers
it names itself, and `mapRegisters` renames exactly those.
-/

namespace MxStar.Machine

/-- A block of machine code. -/
abbrev BlockId := Index .machineBlock

/-- How much memory a load or store moves. -/
inductive Width
  | byte
  | word
deriving DecidableEq, Repr

namespace Width

/-- Single bytes are moved as bytes, everything else as words. -/
def ofSize (size : Nat) : Width :=
  if size = 1 then .byte else .word

def loadMnemonic : Width → String
  | .byte => "lbu"
  | .word => "lw"

def storeMnemonic : Width → String
  | .byte => "sb"
  | .word => "sw"

end Width

/-- Arithmetic on two registers. -/
inductive AluOp
  | add
  | sub
  | mul
  | div
  | rem
  | sll
  | sra
  | and
  | or
  | xor
  | slt
  | sltu
deriving DecidableEq, Repr

namespace AluOp

def mnemonic : AluOp → String
  | .add => "add"
  | .sub => "sub"
  | .mul => "mul"
  | .div => "div"
  | .rem => "rem"
  | .sll => "sll"
  | .sra => "sra"
  | .and => "and"
  | .or => "or"
  | .xor => "xor"
  | .slt => "slt"
  | .sltu => "sltu"

/-- All operators. -/
def all : List AluOp :=
  [.add, .sub, .mul, .div, .rem, .sll, .sra, .and, .or, .xor, .slt, .sltu]

end AluOp

/-- Arithmetic on a register and a number. -/
inductive AluImmOp
  | addi
  | slli
  | srai
  | andi
  | ori
  | xori
  | slti
  | sltiu
deriving DecidableEq, Repr

namespace AluImmOp

def mnemonic : AluImmOp → String
  | .addi => "addi"
  | .slli => "slli"
  | .srai => "srai"
  | .andi => "andi"
  | .ori => "ori"
  | .xori => "xori"
  | .slti => "slti"
  | .sltiu => "sltiu"

/-- All operators. -/
def all : List AluImmOp :=
  [.addi, .slli, .srai, .andi, .ori, .xori, .slti, .sltiu]

end AluImmOp

/-- Machine instructions. -/
inductive Instr
  | li (rd : Register) (value : Word)
  | la (rd : Register) (symbol : String)
  | mv (rd rs : Register)
  | alu (op : AluOp) (rd rs1 rs2 : Register)
  | aluImm (op : AluImmOp) (rd rs1 : Register) (value : Word)
  /-- The address of an object of the frame -/
  | slotAddress (rd : Register) (slot : SlotId)
  | load (width : Width) (rd base : Register) (offset : Offset)
  | store (width : Width) (rs base : Register) (offset : Offset)
  /-- Reads the first argument registers and overwrites all that a call may -/
  | call (symbol : String) (arguments : Nat)
  | comment (text : String)
  | jump (target : BlockId)
  /-- Goes to one block if the register is not zero and to another if it is -/
  | branch (condition : Register) (positive negative : BlockId)
  /-- Restores the frame and returns, with a value in the result register if `value` is set -/
  | ret (value : Bool)
deriving DecidableEq, Repr

/-- Whether an instruction reads or writes a register it names. -/
inductive Access
  | use
  | define
deriving DecidableEq, Repr

namespace Instr

/-- Whether the instruction ends a block. -/
def isTerminator : Instr → Bool
  | .jump _ | .branch _ _ _ | .ret _ => true
  | _ => false

/-- The blocks control can go to from a terminator. -/
def targets : Instr → List BlockId
  | .jump target => [target]
  | .branch _ positive negative => [positive, negative]
  | _ => []

/-- The registers the instruction names: those it reads, then the one it writes. -/
def operands : Instr → List (Register × Access)
  | .li rd _ | .la rd _ | .slotAddress rd _ => [(rd, .define)]
  | .mv rd rs => [(rs, .use), (rd, .define)]
  | .alu _ rd rs1 rs2 => [(rs1, .use), (rs2, .use), (rd, .define)]
  | .aluImm _ rd rs1 _ => [(rs1, .use), (rd, .define)]
  | .load _ rd base _ => [(base, .use), (rd, .define)]
  | .store _ rs base _ => [(rs, .use), (base, .use)]
  | .branch condition _ _ => [(condition, .use)]
  | .call _ _ | .comment _ | .jump _ | .ret _ => []

/-- Rename the registers the instruction names. -/
def mapRegisters (f : Register → Register) : Instr → Instr
  | .li rd value => .li (f rd) value
  | .la rd symbol => .la (f rd) symbol
  | .slotAddress rd slot => .slotAddress (f rd) slot
  | .mv rd rs => .mv (f rd) (f rs)
  | .alu op rd rs1 rs2 => .alu op (f rd) (f rs1) (f rs2)
  | .aluImm op rd rs1 value => .aluImm op (f rd) (f rs1) value
  | .load width rd base offset => .load width (f rd) (f base) offset
  | .store width rs base offset => .store width (f rs) (f base) offset
  | .branch condition positive negative => .branch (f condition) positive negative
  | .call symbol arguments => .call symbol arguments
  | .comment text => .comment text
  | .jump target => .jump target
  | .ret value => .ret value

/-- All registers the instruction reads. -/
def reads : Instr → List Register
  | .call _ arguments => (Physical.arguments.take arguments).map .physical
  | .ret true => [.physical Physical.result]
  | i => (i.operands.filter fun (_, access) => access = .use).map Prod.fst

/-- All registers the instruction writes. -/
def writes : Instr → List Register
  | .call _ _ => Physical.callerSaved.map .physical
  | i => (i.operands.filter fun (_, access) => access = .define).map Prod.fst

/-- The registers the instruction reads, as far as liveness follows them. -/
def uses (i : Instr) : List Register :=
  (i.reads.filter Register.isTracked).eraseDups

/-- The registers the instruction writes, as far as liveness follows them. -/
def defs (i : Instr) : List Register :=
  i.writes.filter Register.isTracked

/-- The text of the instruction before the frame is laid out. -/
def display : Instr → String
  | .li rd value => s!"li {rd.display}, {value.display}"
  | .la rd symbol => s!"la {rd.display}, {symbol}"
  | .mv rd rs => s!"mv {rd.display}, {rs.display}"
  | .alu op rd rs1 rs2 => s!"{op.mnemonic} {rd.display}, {rs1.display}, {rs2.display}"
  | .aluImm op rd rs1 value =>
    s!"{op.mnemonic} {rd.display}, {rs1.display}, {value.display}"
  | .slotAddress rd slot => s!"addi {rd.display}, sp, {(Offset.slot slot).display}"
  | .load width rd base offset =>
    s!"{width.loadMnemonic} {rd.display}, {offset.display}({base.display})"
  | .store width rs base offset =>
    s!"{width.storeMnemonic} {rs.display}, {offset.display}({base.display})"
  | .call symbol _ => s!"call {symbol}"
  | .comment text => s!"# {text}"
  | .jump target => s!"j <block{target.val}>"
  | .branch condition positive negative =>
    s!"bnez {condition.display}, <block{positive.val}>; j <block{negative.val}>"
  | .ret _ => "ret"

end Instr

end MxStar.Machine
