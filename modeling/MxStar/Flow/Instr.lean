import MxStar.Flow.Type
import MxStar.Index

/-!
# Instructions of flow graphs

Variables live in stack cells and are reached by explicit loads and stores, so
a register is written by one instruction only.  A block ends in a terminator;
`Terminator.successors` lists where control can go from there.
-/

namespace MxStar.Flow

/-- A register of a function. -/
abbrev RegisterId := Index .register

/-- A block of a function. -/
abbrev BlockId := Index .block

/-- A pooled string constant. -/
abbrev StringId := Index .text

/-- Constants. -/
inductive Constant
  | int (value : Word)
  | bool (value : Bool)
  | cond (value : Bool)
  | null
deriving DecidableEq, Repr

namespace Constant

/-- The type of a constant. -/
def ty : Constant → Ty
  | .int _ => .int
  | .bool _ => .bool
  | .cond _ => .cond
  | .null => .anyPointer

/-- The constant as a machine word. -/
def bits : Constant → Word
  | .int value => value
  | .bool value | .cond value => if value then 1 else 0
  | .null => 0

end Constant

/-- What a variable holds before anything is assigned to it. -/
def Ty.zero : Ty → Constant
  | .int | .void => .int 0
  | .bool => .bool false
  | .cond => .cond false
  | .string | .object _ | .pointer _ _ => .null

/-- What an instruction reads. -/
inductive Operand
  | register (r : RegisterId)
  | constant (c : Constant)
  /-- The address of a global variable -/
  | global (name : String)
  /-- The address of a pooled string -/
  | string (id : StringId)
deriving DecidableEq, Repr

/-- Arithmetic on words. -/
inductive ArithOp
  | add
  | sub
  | mul
  | sdiv
  | srem
  | shl
  | ashr
  | and
  | or
  | xor
deriving DecidableEq, Repr

/-- All operators. -/
def ArithOp.all : List ArithOp :=
  [.add, .sub, .mul, .sdiv, .srem, .shl, .ashr, .and, .or, .xor]

/-- The operator as a listing shows it. -/
def ArithOp.display : ArithOp → String
  | .add => "add"
  | .sub => "sub"
  | .mul => "mul"
  | .sdiv => "sdiv"
  | .srem => "srem"
  | .shl => "shl"
  | .ashr => "ashr"
  | .and => "and"
  | .or => "or"
  | .xor => "xor"

/-- Comparisons of words. -/
inductive Condition
  | eq
  | ne
  | slt
  | sle
  | sgt
  | sge
deriving DecidableEq, Repr

/-- All comparisons. -/
def Condition.all : List Condition :=
  [.eq, .ne, .slt, .sle, .sgt, .sge]

/-- The comparison as a listing shows it. -/
def Condition.display : Condition → String
  | .eq => "eq"
  | .ne => "ne"
  | .slt => "slt"
  | .sle => "sle"
  | .sgt => "sgt"
  | .sge => "sge"

/-- Instructions.  The first field of those that compute something is the
register that receives it. -/
inductive Instr
  /-- Reserves a stack cell for one value; the register holds its address -/
  | alloca (destination : RegisterId) (ty : Ty)
  | load (destination : RegisterId) (address : Operand)
  | store (value address : Operand)
  | arith (op : ArithOp) (destination : RegisterId) (lhs rhs : Operand)
  | compare (condition : Condition) (destination : RegisterId) (lhs rhs : Operand)
  /-- Condition form to storage form -/
  | zeroExtend (destination : RegisterId) (value : Operand)
  /-- Storage form to condition form -/
  | truncate (destination : RegisterId) (value : Operand)
  | bitCast (destination : RegisterId) (value : Operand)
  /-- The address of an element of an array -/
  | elementAddress (destination : RegisterId) (base : Operand) (element : Ty) (index : Operand)
  /-- The address of a member of an object -/
  | memberAddress (destination : RegisterId) (base : Operand) (struct : String) (field : Nat)
  | call (destination : Option RegisterId) (function : String) (arguments : List Operand)
deriving DecidableEq, Repr

namespace Instr

/-- The register the instruction writes. -/
def destination? : Instr → Option RegisterId
  | .alloca d _ | .load d _ | .arith _ d _ _ | .compare _ d _ _ | .zeroExtend d _
  | .truncate d _ | .bitCast d _ | .elementAddress d _ _ _ | .memberAddress d _ _ _ => some d
  | .call d _ _ => d
  | .store _ _ => none

/-- What the instruction reads, in order. -/
def operands : Instr → List Operand
  | .alloca _ _ => []
  | .load _ address => [address]
  | .store value address => [value, address]
  | .arith _ _ lhs rhs | .compare _ _ lhs rhs => [lhs, rhs]
  | .zeroExtend _ value | .truncate _ value | .bitCast _ value => [value]
  | .elementAddress _ base _ index => [base, index]
  | .memberAddress _ base _ _ => [base]
  | .call _ _ arguments => arguments

end Instr

/-- How a block ends. -/
inductive Terminator
  | jump (destination : BlockId)
  | branch (condition : Operand) (positive negative : BlockId)
  | ret (value : Option Operand)
deriving DecidableEq, Repr

/-- The blocks control can go to.  A branch whose targets coincide has one successor. -/
def Terminator.successors : Terminator → List BlockId
  | .jump destination => [destination]
  | .branch _ positive negative =>
    if positive = negative then [positive] else [positive, negative]
  | .ret _ => []

/-- The operand as a message shows it; the text of a name's address is left open. -/
def Operand.display? : Operand → Option String
  | .register r => some s!"Register({r.display})"
  | .constant (.int value) => some s!"Constant(Int({value.display}))"
  | .constant (.bool value) => some s!"Constant(Bool({value}))"
  | .constant (.cond value) => some s!"Constant(Cond({value}))"
  | .constant .null => some "Constant(Null)"
  | .global _ => none
  | .string id => some s!"String({id.display})"

end MxStar.Flow
