import MxStar.Flow.Body.Scope
import MxStar.Flow.Edit

/-!
# Building function bodies

A body is built by walking it once with a current block that instructions are
appended to.  A statement that branches splits the current block: the block
that goes on after the statement inherits the terminator the current one has
so far, and the current one is ended by a branch into the statement.

A `Build` step changes the `Builder`, may stop with an error, and keeps the
events noted so far in either case.
-/

namespace MxStar.Flow

/-- A body under construction, and what all bodies of a unit share. -/
structure Builder where
  function : Function
  current : BlockId := ⟨0⟩
  scopes : ScopeStack := {}
  /-- The string constants of the unit -/
  strings : StringPool
  /-- Labels are numbered through the whole unit -/
  nextLabel : Nat
  log : Log

/-- A step of building a body. -/
abbrev Build := EStateM Error Builder

namespace Build

/-- Run a step that only notes events. -/
def logged {α : Type} (step : Logged α) : Build α := fun s =>
  match step s.log with
  | .ok a log => .ok a { s with log }
  | .error e log => .error e { s with log }

/-- Change the function under construction. -/
def modifyFunction (change : Function → Function) : Build Unit :=
  modify fun s => { s with function := change s.function }

/-- Change the scopes. -/
def modifyScopes (change : ScopeStack → ScopeStack) : Build Unit :=
  modify fun s => { s with scopes := change s.scopes }

/-- Run a step inside a fresh scope. -/
def inScope (step : Build Unit) : Build Unit := do
  modifyScopes ScopeStack.push
  step
  modifyScopes ScopeStack.pop

/-- A label that no other block of the unit has. -/
def freshLabel (tag : String) : Build String :=
  modifyGet fun s => (s!"{tag}{s.nextLabel}", { s with nextLabel := s.nextLabel + 1 })

/-- Add a block that is not laid out yet. -/
def createBlock (tag : String) (terminator : Option Terminator) : Build BlockId := do
  let label ← freshLabel tag
  modifyGet fun s =>
    let id := s.function.blocks.next
    (id, { s with function :=
      { s.function with blocks := s.function.blocks.push { label, terminator } } })

/-- The terminator that a block split off the current one starts with. -/
def inheritedTerminator : Build (Option Terminator) := do
  let s ← get
  return (s.function.blocks.get? s.current).bind Block.terminator

/-- Lay out a block and make it the current one. -/
def switchTo (b : BlockId) : Build Unit :=
  modify fun s =>
    { s with function := { s.function with layout := s.function.layout ++ [b] }, current := b }

/-- Edit the function at the current block. -/
def editCurrent (edit : Function → BlockId → Logged (Function × Bool)) : Build Unit := do
  let s ← get
  let (f, _) ← logged (edit s.function s.current)
  modifyFunction fun _ => f

/-- End the current block, unless it is finished. -/
def terminate (t : Terminator) : Build Unit :=
  editCurrent fun f b => f.terminate b t

/-- End the current block with a jump. -/
def jump (destination : BlockId) : Build Unit :=
  terminate (.jump destination)

/-- Append an instruction to the current block, unless it is finished. -/
def emit (i : Instr) : Build Unit :=
  editCurrent fun f b => f.push b i

/-- A new register. -/
def createRegister (ty : Ty) (name : Option String) : Build RegisterId :=
  modifyGet fun s =>
    let id := s.function.registers.next
    (id, { s with function :=
      { s.function with registers := s.function.registers.push { ty, name } } })

/-- A new stack cell; the result is the register that holds its address. -/
def createCell (ty : Ty) (name : Option String) : Build RegisterId := do
  let register ← createRegister ty.pointerTo name
  modifyFunction fun f => { f with cells := f.cells.push { register, ty } }
  return register

/-- The type of an operand. -/
def operandType (o : Operand) : Build Ty := do
  ofExcept ((← get).function.operandType o)

/-- Compute something into a new register. -/
def define (ty : Ty) (instr : RegisterId → Instr) : Build Operand := do
  let destination ← createRegister ty none
  emit (instr destination)
  return .register destination

/-- Read a value of the given type. -/
def load (address : Operand) (ty : Ty) : Build Operand :=
  define ty fun d => .load d address

/-- Write a value. -/
def store (value address : Operand) : Build Unit :=
  emit (.store value address)

/-- Arithmetic; the result has the type of the left operand. -/
def arith (op : ArithOp) (lhs rhs : Operand) : Build Operand := do
  let ty ← operandType lhs
  define ty fun d => .arith op d lhs rhs

/-- A comparison, in condition form. -/
def compare (condition : Condition) (lhs rhs : Operand) : Build Operand :=
  define .cond fun d => .compare condition d lhs rhs

/-- The same bits under another type. -/
def bitCast (value : Operand) (ty : Ty) : Build Operand :=
  define ty fun d => .bitCast d value

/-- The address of an array element. -/
def elementAddress (base : Operand) (element : Ty) (index : Operand) : Build Operand :=
  define element.pointerTo fun d => .elementAddress d base element index

/-- Call a function that gives back a value. -/
def callValue (function : String) (arguments : List Operand) (ty : Ty) : Build Operand :=
  define ty fun d => .call (some d) function arguments

/-- Call a function that gives back nothing. -/
def callVoid (function : String) (arguments : List Operand) : Build Unit :=
  emit (.call none function arguments)

/-- The constant number `value`. -/
def int (value : Int) : Operand :=
  .constant (.int (BitVec.ofInt 32 value))

/-- A truth value in condition form. -/
def asCondition (value : Operand) : Build Operand := do
  match value with
  | .constant (.bool b) => return .constant (.cond b)
  | _ =>
    if (← operandType value) = .bool then
      define .cond fun d => .truncate d value
    else
      return value

/-- A truth value in storage form.  Whatever is written to memory, passed to a
function or given back goes through here. -/
def asStorage (value : Operand) : Build Operand := do
  match value with
  | .constant (.cond b) => return .constant (.bool b)
  | _ =>
    if (← operandType value) = .cond then
      define .bool fun d => .zeroExtend d value
    else
      return value

end Build

end MxStar.Flow
