import MxStar.Flow.Function
import MxStar.Text.Escape
import MxStar.Text.Style

/-!
# Listings of flow graphs

The text of a unit: struct types, string constants, globals and then the
functions, one item after the other.  Registers are shown with the name of the
variable they stand for and with the types the function records for them, so a
listing of an instruction needs the function it belongs to.

A listing fails only on a reference that does not exist or a type that cannot
be written.
-/

namespace MxStar.Flow

open Text (Style)

/-- The text of a type that can be written. -/
def Ty.listing (ty : Ty) : Except Error String :=
  if ty.isWritable then .ok ty.display else .error .overflow

/-- The text of a constant. -/
def Constant.listing (style : Style) (c : Constant) : String :=
  style.paint .magenta <|
    match c with
    | .int value => value.display
    | .bool value | .cond value => if value then "1" else "0"
    | .null => "null"

/-- The text of an operand by itself, without the name of a register. -/
def Operand.listing (style : Style) : Operand → String
  | .register r => style.paint .yellow s!"%{r.val}"
  | .constant c => c.listing style
  | .global name => style.paint .blue s!"@{name}"
  | .string id => style.paint .blue s!"@str.{id.val}"

namespace Function

/-- A register with the name of its variable, such as `%x.3`. -/
def registerListing (style : Style) (f : Function) (r : RegisterId) : Except Error String := do
  let info ← f.registers.find r
  return style.paint .yellow <|
    match info.name with
    | some name => s!"%{name}.{r.val}"
    | none => s!"%{r.val}"

/-- The type of a register. -/
def typeListing (f : Function) (r : RegisterId) : Except Error String := do
  (← f.registerType r).listing

/-- An operand, registers with their names. -/
def operandListing (style : Style) (f : Function) : Operand → Except Error String
  | .register r => f.registerListing style r
  | other => .ok (other.listing style)

/-- An operand after its type. -/
def typedListing (style : Style) (f : Function) (o : Operand) : Except Error String := do
  let ty ← (← f.operandType o).listing
  let operand ← f.operandListing style o
  return s!"{ty} {operand}"

/-- The left side of an instruction that writes a register. -/
def defineListing (style : Style) (f : Function) (r : RegisterId) : Except Error String := do
  let name ← f.registerListing style r
  return name ++ " " ++ style.paint .white "="

/-- A conversion: the operand and the type of the register it goes to. -/
def castListing (style : Style) (f : Function) (opcode : String) (destination : RegisterId)
    (value : Operand) : Except Error String := do
  let define ← f.defineListing style destination
  let value ← f.typedListing style value
  let ty ← f.typeListing destination
  let opcode := style.paint .cyan opcode
  return s!"{define} {opcode} {value} to {ty}"

/-- The text of an instruction. -/
def instrListing (style : Style) (f : Function) : Instr → Except Error String
  | .alloca destination ty => do
    let define ← f.defineListing style destination
    let ty ← ty.listing
    let opcode := style.paint .cyan "alloca"
    return s!"{define} {opcode} {ty}"
  | .load destination address => do
    let define ← f.defineListing style destination
    let ty ← f.typeListing destination
    let address ← f.typedListing style address
    let opcode := style.paint .cyan "load"
    return s!"{define} {opcode} {ty}, {address}"
  | .store value address => do
    let value ← f.typedListing style value
    let address ← f.typedListing style address
    let opcode := style.paint .cyan "store"
    return s!"{opcode} {value}, {address}"
  | .arith op destination lhs rhs => do
    let define ← f.defineListing style destination
    let lhs ← f.typedListing style lhs
    let rhs ← f.operandListing style rhs
    let opcode := style.paint .cyan op.display
    return s!"{define} {opcode} {lhs}, {rhs}"
  | .compare condition destination lhs rhs => do
    let define ← f.defineListing style destination
    let lhs ← f.typedListing style lhs
    let rhs ← f.operandListing style rhs
    let opcode := style.paint .cyan "icmp"
    return s!"{define} {opcode} {condition.display} {lhs}, {rhs}"
  | .zeroExtend destination value => f.castListing style "zext" destination value
  | .truncate destination value => f.castListing style "trunc" destination value
  | .bitCast destination value => f.castListing style "bitcast" destination value
  | .elementAddress destination base element index => do
    let define ← f.defineListing style destination
    let element ← element.listing
    let base ← f.typedListing style base
    let index ← f.typedListing style index
    let opcode := style.paint .cyan "getelementptr"
    return s!"{define} {opcode} {element}, {base}, {index}"
  | .memberAddress destination base struct field => do
    let define ← f.defineListing style destination
    let base ← f.typedListing style base
    let opcode := style.paint .cyan "getelementptr"
    let field := style.paint .magenta (toString field)
    return s!"{define} {opcode} %struct.{struct}, {base}, i32 0, i32 {field}"
  | .call destination callee arguments => do
    let (define, ty) ← match destination with
      | some r => do pure ((← f.defineListing style r) ++ " ", ← f.typeListing r)
      | none => pure ("", "void")
    let arguments ← arguments.mapM (f.typedListing style)
    let name := style.paint .blue s!"@{callee}"
    let list := ", ".intercalate arguments
    let opcode := style.paint .cyan "call"
    return s!"{define}{opcode} {ty} {name}({list})"

/-- The label of a block as a target. -/
def labelListing (style : Style) (f : Function) (id : BlockId) : Except Error String := do
  let b ← f.blocks.find id
  return style.paint .blue s!"%{b.label}"

/-- The text of a terminator. -/
def terminatorListing (style : Style) (f : Function) : Terminator → Except Error String
  | .jump destination => do
    let opcode := style.paint .cyan "br"
    let label ← f.labelListing style destination
    return s!"{opcode} label {label}"
  | .branch condition positive negative => do
    let condition ← f.typedListing style condition
    let positive ← f.labelListing style positive
    let negative ← f.labelListing style negative
    let opcode := style.paint .cyan "br"
    return s!"{opcode} {condition}, label {positive}, label {negative}"
  | .ret (some value) => do
    let opcode := style.paint .cyan "ret"
    let value ← f.typedListing style value
    return s!"{opcode} {value}"
  | .ret none => .ok (style.paint .cyan "ret" ++ " void")

/-- A parameter after its type. -/
def parameterListing (style : Style) (f : Function) (r : RegisterId) : Except Error String := do
  let ty ← f.typeListing r
  let name ← f.registerListing style r
  return s!"{ty} {name}"

/-- The lines of a block.  The entry shows the stack cells before its own instructions. -/
def blockListing (style : Style) (f : Function) (id : BlockId) (b : Block) :
    Except Error String := do
  let cells := if id = f.entry then f.cells.toList.map Cell.instr else []
  let instrs ← (cells ++ b.instrs.toList).mapM (f.instrListing style)
  let terminator ← b.terminator.toList.mapM (f.terminatorListing style)
  let label := style.paint .brightRed s!"{b.label}:"
  return String.join ((label ++ "\n") :: (instrs ++ terminator).map fun line => s!"    {line}\n")

/-- The text of a function. -/
def listing (style : Style) (f : Function) : Except Error String := do
  let ty ← f.returnType.listing
  let name := style.paint .blue s!"@{f.name}"
  let parameters ← f.parameters.mapM (f.parameterListing style)
  let blocks ← (← f.orderedBlocks).mapM fun (id, b) => f.blockListing style id b
  let list := ", ".intercalate parameters
  let opcode := style.paint .magenta "define"
  return s!"{opcode} {ty} {name}({list}) \x7b\n" ++
    String.join blocks ++ "\x7d"

end Function

/-- The type of the objects of a class. -/
def Struct.listing (style : Style) (s : Struct) : Except Error String := do
  let members ← s.members.mapM fun m => m.ty.listing
  let name := style.paint .blue s!"%struct.{s.name}"
  let list := ", ".intercalate members
  let opcode := style.paint .magenta "= type"
  return s!"{name} {opcode} \x7b {list} \x7d"

/-- A string constant.  Its length counts bytes and the closing zero. -/
def stringListing (style : Style) (id : StringId) (value : String) : String :=
  let name := style.paint .blue s!"@str.{id.val}"
  let opcode := style.paint .magenta "= private unnamed_addr constant"
  let length := value.utf8ByteSize + 1
  s!"{name} {opcode} [{length} x i8] c\"{Text.ascii value}\\00\""

/-- A global variable and its initial value. -/
def Global.listing (style : Style) (g : Global) : Except Error String := do
  let ty ← g.ty.listing
  let name := style.paint .blue s!"@{g.name}"
  let opcode := style.paint .magenta "= global"
  let initial := g.initial.listing style
  return s!"{name} {opcode} {ty} {initial}"

/-- The text of a unit. -/
def Program.listing (style : Style) (p : Program) : Except Error String := do
  let structs ← p.structs.mapM (Struct.listing style)
  let strings := p.strings.toList.map fun (id, value) => stringListing style id value
  let globals ← p.globals.mapM (Global.listing style)
  let functions ← p.allFunctions.mapM (Function.listing style)
  return "\n".intercalate (structs ++ strings ++ globals ++ functions)

end MxStar.Flow
