import MxStar.Flow.Body.Builder
import MxStar.Linkage
import MxStar.Source.Symbols

/-!
# What a body refers to

The declarations of the unit that a body can mention, and the resolution of
names against them.  A bare name is a local variable, or else a member of the
class around the body, or else a global.
-/

namespace MxStar.Flow

/-- The object a method or constructor runs on. -/
structure Receiver where
  className : String
  register : RegisterId
deriving DecidableEq, Repr

/-- What a body is built against. -/
structure Context where
  symbols : Source.Symbols
  structs : List Struct
  globals : List Global
  /-- The name of the function the body belongs to -/
  function : String
  receiver : Option Receiver := none
  /-- The cell for the result, unless the function gives nothing back -/
  returnCell : Option RegisterId := none

/-- What an expression stands for.  A place stays an address until its value is
needed, so that assignments and reads share the code that finds it. -/
inductive Lowered
  | value (operand : Operand)
  | place (address : Operand) (ty : Ty)
  | nothing
deriving DecidableEq, Repr

namespace Lowered

/-- The value of what expression `e` stands for, read from memory if it is a place. -/
def toValue (e : Source.Expr) : Lowered → Build Operand
  | .value operand => pure operand
  | .place address ty => Build.load address ty
  | .nothing => throw (.missingValue e.describe)

/-- The place expression `e` stands for. -/
def toPlace (e : Source.Expr) : Lowered → Build (Operand × Ty)
  | .place address ty => pure (address, ty)
  | _ => throw (.missingAddress e.describe)

/-- The value of what expression `e` stands for, ready for a branch. -/
def toCondition (e : Source.Expr) (lowered : Lowered) : Build Operand := do
  Build.asCondition (← lowered.toValue e)

/-- The value of what expression `e` stands for, ready for memory or a call. -/
def toStorage (e : Source.Expr) (lowered : Lowered) : Build Operand := do
  Build.asStorage (← lowered.toValue e)

end Lowered

namespace Context

/-- The layout of a class. -/
def struct (ctx : Context) (name : String) : Except Error Struct :=
  match ctx.structs.find? fun s => s.name == name with
  | some s => .ok s
  | none => .error (.unknownStruct name)

/-- The address of a member of an object, and the type of the member. -/
def memberAddress (ctx : Context) (base : Operand) (className member : String) :
    Build (Operand × Ty) := do
  let struct ← ofExcept (ctx.struct className)
  let some (field, declaration) := struct.member? member
    | throw (.unknownMember className member)
  let address ← Build.define declaration.ty.pointerTo fun d =>
    .memberAddress d base className field
  return (address, declaration.ty)

/-- The receiver, if its class has a member of that name. -/
def receiverWith? (ctx : Context) (member : String) : Except Error (Option Receiver) := do
  let some receiver := ctx.receiver | return none
  let struct ← ctx.struct receiver.className
  return if (struct.member? member).isSome then some receiver else none

/-- The address of the variable a bare name stands for, and its type. -/
def resolve (ctx : Context) (name : String) : Build (Operand × Ty) := do
  if let some (storage, ty) := (← get).scopes.resolve? name then
    return (storage.address, ty)
  if let some receiver ← ofExcept (ctx.receiverWith? name) then
    return ← ctx.memberAddress (.register receiver.register) receiver.className name
  if let some global := ctx.globals.find? fun g => g.name == name then
    return (.global name, global.ty)
  throw (.unresolvedSymbol name)

end Context

end MxStar.Flow
