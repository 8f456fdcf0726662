import MxStar.Proofs.Source.Eval

/-!
# Types of the whole language

A program is well-typed if every expression says the type that the variables, members,
signatures and operators in it give it.  All of this is computed.

A bare name is a variable of the nearest region that declares it, or else a member of
the class around, or else a global; `Typing` holds what each name stands for at a point.
`null` fits every place that holds an address.
-/

namespace MxStar.Source

namespace Ty

def string : Ty := { base := .string }

def null : Ty := { base := .null }

def object (className : String) : Ty := { base := .object className }

/-- Whether the values of the type are addresses. -/
def isReference (ty : Ty) : Bool :=
  ty.isArray ||
    match ty.base with
    | .string | .null | .object _ => true
    | .int | .bool | .void => false

/-- Whether a place of one type takes values of another. -/
def accepts (place value : Ty) : Bool :=
  value = place || (value = .null && place.isReference)

end Ty

/-- The type of a constant. -/
def Literal.ty : Literal → Ty
  | .integer _ => .int
  | .boolean _ => .bool
  | .text _ => .string
  | .null => .null

def BinaryOp.typeOf? (op : BinaryOp) (left right : Ty) : Option Ty :=
  match op.operatorClass with
  | .arithmetic =>
    if left = .int ∧ right = .int then some .int
    else if op = .add ∧ left = .string ∧ right = .string then some .string
    else none
  | .relational => if left = right ∧ (left = .int ∨ left = .string) then some .bool else none
  | .logical => if left = .bool ∧ right = .bool then some .bool else none
  | .equality => if left.accepts right || right.accepts left then some .bool else none

/-- The types of the functions that need no declaration. -/
def librarySignature? (name : String) : Option Signature :=
  if name = "print" ∨ name = "println" then
    some { returnType := .void, parameters := [.string] }
  else if name = "printInt" ∨ name = "printlnInt" then
    some { returnType := .void, parameters := [.int] }
  else if name = "getString" then
    some { returnType := .string, parameters := [] }
  else if name = "getInt" then
    some { returnType := .int, parameters := [] }
  else if name = "toString" then
    some { returnType := .string, parameters := [.int] }
  else
    none

def stringSignature? (method : String) : Option Signature :=
  if method = "length" ∨ method = "parseInt" then
    some { returnType := .int, parameters := [] }
  else if method = "substring" then
    some { returnType := .string, parameters := [.int, .int] }
  else if method = "ord" then
    some { returnType := .int, parameters := [.int] }
  else
    none

def Signature.takes (signature : Signature) (arguments : List Ty) : Bool :=
  signature.parameters.length = arguments.length &&
    (List.zipWith Ty.accepts signature.parameters arguments).all id

namespace Symbols

def memberType? (symbols : Symbols) (className field : String) : Option Ty :=
  (symbols.classList.find? fun info => info.name == className).bind fun info =>
    (info.members.find? fun m => m.1 == field).map Prod.snd

def callee? (symbols : Symbols) (name : String) : Option Signature :=
  (symbols.function? name).or (librarySignature? name)

def method? (symbols : Symbols) (ty : Ty) (method : String) : Option Signature :=
  if ty.isArray then
    if method = Linkage.arraySize then some { returnType := .int, parameters := [] } else none
  else if ty.isString then
    stringSignature? method
  else
    ty.className?.bind fun className =>
      (symbols.class? className).bind fun info => info.methods[method]?

end Symbols

section

variable (symbols : Symbols) (owner : Option String)

mutual

/-- Whether an expression in the class `owner` says its type. -/
def Expr.isWellTyped (known : Typing) : Expr → Bool
  | .literal ty value => ty = value.ty
  | .this ty => owner.any fun className => ty = .object className
  | .ident ty name => known name = some ty
  | .binary ty op lhs rhs =>
    lhs.isWellTyped known && rhs.isWellTyped known && op.typeOf? lhs.ty rhs.ty = some ty
  | .unary ty op operand =>
    operand.isWellTyped known && operand.ty = op.operandType && ty = op.operandType
  | .assign ty target value =>
    target.isWellTyped known && value.isWellTyped known && target.ty.accepts value.ty &&
      ty = target.ty
  | .choice ty condition positive negative =>
    condition.isWellTyped known && positive.isWellTyped known && negative.isWellTyped known &&
      condition.ty = .bool && ty.accepts positive.ty && ty.accepts negative.ty
  | .call ty function arguments =>
    Expr.areWellTyped known arguments && (symbols.callee? function).any fun signature =>
        signature.takes (arguments.map Expr.ty) && ty = signature.returnType
  | .callMethod ty object method arguments =>
    object.isWellTyped known && Expr.areWellTyped known arguments &&
      (symbols.method? object.ty method).any fun signature =>
        signature.takes (arguments.map Expr.ty) && ty = signature.returnType
  | .element ty array position =>
    array.isWellTyped known && position.isWellTyped known && position.ty = .int &&
      array.ty = { ty with dimensions := ty.dimensions + 1 }
  | .member ty object field =>
    object.isWellTyped known &&
      object.ty.className?.any fun className => symbols.memberType? className field = some ty
  | .new ty allocated counts =>
    Expr.areWellTyped known counts && (counts.all fun count => count.ty = .int) &&
      counts.length ≤ allocated.dimensions && ty = allocated

def Expr.areWellTyped (known : Typing) : List Expr → Bool
  | [] => true
  | e :: rest => e.isWellTyped known && Expr.areWellTyped known rest

end

def Expr.isTruth (known : Typing) (e : Expr) : Bool :=
  e.isWellTyped symbols owner known && e.ty = .bool

/-- Whether a place of the given type can start out as the value of an expression. -/
def Expr.suits (known : Typing) (ty : Ty) (e : Expr) : Bool :=
  e.isWellTyped symbols owner known && ty.accepts e.ty

def declaredTyping? (known : Typing) (ty : Ty) : List Declarator → Option Typing
  | [] => some known
  | d :: rest =>
    if d.initial.all fun e => e.suits symbols owner known ty then
      declaredTyping? (known.declare d.name ty) ty rest
    else
      none

def startedTyping? (known : Typing) : Option ForStart → Option Typing
  | some (.declare vars) => declaredTyping? symbols owner known vars.ty vars.declarators
  | some (.evaluate e) => if e.isWellTyped symbols owner known then some known else none
  | none => some known

variable (returnType : Ty)

mutual

def Stmt.typing? (known : Typing) : Stmt → Option Typing
  | .block body => if Stmt.areWellTyped known body then some known else none
  | .declare vars => declaredTyping? symbols owner known vars.ty vars.declarators
  | .ifElse condition positive negative =>
    if condition.isTruth symbols owner known && Stmt.areWellTyped known positive &&
        Stmt.areWellTyped known negative then
      some known
    else
      none
  | .whileLoop condition body =>
    if condition.isTruth symbols owner known && Stmt.areWellTyped known body then
      some known
    else
      none
  | .forLoop start condition step body =>
    match startedTyping? symbols owner known start with
    | some inner =>
      if (condition.all fun e => e.isTruth symbols owner inner) &&
          (step.all fun e => e.isWellTyped symbols owner inner) &&
          Stmt.areWellTyped inner body then
        some known
      else
        none
    | none => none
  | .giveBack (some e) => if e.suits symbols owner known returnType then some known else none
  | .evaluate e => if e.isWellTyped symbols owner known then some known else none
  | .breakLoop | .continueLoop | .giveBack none | .empty => some known

def Stmt.areWellTyped (known : Typing) : List Stmt → Bool
  | [] => true
  | s :: rest =>
    match s.typing? known with
    | some after => Stmt.areWellTyped after rest
    | none => false

end

end

/-! ## Types of variables -/

def VariableDef.types (vars : VariableDef) : List Ty :=
  vars.declarators.map fun _ => vars.ty

mutual

/-- The types of the variables that a statement declares, inside of it too. -/
def Stmt.variableTypes : Stmt → List Ty
  | .block body | .whileLoop _ body => Stmt.allVariableTypes body
  | .declare vars => vars.types
  | .ifElse _ positive negative => Stmt.allVariableTypes positive ++ Stmt.allVariableTypes negative
  | .forLoop (some (.declare vars)) _ _ body => vars.types ++ Stmt.allVariableTypes body
  | .forLoop _ _ _ body => Stmt.allVariableTypes body
  | .breakLoop | .continueLoop | .giveBack _ | .evaluate _ | .empty => []

def Stmt.allVariableTypes : List Stmt → List Ty
  | [] => []
  | s :: rest => s.variableTypes ++ Stmt.allVariableTypes rest

end

def FunctionDef.variableTypes (f : FunctionDef) : List Ty :=
  f.parameters.map Parameter.ty ++ Stmt.allVariableTypes f.body

/-- The types of the variables of a definition.  Members are no variables. -/
def Definition.variableTypes : Definition → List Ty
  | .function f => f.variableTypes
  | .object c => c.constructor.toList.flatMap Stmt.allVariableTypes ++
      c.methods.flatMap FunctionDef.variableTypes
  | .globals vars => vars.types

def Program.variableTypes (p : Program) : List Ty :=
  p.flatMap Definition.variableTypes

/-! ## Programs -/

/-- What the bare names of a body in the class `owner` mean when no region declares them. -/
def Symbols.outerTyping (symbols : Symbols) (owner : Option String) (globals : Typing) : Typing :=
  fun name => (owner.bind fun className => symbols.memberType? className name).or (globals name)

def FunctionDef.isWellTyped (symbols : Symbols) (owner : Option String) (known : Typing)
    (f : FunctionDef) : Bool :=
  Stmt.areWellTyped symbols owner f.returnType (f.typing known) f.body

def Definition.isWellTyped (symbols : Symbols) (globals : Typing) : Definition → Bool
  | .function f => f.isWellTyped symbols none (symbols.outerTyping none globals)
  | .object c =>
    let known := symbols.outerTyping (some c.name) globals
    (c.constructor.all fun body => Stmt.areWellTyped symbols (some c.name) .void known body) &&
      c.methods.all fun f => f.isWellTyped symbols (some c.name) known
  | .globals vars =>
    vars.declarators.all fun d => d.initial.all fun e =>
      e.suits symbols none (symbols.outerTyping none globals) vars.ty

def Program.isWellTyped (symbols : Symbols) (p : Program) : Bool :=
  p.all fun d => d.isWellTyped symbols p.globalTyping

end MxStar.Source
