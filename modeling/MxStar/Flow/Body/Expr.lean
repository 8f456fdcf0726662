import MxStar.Flow.Body.Heap

/-!
# Expressions in bodies

`Context.lowerExpr` walks an expression once.  Operands are evaluated from left
to right, except that an assignment evaluates its right side first.  The
constructs that branch are written as combinators over the steps that build
their parts: both paths of `shortCircuit` and `choose` leave their result in a
cell that the joining block reads back.
-/

namespace MxStar.Flow

open Build
open Source (Expr BinaryOp UnaryOp Literal)

/-- How a binary operator is carried out. -/
inductive Operation
  | arithmetic (op : ArithOp)
  | comparison (condition : Condition)
  | shortCircuit (isAnd : Bool)
deriving DecidableEq, Repr

/-- The operation behind an operator. -/
def Operation.ofSource : BinaryOp → Operation
  | .add => .arithmetic .add
  | .subtract => .arithmetic .sub
  | .multiply => .arithmetic .mul
  | .divide => .arithmetic .sdiv
  | .modulus => .arithmetic .srem
  | .bitAnd => .arithmetic .and
  | .bitOr => .arithmetic .or
  | .bitXor => .arithmetic .xor
  | .shiftLeft => .arithmetic .shl
  | .shiftRight => .arithmetic .ashr
  | .equals => .comparison .eq
  | .notEquals => .comparison .ne
  | .lessThan => .comparison .slt
  | .lessOrEqual => .comparison .sle
  | .greaterThan => .comparison .sgt
  | .greaterOrEqual => .comparison .sge
  | .logicalAnd => .shortCircuit true
  | .logicalOr => .shortCircuit false

/-- The operand a literal stands for.  Truth values are in condition form. -/
def lowerLiteral : Literal → Build Operand
  | .integer value => pure (.constant (.int value))
  | .boolean value => pure (.constant (.cond value))
  | .text value =>
    modifyGet fun s =>
      let (id, strings) := s.strings.intern value
      (.string id, { s with strings })
  | .null => pure (.constant .null)

/-- The truth of `left && right` or `left || right`.  The right side only runs
when the left one leaves the result open. -/
def shortCircuit (isAnd : Bool) (left right : Build Operand) : Build Operand := do
  let tag := if isAnd then "and" else "or"
  let result ← createCell .bool none
  let decided ← left
  let next ← createBlock (tag ++ "_end") (← inheritedTerminator)
  let rest ← createBlock (tag ++ "_rhs") (some (.jump next))
  let short ← createBlock (tag ++ "_short") (some (.jump next))
  terminate (if isAnd then .branch decided rest short else .branch decided short rest)
  switchTo short
  store (.constant (.bool !isAnd)) (.register result)
  jump next
  switchTo rest
  store (← right) (.register result)
  jump next
  switchTo next
  asCondition (← load (.register result) .bool)

/-- Run `arm` in its block and go on at `next`. -/
def chooseArm (block next : BlockId) (result : Option RegisterId) (arm : Build Lowered)
    (e : Expr) : Build Unit := do
  switchTo block
  let lowered ← arm
  if let some cell := result then
    store (← lowered.toStorage e) (.register cell)
  jump next

/-- One of two expressions, of which only the chosen one runs. -/
def choose (ty : Source.Ty) (condition : Build Operand) (positive negative : Expr)
    (positiveArm negativeArm : Build Lowered) : Build Lowered := do
  let result ← if ty.isVoid then pure none else some <$> createCell (.ofSource ty) none
  let chosen ← condition
  let next ← createBlock "cond_end" (← inheritedTerminator)
  let positiveBlock ← createBlock "cond_true" (some (.jump next))
  let negativeBlock ← createBlock "cond_false" (some (.jump next))
  terminate (.branch chosen positiveBlock negativeBlock)
  chooseArm positiveBlock next result positiveArm positive
  chooseArm negativeBlock next result negativeArm negative
  switchTo next
  match result with
  | some cell => .value <$> load (.register cell) (.ofSource ty)
  | none => return .nothing

/-- An operator applied to two strings. -/
def stringOperation (op : BinaryOp) (left right : Operand) : Build Operand :=
  if op = .add then
    joinStrings left right
  else
    match Linkage.stringComparison? op with
    | some function => callValue function [left, right] .cond
    | none => throw (.malformedExpression (.operatorOnStrings op))

/-- A comparison of two values.  Truth values are compared in storage form. -/
def compareValues (condition : Condition) (ty : Source.Ty) (left right : Operand) :
    Build Operand := do
  if (Ty.ofSource ty).isBoolean then
    let left ← asStorage left
    let right ← asStorage right
    compare condition left right
  else
    compare condition left right

/-- An operator applied to two values of the given types: strings have their
own operations, other values take the usual one. -/
def operate (op : BinaryOp) (leftType rightType : Source.Ty)
    (usual : Operand → Operand → Build Operand) (left right : Operand) : Build Operand :=
  if leftType.isString && rightType.isString then
    stringOperation op left right
  else
    usual left right

/-- Add one to a place or take one away; the result is the old value. -/
def stepPlace (op : ArithOp) (address : Operand) (ty : Ty) : Build Operand := do
  let old ← load address ty
  let new ← arith op old (int 1)
  store new address
  return old

/-- A prefix step stands for the place it changed, a postfix one for the old value. -/
def stepExpr (op : ArithOp) (asPlace : Bool) (e : Expr) (operand : Lowered) : Build Lowered := do
  let (address, ty) ← operand.toPlace e
  let old ← stepPlace op address ty
  return if asPlace then .place address ty else .value old

/-- An operator applied to expression `e`, which stands for `operand`. -/
def lowerUnary (op : UnaryOp) (e : Expr) (operand : Lowered) : Build Lowered := do
  match op with
  | .plus => .value <$> operand.toValue e
  | .negate => .value <$> (do arith .sub (int 0) (← operand.toValue e))
  | .bitNot => .value <$> (do arith .xor (← operand.toValue e) (int (-1)))
  | .logicalNot =>
    match ← operand.toCondition e with
    | .constant (.cond value) => return .value (.constant (.cond !value))
    | condition => .value <$> arith .xor condition (.constant (.cond true))
  | .preIncrement => stepExpr .add true e operand
  | .preDecrement => stepExpr .sub true e operand
  | .postIncrement => stepExpr .add false e operand
  | .postDecrement => stepExpr .sub false e operand

/-- What a method call comes down to. -/
inductive Callee
  /-- A function that takes the object as its first argument -/
  | function (symbol : String)
  | arrayLength
deriving DecidableEq, Repr

namespace Context

/-- The symbol of a function of the program or of the support library. -/
def functionSymbol (ctx : Context) (name : String) : Except Error String :=
  if (ctx.symbols.function? name).isSome then
    .ok name
  else
    match Linkage.builtin? name with
    | some symbol => .ok symbol
    | none => .error (.unresolvedCall name)

/-- What a method of a value of type `ty` is. -/
def methodCallee (ctx : Context) (ty : Source.Ty) (method : String) : Except Error Callee :=
  if ty.isArray then
    if method = Linkage.arraySize then .ok .arrayLength
    else .error (.unresolvedCall ("[]." ++ method))
  else if ty.isString then
    match Linkage.stringMethod? method with
    | some symbol => .ok (.function symbol)
    | none => .error (.unresolvedCall ("string." ++ method))
  else
    match ty.className? with
    | some className =>
      if ctx.symbols.hasMethod className method then
        .ok (.function (Linkage.methodSymbol className method))
      else
        .error (.unresolvedCall (className ++ "." ++ method))
    | none => .error (.malformedExpression (.methodOfNonClass method))

/-- Call a function whose result has type `ty`. -/
def callResult (symbol : String) (arguments : List Operand) (ty : Source.Ty) : Build Lowered := do
  let result := Ty.ofSource ty
  if result = .void then
    callVoid symbol arguments
    return .nothing
  else
    .value <$> callValue symbol arguments result

mutual

/-- Build the code of an expression. -/
def lowerExpr (ctx : Context) : Expr → Build Lowered
  | .literal _ value => .value <$> lowerLiteral value
  | .this _ =>
    match ctx.receiver with
    | some receiver => return .value (.register receiver.register)
    | none => throw (.thisOutsideMethod ctx.function)
  | .ident _ name => do
    let (address, ty) ← ctx.resolve name
    return .place address ty
  | .binary _ op lhs rhs =>
    match Operation.ofSource op with
    | .shortCircuit isAnd =>
      .value <$> shortCircuit isAnd
        (do (← ctx.lowerExpr lhs).toCondition lhs) (do (← ctx.lowerExpr rhs).toStorage rhs)
    | .arithmetic operation => do
      let left ← (← ctx.lowerExpr lhs).toValue lhs
      let right ← (← ctx.lowerExpr rhs).toValue rhs
      .value <$> operate op lhs.ty rhs.ty (arith operation) left right
    | .comparison condition => do
      let left ← (← ctx.lowerExpr lhs).toValue lhs
      let right ← (← ctx.lowerExpr rhs).toValue rhs
      .value <$> operate op lhs.ty rhs.ty (compareValues condition lhs.ty) left right
  | .unary _ op operand => do lowerUnary op operand (← ctx.lowerExpr operand)
  | .assign _ target value => do
    let assigned ← (← ctx.lowerExpr value).toValue value
    let (address, ty) ← (← ctx.lowerExpr target).toPlace target
    store (← asStorage assigned) address
    return .place address ty
  | .choice ty condition positive negative =>
    choose ty (do (← ctx.lowerExpr condition).toCondition condition) positive negative
      (ctx.lowerExpr positive) (ctx.lowerExpr negative)
  | .call ty function arguments => do
    let symbol ← ofExcept (ctx.functionSymbol function)
    callResult symbol (← ctx.lowerEach asStorage arguments) ty
  | .callMethod ty object method arguments => do
    match ← ofExcept (ctx.methodCallee object.ty method) with
    | .arrayLength => .value <$> (do arrayLength (← (← ctx.lowerExpr object).toValue object))
    | .function symbol =>
      let this ← (← ctx.lowerExpr object).toValue object
      callResult symbol (this :: (← ctx.lowerEach asStorage arguments)) ty
  | .element ty array position => do
    let base ← (← ctx.lowerExpr array).toValue array
    let index ← (← ctx.lowerExpr position).toValue position
    let address ← elementAddress base (.ofSource ty) index
    return .place address (.ofSource ty)
  | .member ty object field => do
    let some className := object.ty.className?
      | throw (.malformedExpression (.memberOfNonClass (Expr.member ty object field).describe))
    let base ← (← ctx.lowerExpr object).toValue object
    let (address, ty) ← ctx.memberAddress base className field
    return .place address ty
  | .new _ allocated counts => do
    if allocated.isArray then
      .value <$> newArray (.ofSource allocated) (← ctx.lowerEach pure counts)
    else
      match allocated.className? with
      | some className => .value <$> ctx.newObject className
      | none => throw (.malformedExpression (.newOfNonClass allocated))

/-- Build the values of expressions from left to right; each one is passed
through `finish` before the next one starts. -/
def lowerEach (ctx : Context) (finish : Operand → Build Operand) :
    List Expr → Build (List Operand)
  | [] => return []
  | e :: rest => do
    let value ← (← ctx.lowerExpr e).toValue e
    let value ← finish value
    return value :: (← ctx.lowerEach finish rest)

end

end Context

end MxStar.Flow
