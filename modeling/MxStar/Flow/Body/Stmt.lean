import MxStar.Flow.Body.Expr

/-!
# Statements in bodies

`Context.lowerStmt` walks a statement once.  Conditionals and loops are written
as combinators over the steps that build their parts.  Every combinator leaves
the block that follows the statement as the current one, and every region it
opens is closed again, so the scopes after a statement are those before it, but
for the names the statement itself declares.
-/

namespace MxStar.Flow

open Build
open Source (Expr Stmt VariableDef ForStart)

/-- Run one of two steps; without a negative one, a false condition goes straight on. -/
def branchOn (condition : Build Operand) (positive : Build Unit) (negative : Option (Build Unit)) :
    Build Unit := do
  let chosen ← condition
  let next ← createBlock "if_end" (← inheritedTerminator)
  let thenBlock ← createBlock "if_then" (some (.jump next))
  match negative with
  | none =>
    terminate (.branch chosen thenBlock next)
    switchTo thenBlock
    inScope positive
    jump next
  | some negative =>
    let elseBlock ← createBlock "if_else" (some (.jump next))
    terminate (.branch chosen thenBlock elseBlock)
    switchTo thenBlock
    inScope positive
    jump next
    switchTo elseBlock
    inScope negative
    jump next
  switchTo next

/-- Build the body of a loop in its block; it goes on at the step, or else at
the condition. -/
def loopBody (targets : LoopTargets) (block : BlockId) (body : Build Unit) : Build Unit := do
  modifyScopes (·.pushLoop targets)
  switchTo block
  body
  jump targets.continueTarget
  modifyScopes ScopeStack.pop

/-- Run a step as long as a condition holds. -/
def loopWhile (condition : Build Operand) (body : Build Unit) : Build Unit := do
  let next ← createBlock "while_end" (← inheritedTerminator)
  let conditionBlock ← createBlock "while_cond" none
  let bodyBlock ← createBlock "while_body" (some (.jump conditionBlock))
  jump conditionBlock
  switchTo conditionBlock
  let more ← condition
  terminate (.branch more bodyBlock next)
  loopBody { condition := conditionBlock, step := none, next } bodyBlock body
  switchTo next

/-- A counting loop.  Without a condition it never ends by itself. -/
def loopFor (start : Build Unit) (condition : Option (Build Operand)) (step body : Build Unit) :
    Build Unit :=
  inScope do
    start
    let next ← createBlock "for_end" (← inheritedTerminator)
    let conditionBlock ← createBlock "for_cond" none
    let stepBlock ← createBlock "for_step" (some (.jump conditionBlock))
    let bodyBlock ← createBlock "for_body" (some (.jump stepBlock))
    jump conditionBlock
    switchTo conditionBlock
    match condition with
    | some condition =>
      let more ← condition
      terminate (.branch more bodyBlock next)
    | none => jump bodyBlock
    loopBody { condition := conditionBlock, step := some stepBlock, next } bodyBlock body
    switchTo stepBlock
    step
    jump conditionBlock
    switchTo next

namespace Context

/-- The value of an expression, ready for memory. -/
def lowerStored (ctx : Context) (e : Expr) : Build Operand := do
  (← ctx.lowerExpr e).toStorage e

/-- The value of an expression, ready for a branch. -/
def lowerCondition (ctx : Context) (e : Expr) : Build Operand := do
  (← ctx.lowerExpr e).toCondition e

/-- Run an expression for what it does. -/
def runExpr (ctx : Context) (e : Expr) : Build Unit := do
  discard (ctx.lowerExpr e)

/-- Give each variable of a definition a cell and its initial value.  A name is
declared after its own initial value, which still sees the outer one. -/
def declareLocals (ctx : Context) (vars : VariableDef) : Build Unit :=
  vars.declarators.forM fun d => do
    let cell ← createCell (.ofSource vars.ty) (some d.name)
    if let some initial := d.initial then
      store (← ctx.lowerStored initial) (.register cell)
    modifyScopes (·.declare d.name (.cell cell) (.ofSource vars.ty))

/-- The loop a `break` or `continue` belongs to. -/
def loopTargets (ctx : Context) (statement : LoopControl) : Build LoopTargets := do
  match (← get).scopes.innermostLoop? with
  | some targets => return targets
  | none => throw (.loopControlOutsideLoop statement ctx.function)

/-- Leave the function, with a value if there is one. -/
def lowerReturn (ctx : Context) (value : Option Expr) : Build Unit := do
  if let some e := value then
    if e.ty.isVoid then
      ctx.runExpr e
    else
      match ctx.returnCell with
      | some cell => store (← ctx.lowerStored e) (.register cell)
      | none => throw (.malformedExpression (.valueFromVoidFunction e.describe ctx.function))
  jump (← get).function.exit

/-- What a `for` loop does before its first test. -/
def lowerStart (ctx : Context) : Option ForStart → Build Unit
  | some (.declare vars) => ctx.declareLocals vars
  | some (.evaluate e) => ctx.runExpr e
  | none => return

mutual

/-- Build the code of a statement. -/
def lowerStmt (ctx : Context) : Stmt → Build Unit
  | .block body => inScope (ctx.lowerStmts body)
  | .declare vars => ctx.declareLocals vars
  | .ifElse condition positive negative =>
    branchOn (ctx.lowerCondition condition) (ctx.lowerStmts positive)
      (if negative.isEmpty then none else some (ctx.lowerStmts negative))
  | .whileLoop condition body => loopWhile (ctx.lowerCondition condition) (ctx.lowerStmts body)
  | .forLoop start condition step body =>
    loopFor (ctx.lowerStart start) (condition.map ctx.lowerCondition)
      (step.elim (return) ctx.runExpr) (ctx.lowerStmts body)
  | .breakLoop => do jump (← ctx.loopTargets .leave).breakTarget
  | .continueLoop => do jump (← ctx.loopTargets .next).continueTarget
  | .giveBack value => ctx.lowerReturn value
  | .evaluate e => ctx.runExpr e
  | .empty => return

/-- Build the code of statements in order. -/
def lowerStmts (ctx : Context) : List Stmt → Build Unit
  | [] => return
  | s :: rest => do
    ctx.lowerStmt s
    ctx.lowerStmts rest

end

end Context

end MxStar.Flow
