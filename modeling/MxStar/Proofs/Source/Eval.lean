import MxStar.Flow.Unit
import MxStar.Proofs.Flow.Run

/-!
# Evaluating the scalar language

The part of the source language whose values are numbers and truth values is
evaluated here as it is written, without any flow graph.  A truth value is the
word 0 or 1.

Variables live in frames, one for each region of the text, innermost first.  A
declared variable has no value until one is assigned, and reading it before that
has no meaning.  A name that no frame declares is a global, which lives in
memory, where called functions can see it.

Operands are evaluated from left to right, but the value of an assignment before
its target.  `fuel` bounds how often each loop goes around: an evaluation is out
of fuel when some loop wants to go around once more.

`FunctionDef.isScalar` is the rule for which functions belong to the language: all
types are right, each name is declared before it is used, and `break` and
`continue` stand in a loop.
-/

namespace MxStar.Source

open Machine (Width)

namespace Ty

def int : Ty := { base := .int }

def bool : Ty := { base := .bool }

/-- Whether the values of the type are numbers or truth values. -/
def isScalar (ty : Ty) : Bool :=
  ty = .int || ty = .bool

/-- How much memory a value takes. -/
def width (ty : Ty) : Width :=
  if ty = .bool then .byte else .word

def Admits (ty : Ty) (w : Word) : Prop :=
  ty = .bool → w = 0 ∨ w = 1

end Ty

/-! ## Types -/

def BinaryOp.resultType? (op : BinaryOp) (left right : Ty) : Option Ty :=
  match op.operatorClass with
  | .arithmetic => if left = .int ∧ right = .int then some .int else none
  | .relational => if left = .int ∧ right = .int then some .bool else none
  | .logical => if left = .bool ∧ right = .bool then some .bool else none
  | .equality => if left = right ∧ left.isScalar then some .bool else none

/-- Whether the operator changes what it is applied to. -/
def UnaryOp.isStep : UnaryOp → Bool
  | .preIncrement | .preDecrement | .postIncrement | .postDecrement => true
  | _ => false

def UnaryOp.operandType : UnaryOp → Ty
  | .logicalNot => .bool
  | _ => .int

/-- Whether an expression stands for a variable that can be assigned to. -/
def Expr.isPlace : Expr → Bool
  | .ident _ _ | .assign _ _ _ | .unary _ .preIncrement _ | .unary _ .preDecrement _ => true
  | _ => false

/-- The types of those functions of the support library that deal in numbers. -/
def builtinSignature? (name : String) : Option Signature :=
  if name = "printInt" ∨ name = "printlnInt" then
    some { returnType := .void, parameters := [.int] }
  else if name = "getInt" then
    some { returnType := .int, parameters := [] }
  else
    none

def Symbols.signature? (symbols : Symbols) (name : String) : Option Signature :=
  (symbols.function? name).or (builtinSignature? name)

/-- The types of the variables that are visible at a point. -/
abbrev Typing := String → Option Ty

def Typing.declare (known : Typing) (name : String) (ty : Ty) : Typing := fun other =>
  if other = name then some ty else known other

section

variable (symbols : Symbols)

mutual

/-- Whether an expression belongs to the scalar language and has the type it says. -/
def Expr.isScalar (known : Typing) : Expr → Bool
  | .literal ty (.integer _) => ty = .int
  | .literal ty (.boolean _) => ty = .bool
  | .ident ty name => known name = some ty && ty.isScalar
  | .binary ty op lhs rhs =>
    lhs.isScalar known && rhs.isScalar known && op.resultType? lhs.ty rhs.ty = some ty
  | .unary ty op operand =>
    operand.isScalar known && operand.ty = op.operandType && ty = op.operandType &&
      (!op.isStep || operand.isPlace)
  | .assign ty target value =>
    target.isScalar known && value.isScalar known && target.isPlace && target.ty = ty &&
      value.ty = ty
  | .choice ty condition positive negative =>
    condition.isScalar known && positive.isScalar known && negative.isScalar known &&
      condition.ty = .bool && positive.ty = ty && negative.ty = ty
  | .call ty function arguments =>
    Expr.areScalar known arguments && (ty.isScalar || ty = .void) && symbols.signature? function =
        some { returnType := ty, parameters := arguments.map Expr.ty }
  | _ => false

/-- Whether all of the expressions do and none of them gives nothing. -/
def Expr.areScalar (known : Typing) : List Expr → Bool
  | [] => true
  | e :: rest => e.isScalar known && e.ty.isScalar && Expr.areScalar known rest

end

/-- Whether a definition declares numbers or truth values, each with an initial
value of its type or none, and the types that are known after it. -/
def declarationTyping (known : Typing) (ty : Ty) : List Declarator → Option Typing
  | [] => some known
  | d :: rest =>
    if ty.isScalar && d.initial.all fun e => e.isScalar symbols known && e.ty = ty then
      declarationTyping (known.declare d.name ty) ty rest
    else
      none

def startTyping (known : Typing) : Option ForStart → Option Typing
  | some (.declare vars) => declarationTyping symbols known vars.ty vars.declarators
  | some (.evaluate e) => if e.isScalar symbols known then some known else none
  | none => some known

/-- Whether an expression belongs to the language and is a truth value. -/
def Expr.isCondition (known : Typing) (e : Expr) : Bool :=
  e.isScalar symbols known && e.ty = .bool

variable (returnType : Ty)

mutual

def Stmt.typing (inLoop : Bool) (known : Typing) : Stmt → Option Typing
  | .block body => if Stmt.areScalar inLoop known body then some known else none
  | .declare vars => declarationTyping symbols known vars.ty vars.declarators
  | .ifElse condition positive negative =>
    if condition.isCondition symbols known && Stmt.areScalar inLoop known positive &&
        Stmt.areScalar inLoop known negative then
      some known
    else
      none
  | .whileLoop condition body =>
    if condition.isCondition symbols known && Stmt.areScalar true known body then
      some known
    else
      none
  | .forLoop start condition step body =>
    match startTyping symbols known start with
    | some inner =>
      if (condition.all fun e => e.isCondition symbols inner) &&
          (step.all fun e => e.isScalar symbols inner) && Stmt.areScalar true inner body then
        some known
      else
        none
    | none => none
  | .breakLoop | .continueLoop => if inLoop then some known else none
  | .giveBack none => if returnType = .void then some known else none
  | .giveBack (some e) => if e.isScalar symbols known && e.ty = returnType then some known else none
  | .evaluate e => if e.isScalar symbols known then some known else none
  | .empty => some known

/-- Whether statements belong to the scalar language, one after the other. -/
def Stmt.areScalar (inLoop : Bool) (known : Typing) : List Stmt → Bool
  | [] => true
  | s :: rest =>
    match s.typing inLoop known with
    | some after => Stmt.areScalar inLoop after rest
    | none => false

end

end

/-- The types in the body of a function: those of its parameters, and of globals. -/
def FunctionDef.typing (globals : Typing) (f : FunctionDef) : Typing :=
  f.parameters.foldl (fun known p => known.declare p.name p.ty) globals

def FunctionDef.isScalar (symbols : Symbols) (globals : Typing) (f : FunctionDef) : Bool :=
  (f.returnType.isScalar || f.returnType = .void) && (f.parameters.all fun p => p.ty.isScalar) &&
    Stmt.areScalar symbols f.returnType false (f.typing globals) f.body

def Program.globalVariables (p : Program) : List (String × Ty) :=
  p.flatMap fun
    | .globals vars => vars.declarators.map fun d => (d.name, vars.ty)
    | _ => []

def Program.declarators (p : Program) : List (Ty × Declarator) :=
  p.flatMap fun
    | .globals vars => vars.declarators.map fun d => (vars.ty, d)
    | _ => []

theorem Program.globalVariables_eq (p : Program) :
    p.globalVariables = p.declarators.map fun d => (d.2.name, d.1) := by
  rw [declarators, List.map_flatMap]
  exact List.flatMap_congr fun d _ => by cases d <;> simp

theorem Program.mem_declarators {p : Program} {d : Ty × Declarator} (h : d ∈ p.declarators) :
    ∃ vars, .globals vars ∈ p ∧ vars.ty = d.1 ∧ d.2 ∈ vars.declarators := by
  obtain ⟨definition, hdef, hd⟩ := List.mem_flatMap.mp h
  cases definition with
  | globals vars =>
    obtain ⟨declarator, hdeclarator, rfl⟩ := List.mem_map.mp hd
    exact ⟨vars, hdef, rfl, hdeclarator⟩
  | _ => simp at hd

def Program.globalTyping (p : Program) : Typing := fun name =>
  (p.globalVariables.find? fun v => v.1 == name).map Prod.snd

/-! ## Values -/

/-- What an operator computes.  The operands are values of its operand types. -/
def BinaryOp.apply : BinaryOp → Word → Word → Word
  | .add, a, b => a + b
  | .subtract, a, b => a - b
  | .multiply, a, b => a * b
  | .divide, a, b => a.quotient b
  | .modulus, a, b => a.remainder b
  | .bitAnd, a, b | .logicalAnd, a, b => a &&& b
  | .bitOr, a, b | .logicalOr, a, b => a ||| b
  | .bitXor, a, b => a ^^^ b
  | .shiftLeft, a, b => a.shiftLeft b
  | .shiftRight, a, b => a.shiftRight b
  | .equals, a, b => Word.ofBool (a == b)
  | .notEquals, a, b => Word.ofBool (a != b)
  | .lessThan, a, b => Word.ofBool (a.slt b)
  | .lessOrEqual, a, b => Word.ofBool (a.sle b)
  | .greaterThan, a, b => Word.ofBool (b.slt a)
  | .greaterOrEqual, a, b => Word.ofBool (b.sle a)

/-- What an operator makes of its operand: its value, or for the steps the value
the variable gets. -/
def UnaryOp.apply : UnaryOp → Word → Word
  | .plus, a => a
  | .negate, a => -a
  | .bitNot, a => ~~~a
  | .logicalNot, a => Word.ofBool (a == 0)
  | .preIncrement, a | .postIncrement, a => a + 1
  | .preDecrement, a | .postDecrement, a => a - 1

/-- The variables declared in one region, each with its value once it has one. -/
abbrev Frame := String → Option (Option Word)

def Frame.set (frame : Frame) (name : String) (value : Option Word) : Frame := fun other =>
  if other = name then some value else frame other

/-- The innermost variable of a name. -/
def lookup : List Frame → String → Option (Option Word)
  | [], _ => none
  | frame :: outer, name => (frame name).or (lookup outer name)

/-- Give the innermost variable of a name a value. -/
def assign : List Frame → String → Word → List Frame
  | [], _, _ => []
  | frame :: outer, name, w =>
    if (frame name).isSome then frame.set name (some w) :: outer
    else frame :: assign outer name w

structure State (World : Type) where
  /-- The variables, those of the innermost region first -/
  frames : List Frame
  /-- Where the globals are -/
  memory : Memory
  world : World
  /-- The calls so far, the latest first -/
  calls : List (String × List Word)

/-- What an evaluation comes to. -/
inductive Result (World α : Type)
  | done (value : α) (s : State World)
  /-- A call does not come back -/
  | hung (s : State World)
  /-- A loop wants to go around more often than was allowed -/
  | outOfFuel (s : State World)
  | undefined

namespace Result

variable {World α β : Type}

/-- Go on with what was evaluated. -/
def bind : Result World α → (α → State World → Result World β) → Result World β
  | .done a s, k => k a s
  | .hung s, _ => .hung s
  | .outOfFuel s, _ => .outOfFuel s
  | .undefined, _ => .undefined

end Result

/-- An evaluation. -/
def Eval (World α : Type) := State World → Result World α

namespace Eval

variable {World α β : Type}

instance : Monad (Eval World) where
  pure a := fun s => .done a s
  bind x k := fun s => (x s).bind k

theorem pure_apply (a : α) (s : State World) : (pure a : Eval World α) s = .done a s := rfl

theorem bind_apply (x : Eval World α) (k : α → Eval World β) (s : State World) :
    (x >>= k) s = (x s).bind k := rfl

theorem map_apply (f : α → β) (x : Eval World α) (s : State World) :
    (f <$> x) s = (x s).bind fun a => (pure (f a) : Eval World β) := rfl

instance : LawfulMonad (Eval World) :=
  LawfulMonad.mk' (Eval World) (fun x => by
      funext s
      rw [map_apply]
      cases x s <;> rfl)
    (fun _ _ => rfl)
    (fun x _ _ => by
      funext s
      simp only [bind_apply]
      cases x s <;> rfl)

/-- What has no meaning. -/
def undefined : Eval World α := fun _ => .undefined

/-- A loop that may not go around again. -/
def outOfFuel : Eval World α := fun s => .outOfFuel s

def declare (name : String) (value : Option Word) : Eval World Unit := fun s =>
  match s.frames with
  | [] => .undefined
  | frame :: outer => .done () { s with frames := frame.set name value :: outer }

/-- Evaluate in a region of its own. -/
def inFrame (x : Eval World α) : Eval World α := fun s =>
  (x { s with frames := (fun _ => none) :: s.frames }).bind fun a s =>
    .done a { s with frames := s.frames.tail }

end Eval

/-- What an expression stands for: a value, a variable, or nothing if it is a
call of a function without a result. -/
inductive Answer
  | value (w : Word)
  | place (name : String)
  | nothing
deriving DecidableEq, Repr, Inhabited

/-- How a statement ends. -/
inductive Signal
  | normal
  | leave
  | next
  | giveBack (value : Option Word)
deriving DecidableEq, Repr, Inhabited

section

variable {World : Type} (E : Flow.Environment World) (globals : Typing)

/-- The value of a variable. -/
def read (name : String) : Eval World Word := fun s =>
  match lookup s.frames name with
  | some (some w) => .done w s
  | some none => .undefined
  | none =>
    match globals name with
    | some ty => .done (s.memory.read ty.width (E.global name)) s
    | none => .undefined

/-- Assign to a variable. -/
def write (name : String) (w : Word) : Eval World Unit := fun s =>
  match lookup s.frames name with
  | some _ => .done () { s with frames := assign s.frames name w }
  | none =>
    match globals name with
    | some ty => .done () { s with memory := s.memory.write ty.width (E.global name) w }
    | none => .undefined

def call (function : String) (arguments : List Word) : Eval World Word := fun s =>
  let s := { s with calls := (function, arguments) :: s.calls }
  match E.call s.world function arguments s.memory with
  | some (world, memory, result) => .done result { s with world, memory }
  | none => .hung s

def Answer.toValue : Answer → Eval World Word
  | .value w => pure w
  | .place name => read E globals name
  | .nothing => Eval.undefined

/-- The variable an expression stands for. -/
def Answer.toPlace : Answer → Eval World String
  | .place name => pure name
  | _ => Eval.undefined

/-- Give a variable the value an operator makes of its old one, which is the result. -/
def stepVariable (op : UnaryOp) (name : String) : Eval World Word := do
  let old ← read E globals name
  write E globals name (op.apply old)
  return old

/-- What a step stands for: the variable if it is written in front, else the old value. -/
def Answer.ofStep (op : UnaryOp) (name : String) (old : Word) : Answer :=
  match op with
  | .postIncrement | .postDecrement => .value old
  | _ => .place name

/-- What a choice of type `ty` stands for when its chosen arm stands for `answer`. -/
def Answer.ofChoice (ty : Ty) (answer : Answer) : Eval World Answer :=
  if ty = .void then pure .nothing
  else .value <$> answer.toValue E globals

def evalUnary (op : UnaryOp) (operand : Answer) : Eval World Answer := do
  if op.isStep then
    let name ← operand.toPlace
    return .ofStep op name (← stepVariable E globals op name)
  else
    return .value (op.apply (← operand.toValue E globals))

mutual

/-- Evaluate an expression. -/
def evalExpr : Expr → Eval World Answer
  | .literal _ (.integer w) => return .value w
  | .literal _ (.boolean b) => return .value (Word.ofBool b)
  | .ident _ name => return .place name
  | .binary _ .logicalAnd lhs rhs => do
    let left ← (← evalExpr lhs).toValue E globals
    if left = 0 then return .value 0
    else return .value (← (← evalExpr rhs).toValue E globals)
  | .binary _ .logicalOr lhs rhs => do
    let left ← (← evalExpr lhs).toValue E globals
    if left = 0 then return .value (← (← evalExpr rhs).toValue E globals)
    else return .value 1
  | .binary _ op lhs rhs => do
    let left ← (← evalExpr lhs).toValue E globals
    let right ← (← evalExpr rhs).toValue E globals
    return .value (op.apply left right)
  | .unary _ op operand => do evalUnary E globals op (← evalExpr operand)
  | .assign _ target value => do
    let assigned ← (← evalExpr value).toValue E globals
    let name ← (← evalExpr target).toPlace
    write E globals name assigned
    return .place name
  | .choice ty condition positive negative => do
    let chosen ← (← evalExpr condition).toValue E globals
    let arm := if chosen = 0 then evalExpr negative else evalExpr positive
    (← arm).ofChoice E globals ty
  | .call ty function arguments => do
    let result ← call E function (← evalEach arguments)
    return if ty = .void then .nothing else .value result
  | _ => Eval.undefined

/-- The values of expressions, from left to right. -/
def evalEach : List Expr → Eval World (List Word)
  | [] => return []
  | e :: rest => do
    let value ← (← evalExpr e).toValue E globals
    return value :: (← evalEach rest)

end

def evalValue (e : Expr) : Eval World Word := do
  (← evalExpr E globals e).toValue E globals

/-- Declare variables.  Each one is declared after its own initial value. -/
def execDeclarators : List Declarator → Eval World Unit
  | [] => return
  | d :: rest => do
    match d.initial with
    | some e => Eval.declare d.name (some (← evalValue E globals e))
    | none => Eval.declare d.name none
    execDeclarators rest

/-- What a loop does before its first test. -/
def execStart : Option ForStart → Eval World Unit
  | some (.declare vars) => execDeclarators E globals vars.declarators
  | some (.evaluate e) => do let _ ← evalExpr E globals e
  | none => return

def goAround (condition : Eval World Word) (body : Eval World Signal) (step : Eval World Unit) :
    (fuel : Nat) → Eval World Signal
  | 0 => Eval.outOfFuel
  | fuel + 1 => do
    if (← condition) = 0 then return .normal
    match ← body with
    | .leave => return .normal
    | .giveBack value => return .giveBack value
    | .normal | .next => do
      step
      goAround condition body step fuel

mutual

/-- Execute a statement. -/
def execStmt (fuel : Nat) : Stmt → Eval World Signal
  | .block body => Eval.inFrame (execStmts fuel body)
  | .declare vars => do
    execDeclarators E globals vars.declarators
    return .normal
  | .ifElse condition positive negative => do
    if (← evalValue E globals condition) = 0 then Eval.inFrame (execStmts fuel negative)
    else Eval.inFrame (execStmts fuel positive)
  | .whileLoop condition body =>
    goAround (evalValue E globals condition) (Eval.inFrame (execStmts fuel body)) (return) fuel
  | .forLoop start condition step body => Eval.inFrame do
    execStart E globals start
    goAround (condition.elim (return 1) (evalValue E globals)) (Eval.inFrame (execStmts fuel body))
      (step.elim (return) fun e => do let _ ← evalExpr E globals e) fuel
  | .breakLoop => return .leave
  | .continueLoop => return .next
  | .giveBack none => return .giveBack none
  | .giveBack (some e) => do
    if e.ty = .void then
      let _ ← evalExpr E globals e
      return .giveBack none
    else
      return .giveBack (some (← evalValue E globals e))
  | .evaluate e => do
    let _ ← evalExpr E globals e
    return .normal
  | .empty => return .normal

/-- Execute statements, one after the other, until one of them jumps. -/
def execStmts (fuel : Nat) : List Stmt → Eval World Signal
  | [] => return .normal
  | s :: rest => do
    match ← execStmt fuel s with
    | .normal => execStmts fuel rest
    | signal => return signal

end

/-- What a function gives back: the value of a `return`, or zero when control falls
off its end.  A function of type `void` gives back nothing. -/
def FunctionDef.result (f : FunctionDef) : Signal → Option Word
  | .giveBack (some w) => some w
  | _ => if f.returnType = .void then none else some 0

/-- Evaluate a function.  With `computeGlobals`, it first has the globals computed. -/
def FunctionDef.eval (f : FunctionDef) (computeGlobals : Bool) (arguments : List Word)
    (memory : Memory)
    (world : World) (fuel : Nat) : Result World (Option Word) :=
  let parameters : Frame :=
    (f.parameters.zip arguments).foldl (fun frame p => frame.set p.1.name (some p.2)) fun _ => none
  let body : Eval World (Option Word) := do
    if computeGlobals then
      let _ ← call E Linkage.globalInitializer []
    return f.result (← execStmts E globals fuel f.body)
  body { frames := [parameters], memory, world, calls := [] }

end

end MxStar.Source
