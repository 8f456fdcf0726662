import MxStar.Flow.Body.Stmt
import MxStar.Flow.Check

/-!
# Flow graphs of a unit

`Program.ofSource` lays out the classes, places the globals and builds a flow
graph for every body.  A global that starts out as a literal is placed as that
constant; the others start at zero and are computed by an initializer, which
`main` calls before anything else.

Each body ends in one exit block, which gives back what the function's return
cell holds.
-/

namespace MxStar.Flow

open Build
open Source (Symbols Definition FunctionDef ClassDef VariableDef Expr)

/-- What the bodies of a unit share. -/
structure UnitState where
  strings : StringPool := {}
  nextLabel : Nat := 0
  log : Log

/-- A step of lowering a unit. -/
abbrev UnitBuild := EStateM Error UnitState

/-- The layouts of all classes, in declaration order. -/
def structsOf (symbols : Symbols) : List Struct :=
  symbols.classList.map fun info =>
    Struct.layOut info.name (info.members.map fun (name, ty) => (name, .ofSource ty))
      info.hasConstructor

/-- The constant a literal is placed as.  Truth values are in storage form. -/
def placeLiteral (strings : StringPool) : Source.Literal → Operand × StringPool
  | .integer value => (.constant (.int value), strings)
  | .boolean value => (.constant (.bool value), strings)
  | .text value =>
    let (id, strings) := strings.intern value
    (.string id, strings)
  | .null => (.constant .null, strings)

/-- The globals placed so far, and those that are computed later. -/
structure Placed where
  globals : List Global := []
  deferred : List (String × Expr) := []
  strings : StringPool := {}

/-- Place one global. -/
def Placed.add (placed : Placed) (ty : Ty) (d : Source.Declarator) : Except Error Placed :=
  if placed.globals.any fun g => g.name == d.name then
    .error (.duplicateDefinition d.name)
  else
    match d.initial with
    | some (.literal _ value) =>
      let (initial, strings) := placeLiteral placed.strings value
      .ok { placed with globals := placed.globals ++ [{ name := d.name, ty, initial }], strings }
    | some e =>
      .ok { placed with
        globals := placed.globals ++ [{ name := d.name, ty, initial := .constant ty.zero }]
        deferred := placed.deferred ++ [(d.name, e)] }
    | none =>
      .ok { placed with
        globals := placed.globals ++ [{ name := d.name, ty, initial := .constant ty.zero }] }

/-- Place the globals of one definition. -/
def Placed.addDefinition (placed : Placed) : Definition → Except Error Placed
  | .globals vars => vars.declarators.foldlM
      (fun placed d => placed.add (.ofSource vars.ty) d) placed
  | _ => .ok placed

/-- Place all globals of a program. -/
def placeGlobals (p : Source.Program) : Except Error Placed :=
  p.foldlM Placed.addDefinition {}

/-- A function whose body is to be built. -/
structure BodySource where
  name : String
  returnType : Ty
  parameters : List Source.Parameter := []
  /-- The class whose method or constructor this is -/
  owner : Option String := none

/-- Entry and exit of a new body.  Falling off its end returns. -/
def openBlocks : Build Unit := do
  let entry ← createBlock "entry" none
  let exit ← createBlock "exit" none
  modifyFunction fun f =>
    { f with
      entry, exit
      blocks := f.blocks.modify entry fun b => { b with terminator := some (.jump exit) } }
  switchTo entry
  modifyScopes ScopeStack.push

/-- The receiver of a method or constructor is its first parameter. -/
def openReceiver (owner : Option String) : Build (Option Receiver) := do
  let some className := owner | return none
  let register ← createRegister (.object className) (some "this")
  modifyFunction fun f => { f with parameters := f.parameters ++ [register] }
  return some { className, register }

/-- The cell for the result holds zero until something is returned. -/
def openReturnCell (ty : Ty) : Build (Option RegisterId) := do
  if ty = .void then
    return none
  else
    let cell ← createCell ty (some "retval")
    store (.constant ty.zero) (.register cell)
    return some cell

/-- A parameter arrives in a register and is kept in a cell, so that it can be
assigned to like any local variable. -/
def declareParameter (p : Source.Parameter) : Build Unit := do
  let ty := Ty.ofSource p.ty
  let register ← createRegister ty (some p.name)
  modifyFunction fun f => { f with parameters := f.parameters ++ [register] }
  let cell ← createCell ty (some p.name)
  store (.register register) (.register cell)
  modifyScopes (·.declare p.name (.cell cell) ty)

/-- Give back the result in the exit block. -/
def closeBody (returnType : Ty) (returnCell : Option RegisterId) : Build Unit := do
  switchTo (← get).function.exit
  match returnCell with
  | some cell => terminate (.ret (some (← load (.register cell) returnType)))
  | none => terminate (.ret none)

/-- Drop what cannot be reached and check what is left. -/
def finishBody : Build Function := do
  let f ← logged (← get).function.pruneNoted
  ofExcept f.check
  logged (note (.loweredFunction f.name f.layout.length f.registers.size))
  return f

/-- Build a whole body from the step that builds its statements. -/
def buildBody (ctx : Context) (source : BodySource) (statements : Context → Build Unit) :
    Build Function := do
  openBlocks
  let receiver ← openReceiver source.owner
  let returnCell ← openReturnCell source.returnType
  source.parameters.forM declareParameter
  statements { ctx with function := source.name, receiver, returnCell }
  closeBody source.returnType returnCell
  finishBody

/-- Build a body with what the unit shares, and hand that back. -/
def runBody (ctx : Context) (source : BodySource) (statements : Context → Build Unit) :
    UnitBuild Function := fun unit =>
  let start : Builder :=
    { function := { name := source.name, returnType := source.returnType }
      strings := unit.strings, nextLabel := unit.nextLabel, log := unit.log }
  let share (s : Builder) : UnitState :=
    { strings := s.strings, nextLabel := s.nextLabel, log := s.log }
  match (buildBody ctx source statements).run start with
  | .ok f s => .ok f (share s)
  | .error e s => .error e (share s)

/-- Build a function of the program. -/
def lowerFunction (ctx : Context) (source : BodySource) (callInitializer : Bool)
    (body : List Source.Stmt) : UnitBuild Function := do
  modify fun unit => { unit with log := unit.log.push (.loweringFunction source.name) }
  runBody ctx source fun ctx => do
    if callInitializer then
      callVoid Linkage.globalInitializer []
    ctx.lowerStmts body

/-- Build the function that computes the deferred globals, if there are any. -/
def lowerInitializer (ctx : Context) (deferred : List (String × Expr)) :
    UnitBuild (Option Function) := do
  if deferred.isEmpty then
    return none
  else
    let source : BodySource := { name := Linkage.globalInitializer, returnType := .void }
    some <$> runBody ctx source fun ctx =>
      deferred.forM fun (name, e) => do store (← ctx.lowerStored e) (.global name)

/-- Build a function definition, as a method if it has an owner. -/
def lowerFunctionDef (ctx : Context) (owner : Option String) (callInitializer : Bool)
    (f : FunctionDef) : UnitBuild Function :=
  let name := match owner with
    | some className => Linkage.methodSymbol className f.name
    | none => f.name
  lowerFunction ctx
    { name, returnType := .ofSource f.returnType, parameters := f.parameters, owner }
    callInitializer f.body

/-- Build the constructor of a class, if it declares one, and its methods. -/
def lowerClass (ctx : Context) (c : ClassDef) : UnitBuild (List Function) := do
  let constructor ← c.constructor.toList.mapM fun body =>
    lowerFunction ctx
      { name := Linkage.methodSymbol c.name c.name, returnType := .void, owner := some c.name }
      false body
  let methods ← c.methods.mapM (lowerFunctionDef ctx (some c.name) false)
  return constructor ++ methods

/-- Build the functions of one definition. -/
def lowerDefinition (ctx : Context) (hasInitializer : Bool) : Definition → UnitBuild (List Function)
  | .function f => do
    let callInitializer := hasInitializer && f.name == Linkage.entryPoint
    return [← lowerFunctionDef ctx none callInitializer f]
  | .object c => lowerClass ctx c
  | .globals _ => return []

/-- Build a unit. -/
def lowerUnit (p : Source.Program) (symbols : Symbols) : UnitBuild Program := do
  let structs := structsOf symbols
  let placed ← ofExcept (placeGlobals p)
  modify fun unit => { unit with strings := placed.strings }
  let ctx : Context := { symbols, structs, globals := placed.globals, function := "" }
  let initializer ← lowerInitializer ctx placed.deferred
  let functions ← p.mapM (lowerDefinition ctx initializer.isSome)
  return { structs, globals := placed.globals, initializer, functions := functions.flatten
           strings := (← get).strings }

/-- The flow graphs of a unit. -/
def Program.ofSource (p : Source.Program) (symbols : Symbols) : Logged Program := fun log =>
  match (lowerUnit p symbols).run { log } with
  | .ok program unit => .ok program unit.log
  | .error e unit => .error e unit.log

end MxStar.Flow
