import MxStar.Flow.Instr
import MxStar.Machine.Register
import MxStar.Source.Operator

/-!
# Errors

The front end promises a well-typed program, so every error is a breach of
that promise or of an invariant of the compiler itself.  An error is a cause;
`Error.message?` is the one place where causes are put into words.

The last two causes differ from the others.  A reference outside its table and
a number outside its range leave no state to go on from, so `Error.isFatal`
singles them out.
-/

namespace MxStar

/-- Statements that need a loop around them. -/
inductive LoopControl
  | leave
  | next
deriving DecidableEq, Repr

/-- The statement as it is written in a program. -/
def LoopControl.keyword : LoopControl → String
  | .leave => "break"
  | .next => "continue"

/-- Ways in which an expression or an initial value can be malformed.  An
expression is given by its description. -/
inductive Malformed
  | memberOfNonClass (expression : String)
  | operatorOnStrings (op : Source.BinaryOp)
  | methodOfNonClass (method : String)
  | newOfNonClass (ty : Source.Ty)
  | newWithoutCount
  | newOfNonArray (ty : Flow.Ty)
  | valueFromVoidFunction (expression function : String)
  | initialNotConstant (global : String) (initial : Flow.Operand)
deriving DecidableEq, Repr

/-- Why a stage gives no result. -/
inductive Error
  | unresolvedSymbol (name : String)
  | missingAddress (expression : String)
  | missingValue (expression : String)
  | unresolvedCall (callee : String)
  | unknownStruct (name : String)
  | unknownMember (owner member : String)
  | duplicateDefinition (name : String)
  | malformedExpression (reason : Malformed)
  | loopControlOutsideLoop (statement : LoopControl) (function : String)
  | thisOutsideMethod (function : String)
  | missingTerminator (function label : String)
  | inconsistentEdges (function label : String)
  | conflictingAssignment (function : String) (first second : Machine.Register)
      (shared : Option Machine.Physical)
  | allocationDidNotConverge (function : String) (rounds : Nat)
  /-- A reference to a block, register, slot or string that does not exist -/
  | outOfRange
  /-- A size, offset or count that its width cannot hold -/
  | overflow
deriving DecidableEq, Repr

/-- What is wrong with the expression. -/
def Malformed.message? : Malformed → Option String
  | .memberOfNonClass expression => some s!"{expression} on a value that is not a class instance"
  | .operatorOnStrings op => some s!"`{op.title}` applied to strings"
  | .methodOfNonClass method =>
    some s!"method `{method}` called on a value that is not a class instance"
  | .newOfNonClass ty => some s!"`new` of non-class type {ty.display}"
  | .newWithoutCount => some "`new` array without a dimension"
  | .newOfNonArray ty => some s!"`new` array of non-array type {ty.display}"
  | .valueFromVoidFunction expression function =>
    some s!"{expression} returned from void function `{function}`"
  | .initialNotConstant global initial => do
    let value ← initial.display?
    return s!"global `{global}` is initialized with non-constant {value}"

namespace Error

/-- The name of the kind of error. -/
def title : Error → String
  | .unresolvedSymbol _ => "UnresolvedSymbol"
  | .missingAddress _ => "MissingAddress"
  | .missingValue _ => "MissingValue"
  | .unresolvedCall _ => "UnresolvedCall"
  | .unknownStruct _ => "UnknownStruct"
  | .unknownMember _ _ => "UnknownMember"
  | .duplicateDefinition _ => "DuplicateDefinition"
  | .malformedExpression _ => "MalformedExpression"
  | .loopControlOutsideLoop _ _ => "LoopControlOutsideLoop"
  | .thisOutsideMethod _ => "ThisOutsideMethod"
  | .missingTerminator _ _ => "MissingTerminator"
  | .inconsistentEdges _ _ => "InconsistentEdges"
  | .conflictingAssignment _ _ _ _ => "ConflictingAssignment"
  | .allocationDidNotConverge _ _ => "AllocationDidNotConverge"
  | .outOfRange => "OutOfRange"
  | .overflow => "Overflow"

/-- Whether the error leaves no state to go on from. -/
def isFatal : Error → Bool
  | .outOfRange | .overflow => true
  | _ => false

/-- The wording of an error.  Fatal errors have none, nor has an initial value
that can only be shown by an internal number. -/
def message? : Error → Option String
  | .unresolvedSymbol name => some s!"unresolved symbol `{name}`"
  | .missingAddress expression => some s!"{expression} does not denote an addressable location"
  | .missingValue expression => some s!"{expression} does not produce a value"
  | .unresolvedCall callee => some s!"call to unknown function `{callee}`"
  | .unknownStruct name => some s!"unknown struct type `{name}`"
  | .unknownMember owner member => some s!"struct `{owner}` has no member `{member}`"
  | .duplicateDefinition name => some s!"`{name}` is defined more than once"
  | .malformedExpression reason => do
    let text ← reason.message?
    return s!"malformed expression: {text}"
  | .loopControlOutsideLoop statement function =>
    some s!"`{statement.keyword}` outside of a loop in function `{function}`"
  | .thisOutsideMethod function =>
    some s!"`this` used outside of a class method in function `{function}`"
  | .missingTerminator function label =>
    some s!"block `{label}` in function `{function}` has no terminator"
  | .inconsistentEdges function label =>
    some s!"block `{label}` in function `{function}` has inconsistent control-flow edges"
  | .conflictingAssignment function first second shared =>
    let register := (shared.map Machine.Physical.display).getD "no register"
    some (s!"`{first.display}` and `{second.display}` are live together in `{function}` " ++
      s!"but share `{register}`")
  | .allocationDidNotConverge function rounds =>
    some s!"register allocation for `{function}` did not converge after {rounds} rounds"
  | .outOfRange | .overflow => none

end Error

/-- A size or an offset, which has to fit a word. -/
def checkSize (n : Nat) : Except Error Nat :=
  if n < sizeLimit then .ok n else .error .overflow

/-- The entry at a position, which has to exist. -/
def Table.find {kind : Kind} {α : Type} (t : Table kind α) (i : Index kind) : Except Error α :=
  match t.get? i with
  | some a => .ok a
  | none => .error .outOfRange

theorem Table.find_eq_ok {kind : Kind} {α : Type} {t : Table kind α} {i : Index kind} {a : α} :
    t.find i = .ok a ↔ t.get? i = some a := by
  unfold Table.find
  split <;> simp_all

end MxStar
