import MxStar.Flow.Instr
import Std.Data.ExtTreeMap

/-!
# Lexical scopes

The names that are visible at a point of a body and the loop around it.  A
scope lives exactly as long as the region of text it belongs to, so the
scopes form a stack, kept with the innermost one first.  A name is looked up
from the inside outwards, and so is the loop.
-/

namespace MxStar.Flow

/-- Where a named variable lives. -/
inductive Storage
  /-- In a stack cell whose address the register holds -/
  | cell (r : RegisterId)
  | global (name : String)
deriving DecidableEq, Repr

/-- The address of the variable. -/
def Storage.address : Storage → Operand
  | .cell r => .register r
  | .global name => .global name

/-- The blocks a loop is made of, as far as jumps can name them. -/
structure LoopTargets where
  condition : BlockId
  /-- Only `for` loops have one -/
  step : Option BlockId
  next : BlockId
deriving DecidableEq, Repr

namespace LoopTargets

/-- Where `continue` goes. -/
def continueTarget (t : LoopTargets) : BlockId :=
  t.step.getD t.condition

/-- Where `break` goes. -/
def breakTarget (t : LoopTargets) : BlockId :=
  t.next

end LoopTargets

/-- The names declared in one region, and the loop whose body it is. -/
structure Scope where
  names : Std.ExtTreeMap String (Storage × Ty) := ∅
  loop : Option LoopTargets := none

/-- The scopes around a point, innermost first. -/
structure ScopeStack where
  scopes : List Scope := []

namespace ScopeStack

/-- Enter a region. -/
def push (s : ScopeStack) : ScopeStack :=
  ⟨{} :: s.scopes⟩

/-- Enter the body of a loop. -/
def pushLoop (s : ScopeStack) (targets : LoopTargets) : ScopeStack :=
  ⟨{ loop := some targets } :: s.scopes⟩

/-- Leave the innermost region. -/
def pop (s : ScopeStack) : ScopeStack :=
  ⟨s.scopes.tail⟩

/-- Declare a variable in the innermost region; outside of all regions, this
opens one. -/
def declare (s : ScopeStack) (name : String) (storage : Storage) (ty : Ty) : ScopeStack :=
  match s.scopes with
  | [] => ⟨[{ names := (∅ : Std.ExtTreeMap String (Storage × Ty)).insert name (storage, ty) }]⟩
  | scope :: outer =>
    ⟨{ scope with names := scope.names.insert name (storage, ty) } :: outer⟩

/-- The innermost variable of a name. -/
def resolve? (s : ScopeStack) (name : String) : Option (Storage × Ty) :=
  s.scopes.findSome? fun scope => scope.names[name]?

/-- The innermost loop. -/
def innermostLoop? (s : ScopeStack) : Option LoopTargets :=
  s.scopes.findSome? Scope.loop

@[simp]
theorem pop_push (s : ScopeStack) : s.push.pop = s := rfl

@[simp]
theorem pop_pushLoop (s : ScopeStack) (targets : LoopTargets) :
    (s.pushLoop targets).pop = s := rfl

@[simp]
theorem innermostLoop?_pushLoop (s : ScopeStack) (targets : LoopTargets) :
    (s.pushLoop targets).innermostLoop? = some targets := rfl

@[simp]
theorem innermostLoop?_push (s : ScopeStack) : s.push.innermostLoop? = s.innermostLoop? := rfl

theorem resolve?_declare (s : ScopeStack) (name other : String) (storage : Storage) (ty : Ty) :
    (s.declare name storage ty).resolve? other =
      if name = other then some (storage, ty) else s.resolve? other := by
  cases s with
  | mk scopes =>
    cases scopes with
    | nil =>
      simp only [declare, resolve?, List.findSome?_cons, List.findSome?_nil,
        Std.ExtTreeMap.getElem?_insert, Std.compare_eq_iff_eq]
      split <;> simp_all
    | cons scope outer =>
      simp only [declare, resolve?, List.findSome?_cons, Std.ExtTreeMap.getElem?_insert,
        Std.compare_eq_iff_eq]
      by_cases h : name = other <;> simp [h]

end ScopeStack

end MxStar.Flow
