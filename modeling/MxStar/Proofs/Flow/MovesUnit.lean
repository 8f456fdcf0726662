import MxStar.Proofs.Flow.UnitBodies

/-!
# The bodies of a unit, one after the other

The bodies of a unit share its strings and the numbers of its labels.  `Bodies` is a
list of functions that were built by moves in turn, each from where the one before it
stopped.  What every move keeps then holds of every function, and what the unit shares
can be followed through all of them.
-/

namespace MxStar.Flow

open Build
open Source (Symbols Definition FunctionDef)

def openedBlocks (label : Nat) : Table .block Block :=
  ⟨#[{ label := s!"entry{label}", terminator := some (.jump ⟨1⟩) },
    { label := s!"exit{label + 1}" }]⟩

theorem openBlocks_cases (hblocks : s.function.blocks = ∅) (h : openBlocks s = .ok a s') :
    s'.function.blocks = openedBlocks s.nextLabel ∧ s'.strings = s.strings ∧
      s'.nextLabel = s.nextLabel + 2 ∧ s'.scopes = s.scopes.push ∧
      s'.function.name = s.function.name := by
  injection h with _ hs'
  subst hs'
  refine ⟨?_, rfl, rfl, rfl, rfl⟩
  rw [hblocks]
  rfl

/-- A function whose body was built by moves from entry and exit on, with the strings and
the label numbers of its unit before and after. -/
structure Body (V : Vocabulary) (unit unit' : UnitState) (source : BodySource) (f : Function) :
    Prop where
  name : f.name = source.name
  moves : ∃ opened closed : Builder, opened.function.blocks = openedBlocks unit.nextLabel ∧
    opened.strings = unit.strings ∧ opened.nextLabel = unit.nextLabel + 2 ∧
    Moves V opened closed ∧ (∃ layout, { closed.function with layout }.rebuildEdges = .ok f) ∧
    unit'.strings = closed.strings ∧ unit'.nextLabel = closed.nextLabel

/-- Functions that were built in turn, each from where the one before it stopped. -/
inductive Bodies (V : Vocabulary) : UnitState → List BodySource → List Function → UnitState → Prop
  | nil {unit unit' : UnitState} (hstrings : unit'.strings = unit.strings)
    (hlabel : unit'.nextLabel = unit.nextLabel) : Bodies V unit [] [] unit'
  | cons {unit unit1 unit' : UnitState} {source : BodySource} {sources : List BodySource}
    {f : Function} {fs : List Function} (head : Body V unit unit1 source f)
    (tail : Bodies V unit1 sources fs unit') : Bodies V unit (source :: sources) (f :: fs) unit'

variable {V : Vocabulary}

theorem Moves.name (h : Moves V s s') : s'.function.name = s.function.name := by
  induction h with
  | refl => rfl
  | tail _ hmove ih => cases hmove <;> exact ih

variable {unit unit' : UnitState}

theorem Body.of_shared (h : Body V unit unit' source f) (hstrings : unit.strings = unit0.strings)
    (hlabel : unit.nextLabel = unit0.nextLabel) : Body V unit0 unit' source f := by
  refine ⟨h.name, ?_⟩
  rw [← hlabel, ← hstrings]
  exact h.moves

theorem Bodies.of_shared (h : Bodies V unit sources fs unit')
    (hstrings : unit.strings = unit0.strings) (hlabel : unit.nextLabel = unit0.nextLabel) :
    Bodies V unit0 sources fs unit' := by
  cases h with
  | nil hstrings' hlabel' => exact .nil (hstrings'.trans hstrings) (hlabel'.trans hlabel)
  | cons head tail => exact .cons (head.of_shared hstrings hlabel) tail

theorem Body.single (h : Body V unit unit' source f) : Bodies V unit [source] [f] unit' :=
  .cons h (.nil rfl rfl)

theorem Bodies.append (h : Bodies V unit sources fs unit1)
    (h' : Bodies V unit1 sources' fs' unit') :
    Bodies V unit (sources ++ sources') (fs ++ fs') unit' := by
  induction h with
  | nil hstrings hlabel => exact h'.of_shared hstrings hlabel
  | cons head _ ih => exact .cons head (ih h')

theorem Bodies.names (h : Bodies V unit sources fs unit') :
    fs.map Function.name = sources.map BodySource.name := by
  induction h with
  | nil => rfl
  | cons head _ ih => simp [head.name, ih]

def constructorDef (c : Source.ClassDef) (body : List Source.Stmt) : FunctionDef :=
  { name := c.name, returnType := .void, parameters := [], body }

/-- What the globals that are computed later are computed by. -/
def initializerSources (deferred : List (String × Source.Expr)) : List BodySource :=
  if deferred.isEmpty then []
  else [{ name := Linkage.globalInitializer, returnType := .void }]

/-- What the bodies of a unit may mention.  A constructor is called for a new object, and
otherwise only if a function or method that is declared has its symbol. -/
def Program.vocabulary (program : Program) (symbols : Symbols) : Vocabulary where
  structs := program.structs
  globals := program.globals
  calls symbol := (symbols.function? symbol).isSome ∨
    (∃ className method, symbols.hasMethod className method = true ∧
      symbol = Linkage.methodSymbol className method) ∨
    symbol ∈ Linkage.support ∨
    program.initializer.isSome ∧ symbol = Linkage.globalInitializer

end MxStar.Flow
