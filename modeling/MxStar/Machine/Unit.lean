import MxStar.Event
import MxStar.Machine.Selection

/-!
# Machine code of a unit

`Module.ofFlow` selects the code of a whole unit, function by function, and
places its strings and globals.
-/

namespace MxStar.Machine

/-- Select a function and report how much code that gave. -/
def selectFunction (program : Flow.Program) (options : Options) (source : Flow.Function) :
    Logged Function := do
  let f ← ofExcept (Function.ofFlow program source options)
  note (.selectedCode f.code.length f.name)
  return f

/-- Select a whole unit. -/
def Module.ofFlow (program : Flow.Program) (options : Options) : Logged Module := do
  let strings := program.strings.toList.map fun (id, value) => (stringLabel id, value)
  let globals ← ofExcept (program.globals.mapM DataItem.ofFlow)
  let functions ← program.allFunctions.mapM (selectFunction program options)
  return { strings, globals, functions }

end MxStar.Machine
