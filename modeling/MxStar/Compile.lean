import MxStar.Assembly.Emit
import MxStar.Flow.Unit
import MxStar.Machine.Allocation
import MxStar.Machine.Unit

/-!
# Compiling a unit

From the syntax tree of a unit to its assembly text: flow graphs, machine code
over virtual registers, allocation, text.
-/

namespace MxStar

open Machine (Options)

/-- Allocate the registers of a function. -/
def allocateFunction (options : Options) (f : Machine.Function) : Logged Machine.Function := do
  let (f, _, failure) ← f.allocateRegisters {} options
  match failure with
  | some e => throw e
  | none => return f

/-- The assembly text of flow graphs. -/
def generate (program : Flow.Program) (options : Options) : Logged String := do
  let selected ← Machine.Module.ofFlow program options
  let functions ← selected.functions.mapM (allocateFunction options)
  note (.generatedUnit functions.length selected.strings.length)
  ofExcept (Assembly.emit { selected with functions })

/-- The assembly text of a unit. -/
def compile (program : Source.Program) (symbols : Source.Symbols) (options : Options) :
    Logged String := do
  let flow ← Flow.Program.ofSource program symbols
  note (.loweredUnit (Text.withoutControls (← ofExcept (flow.listing options.style))))
  generate flow options

end MxStar
