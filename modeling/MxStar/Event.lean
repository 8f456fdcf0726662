import MxStar.Error

/-!
# Events

Stages report what they do as events.  A `Logged` computation collects them in
order and keeps those noted before an error stopped it.
-/

namespace MxStar

/-- How much detail an event is. -/
inductive Level
  | debug
  | trace
deriving DecidableEq, Repr

/-- The level as a log shows it. -/
def Level.title : Level → String
  | .debug => "DEBUG"
  | .trace => "TRACE"

/-- What a stage reports. -/
inductive Event
  | loweringFunction (name : String)
  | loweredFunction (name : String) (blocks registers : Nat)
  | droppedInstruction (label : String)
  | droppedTerminator (label : String)
  | prunedBlocks (count : Nat) (function : String)
  | loweredUnit (listing : String)
  | selectedCode (count : Nat) (function : String)
  | livenessConverged (function : String) (visits : Nat)
  | allocated (function : String) (colors rounds : Nat)
  | spilled (function : String) (round : Nat) (registers : List Machine.VirtualId)
  | generatedUnit (functions strings : Nat)
deriving Repr

namespace Event

/-- The level of an event. -/
def level : Event → Level
  | .loweringFunction _ | .loweredFunction _ _ _ | .allocated _ _ _ | .spilled _ _ _
  | .generatedUnit _ _ => .debug
  | .droppedInstruction _ | .droppedTerminator _ | .prunedBlocks _ _ | .loweredUnit _
  | .selectedCode _ _ | .livenessConverged _ _ => .trace

/-- The wording of an event. -/
def message : Event → String
  | .loweringFunction name => s!"lowering function `{name}`"
  | .loweredFunction name blocks registers =>
    s!"lowered `{name}` into {blocks} blocks and {registers} registers"
  | .droppedInstruction label => s!"dropping dead instruction in `{label}`"
  | .droppedTerminator label => s!"dropping dead terminator in `{label}`"
  | .prunedBlocks count function => s!"pruned {count} unreachable blocks from `{function}`"
  | .loweredUnit listing => "lowered IR:\n" ++ listing
  | .selectedCode count function => s!"selected {count} instructions for `{function}`"
  | .livenessConverged function visits =>
    s!"liveness of `{function}` converged after {visits} block visits"
  | .allocated function colors rounds =>
    s!"allocated `{function}` with {colors} colours in {rounds} rounds"
  | .spilled function round registers =>
    let list := ", ".intercalate (registers.map fun v => (Machine.Register.virtual v).display)
    s!"round {round} of `{function}` spills {list}"
  | .generatedUnit functions strings =>
    s!"generated code for {functions} functions and {strings} strings"

/-- The event as a line of a log. -/
def line (e : Event) : String :=
  e.level.title ++ " " ++ e.message

/-- Whether a log of the given level shows the event. -/
def isShown (level : Level) (e : Event) : Bool :=
  level == .trace || e.level == .debug

end Event

/-- Events in the order in which they were noted. -/
abbrev Log := Array Event

/-- A computation that notes events and may stop with an error. -/
abbrev Logged := EStateM Error Log

/-- Report an event. -/
def note (e : Event) : Logged Unit :=
  modify (·.push e)

end MxStar
