import MxStar.Proofs.Machine.Run

/-!
# Frames whose objects are names

Before a frame is laid out, its objects have no addresses yet.  Here the objects
that a function was born with stand somewhere in memory, wherever the
surroundings put them, and what it passes or is passed on the stack are words
of their own.  Objects that were added later to hold spilled registers are
words of their own too, so no other access can meet them: only the accesses
that name such an object change it.

`Environment.backing` turns this into something code can run over.  It keeps a
record of all accesses to memory and of all calls, each call with the registers
and the stack words it passes, so two runs with equal records have done the same
things in the same order.  `Outcome.view` is what can be seen of a run from
outside: everything but the spilled registers.
-/

namespace MxStar.Machine

structure Call where
  symbol : String
  /-- The values of the argument registers it is passed -/
  arguments : List Word
  /-- The words passed on the stack -/
  stack : Nat → Option Word

/-- What can be seen of a run: its accesses to memory and its calls. -/
inductive Observed
  | load (width : Width) (address : Word)
  | store (width : Width) (address value : Word)
  | call (c : Call)

/-- The surroundings of a function.  A called function answers with the memory
it leaves and with the registers it may overwrite, or not at all; `World` is
whatever it may remember from one call to the next. -/
structure Environment (World : Type) where
  /-- The address of a label -/
  symbol : String → Word
  /-- Where an object of the frame stands, counted from the stack pointer -/
  slot : SlotId → Word
  call : World → Call → Memory → Option (World × Memory × (Physical → Word))

/-- What stands behind the registers while frames are symbolic. -/
structure Store (World : Type) where
  memory : Memory
  world : World
  /-- What was done so far, the latest first -/
  trace : List Observed
  /-- The arguments of the function that were passed on the stack -/
  incoming : Nat → Word
  /-- The stack words of the next call, as far as they are stored -/
  outgoing : Nat → Option Word
  /-- Registers that were moved to the frame -/
  spilled : SlotId → Word

namespace Store

variable {World : Type}

def load (store : Store World) (width : Width) (address : Word) : Word × Store World :=
  (store.memory.read width address, { store with trace := .load width address :: store.trace })

def save (store : Store World) (width : Width) (address value : Word) : Store World :=
  { store with
    memory := store.memory.write width address value
    trace := .store width address value :: store.trace }

def spill (store : Store World) (slot : SlotId) (value : Word) : Store World :=
  { store with spilled := fun id => if id = slot then value else store.spilled id }

def hide (store : Store World) : Store World :=
  { store with spilled := fun _ => 0 }

end Store

namespace Environment

variable {World : Type} (E : Environment World)

/-- Code runs over a frame whose first `shared` objects stand in memory and whose
next ones, up to `total`, hold spilled registers. -/
def backing (shared total : Nat) : Backing (Store World) where
  symbol := E.symbol
  slotAddress sp slot := if slot.val < shared then .ok (sp + E.slot slot) else .error .outside
  load store width base
    | .immediate value => .ok (store.load width (base + value))
    | .slot id =>
      if id.val < shared then .ok (store.load width (base + E.slot id))
      else if id.val < total then .ok (width.part (store.spilled id), store)
      else .error .outside
    | .incoming n => .ok (width.part (store.incoming n), store)
    | .outgoing n =>
      match store.outgoing n with
      | some word => .ok (width.part word, store)
      | none => .error .stuck
  store store width base offset value :=
    match offset with
    | .immediate distance => .ok (store.save width (base + distance) value)
    | .slot id =>
      if id.val < shared then .ok (store.save width (base + E.slot id) value)
      else if id.val < total then .ok (store.spill id (width.merge (store.spilled id) value))
      else .error .outside
    | .incoming n =>
      .ok { store with
        incoming := fun m => if m = n then width.merge (store.incoming n) value else
          store.incoming m }
    | .outgoing n =>
      .ok { store with
        outgoing := fun m =>
          if m = n then some (width.merge ((store.outgoing n).getD 0) value) else store.outgoing m }
  call store symbol arguments registers :=
    let c : Call :=
      { symbol, arguments := (Physical.arguments.take arguments).map registers
        stack := store.outgoing }
    let store := { store with trace := .call c :: store.trace, outgoing := fun _ => none }
    match E.call store.world c store.memory with
    | some (world, memory, after) => ({ store with world, memory }, some after)
    | none => (store, none)

theorem readsArguments_backing (shared total : Nat) : (E.backing shared total).ReadsArguments := by
  intro store symbol arguments r r' h
  have hargs : (Physical.arguments.take arguments).map r =
      (Physical.arguments.take arguments).map r' := List.map_congr_left h
  simp only [backing, hargs]

end Environment

/-- What can be seen of a run from outside. -/
inductive View (World : Type)
  | at (block : BlockId) (store : Store World)
  /-- The value is there if the function returns one -/
  | returned (value : Option Word) (store : Store World)
  | halted (reason : Halt) (store : Store World)

/-- What can be seen of an outcome: everything but registers, spilled ones included. -/
def Outcome.view {World : Type} : Outcome (Store World) → View World
  | .at block s => .at block s.store.hide
  | .returned value s =>
    .returned (if value then some (s.get (.physical Physical.result)) else none) s.store.hide
  | .halted reason s => .halted reason s.store.hide

/-- The run came to an instruction that names an object the frame does not have. -/
def Outcome.IsOutside {σ : Type} : Outcome σ → Prop
  | .halted .outside _ => True
  | _ => False

end MxStar.Machine
