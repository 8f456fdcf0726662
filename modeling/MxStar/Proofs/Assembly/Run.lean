import MxStar.Assembly.Emit
import MxStar.Proofs.Machine.Run
import MxStar.Proofs.Text.Lines

/-!
# Running assembly text

Once the frame is laid out, every object of it stands in memory, and two runs of
a function can be compared: the run of its instructions over the laid-out frame,
and the run of the lines that are printed for it.

An instruction of the function means what its offset resolves to.  Before the
first block the stack pointer moves down by the size of the frame and registers
are saved in it; a return restores them (`Function.runIn`).

A line means one machine instruction (`Line.instr?`), or it is a label or a jump
to one.  A comment means nothing, as long as it is one line: what stands behind a
line break in it is no longer part of the comment.  Lines are run from one label
to the next, whether control falls through to it or jumps, so a stop of the run
is a label that is passed (`Stop`).
-/

namespace MxStar.Assembly

open Machine (Register Physical FrameLayout Function Instr Offset SlotId Width Backing Halt State
  Effect Outcome)

def isWord (value : Int) : Bool :=
  decide (-2147483648 ≤ value ∧ value ≤ 2147483647)

/-- What can be seen of a run: its accesses to memory and its calls. -/
inductive Action
  | load (width : Width) (address : Word)
  | store (width : Width) (address value : Word)
  | call (symbol : String) (registers : Physical → Word)

/-- The surroundings of a function.  A called function sees the registers and
answers with the memory it leaves and with the registers it may overwrite, or not
at all; `World` is whatever it may remember from one call to the next. -/
structure Environment (World : Type) where
  /-- The address of a label -/
  symbol : String → Word
  call : World → String → (Physical → Word) → Memory → Option (World × Memory × (Physical → Word))

/-- What stands behind the registers when the frame is laid out. -/
structure Store (World : Type) where
  memory : Memory
  world : World
  /-- What was done so far, the latest first -/
  trace : List Action

section

variable {World : Type}

namespace Store

def load (store : Store World) (width : Width) (address : Word) : Word × Store World :=
  (store.memory.read width address, { store with trace := .load width address :: store.trace })

def save (store : Store World) (width : Width) (address value : Word) : Store World :=
  { store with
    memory := store.memory.write width address value
    trace := .store width address value :: store.trace }

/-- Call a function.  The scratch register is nobody's, so it does not see it. -/
def call (E : Environment World) (store : Store World) (symbol : String)
    (registers : Physical → Word) : Store World × Option (Physical → Word) :=
  let registers := fun p => if p = Physical.scratch then 0 else registers p
  let store := { store with trace := .call symbol registers :: store.trace }
  match E.call store.world symbol registers store.memory with
  | some (world, memory, after) => ({ store with world, memory }, some after)
  | none => (store, none)

end Store

/-- Instructions run over memory, with offsets resolved in some way. -/
def Environment.backing (E : Environment World) (resolve : Offset → Except Error Int) :
    Backing (Store World) where
  symbol := E.symbol
  slotAddress sp slot :=
    match resolve (.slot slot) with
    | .ok value => .ok (sp + BitVec.ofInt 32 value)
    | .error _ => .error .outside
  load store width base offset :=
    match resolve offset with
    | .ok value => .ok (store.load width (base + BitVec.ofInt 32 value))
    | .error _ => .error .outside
  store store width base offset value :=
    match resolve offset with
    | .ok distance => .ok (store.save width (base + BitVec.ofInt 32 distance) value)
    | .error _ => .error .outside
  call store symbol _ registers := store.call E symbol registers

/-! ## Instructions over a laid-out frame -/

def saveAll (s : State (Store World)) (saved : List (Physical × Nat)) : State (Store World) :=
  saved.foldl (fun s (p, offset) =>
    { s with
      store := s.store.save .word (s.get .sp + BitVec.ofNat 32 offset) (s.get (.physical p)) }) s

def restoreAll (s : State (Store World)) (saved : List (Physical × Nat)) : State (Store World) :=
  saved.foldl (fun s (p, offset) =>
    let (value, store) := s.store.load .word (s.get .sp + BitVec.ofNat 32 offset)
    State.set { s with store } (.physical p) value) s

/-- Make room for a frame, unless it is empty, and save registers in it. -/
def enter (layout : FrameLayout) (s : State (Store World)) : State (Store World) :=
  if layout.size = 0 then s
  else saveAll (s.set .sp (s.get .sp - BitVec.ofNat 32 layout.size)) layout.saved

def leave (layout : FrameLayout) (s : State (Store World)) : State (Store World) :=
  if layout.size = 0 then s
  else
    let s := restoreAll s layout.saved
    s.set .sp (s.get .sp + BitVec.ofNat 32 layout.size)

/-- Run a function over its frame: through at most `count` blocks from the entry. -/
def Function.runIn (f : Function) (layout : FrameLayout) (E : Environment World) (count : Nat)
    (s : State (Store World)) : Outcome (Store World) :=
  match f.run (E.backing layout.resolve) count (enter layout s) with
  | .returned value s => .returned value (leave layout s)
  | outcome => outcome

/-! ## Lines -/

/-- A line without a frame: offsets are numbers. -/
def immediate : Offset → Except Error Int
  | .immediate value => .ok value.toInt
  | _ => .error .outOfRange

/-- The instruction that a line stands for, as far as the machine has it.  A
number has to fit the place it is written in. -/
def Line.instr? : Line → Option Instr
  | .li rd value => if isWord value then some (.li rd (BitVec.ofInt 32 value)) else none
  | .la rd symbol => some (.la rd symbol)
  | .mv rd rs => some (.mv rd rs)
  | .alu op rd rs1 rs2 => some (.alu op rd rs1 rs2)
  | .aluImm op rd rs1 value =>
    if isWord value then some (.aluImm op rd rs1 (BitVec.ofInt 32 value)) else none
  | .load width rd base offset =>
    if fitsImmediate offset then
      some (.load width rd base (.immediate (BitVec.ofInt 32 offset)))
    else none
  | .store width rs base offset =>
    if fitsImmediate offset then
      some (.store width rs base (.immediate (BitVec.ofInt 32 offset)))
    else none
  | .call symbol => some (.call symbol 0)
  -- nothing is done here, which is what a comment does
  | .comment text => if Text.IsLine text then some (.comment "") else none
  | .globl _ | .alignWord => some (.comment "")
  | _ => none

/-- The lines after a label.  Of several definitions the last one counts. -/
def after (name : String) : List Line → Option (List Line)
  | [] => none
  | line :: rest =>
    match after name rest with
    | some found => some found
    | none => if line.defines? = some name then some rest else none

/-- Where a run of lines has got to. -/
inductive Stop (σ : Type)
  /-- Control is at a label, before the given lines -/
  | at (label : String) (rest : List Line) (s : State σ)
  | returned (s : State σ)
  | halted (reason : Halt) (s : State σ)

def goTo {σ : Type} (text : List Line) (name : String) (s : State σ) : Stop σ :=
  match after name text with
  | some rest => .at name rest s
  | none => .halted .stuck s

def runLines {σ : Type} (B : Backing σ) (text : List Line) : List Line → State σ → Stop σ
  | [], s => .halted .stuck s
  | line :: rest, s =>
    match line.instr? with
    | some i =>
      match i.effect B s.store s.get with
      | .next store => runLines B text rest { s with store }
      | .write rd value store => runLines B text rest (State.set { s with store } rd value)
      | .clobber after store => runLines B text rest (State.clobber { s with store } after)
      | .halt reason store => .halted reason { s with store }
      | _ => .halted .stuck s
    | none =>
      match line with
      | .label name => .at name rest s
      | .jump target => goTo text target s
      | .bnez condition target =>
        if s.get condition = 0 then runLines B text rest s else goTo text target s
      | .beqz condition target =>
        if s.get condition = 0 then goTo text target s else runLines B text rest s
      | .ret => .returned s
      | _ => .halted .stuck s

theorem runLines_instr {σ : Type} {B : Backing σ} {text : List Line} {line : Line} {i : Instr}
    (hi : line.instr? = some i) (rest : List Line) (s : State σ) :
    runLines B text (line :: rest) s =
      match i.effect B s.store s.get with
      | .next store => runLines B text rest { s with store }
      | .write rd value store => runLines B text rest (State.set { s with store } rd value)
      | .clobber after store => runLines B text rest (State.clobber { s with store } after)
      | .halt reason store => .halted reason { s with store }
      | _ => .halted .stuck s := by
  rw [runLines.eq_def]
  simp only [hi]

/-- Pass so many labels. -/
def runText {σ : Type} (B : Backing σ) (text : List Line) : Nat → Stop σ → Stop σ
  | count + 1, .at _ rest s => runText B text count (runLines B text rest s)
  | _, stop => stop

@[simp]
theorem runText_returned {σ : Type} (B : Backing σ) (text : List Line) (count : Nat)
    (s : State σ) : runText B text count (.returned s) = .returned s := by
  cases count <;> rfl

@[simp]
theorem runText_halted {σ : Type} (B : Backing σ) (text : List Line) (count : Nat) (reason : Halt)
    (s : State σ) : runText B text count (.halted reason s) = .halted reason s := by
  cases count <;> rfl

end

end MxStar.Assembly
