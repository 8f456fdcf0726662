import MxStar.Machine.Function
import MxStar.Proofs.Memory

/-!
# Running machine code

The instructions of a function act on a register file, virtual registers
included, and on whatever stands behind it: memory, the stack frame and the
functions that are called.  A `Backing` says how these answer, so that the same
code can be run over a frame whose objects are mere names and over one that is
laid out in memory.

A run goes block by block.  `Function.run` follows control through a number of
blocks and tells where it has got to: to the start of another block, to a
return, or to an instruction that cannot be completed.

The key fact is that `Instr.effect`, which describes one instruction, looks at
the registers it reads and at nothing else (`effect_congr`), and that renaming
the registers of an instruction renames what it does (`effect_mapRegisters`).
-/

namespace MxStar.Machine

/-- Why a function stops without returning. -/
inductive Halt
  /-- A call does not come back -/
  | hung
  /-- The next instruction has no meaning -/
  | stuck
  /-- The instruction names an object that the frame does not have -/
  | outside
deriving DecidableEq, Repr

/-- What stands behind the registers.  `σ` is whatever it keeps. -/
structure Backing (σ : Type) where
  /-- The address of a label -/
  symbol : String → Word
  /-- The address of an object of the frame, from the stack pointer -/
  slotAddress : Word → SlotId → Except Halt Word
  /-- A value at an offset from a base -/
  load : σ → Width → Word → Offset → Except Halt (Word × σ)
  store : σ → Width → Word → Offset → (value : Word) → Except Halt σ
  /-- Calls a function that is passed so many arguments in registers; unless the
  call comes back, there are no registers after it -/
  call : σ → String → Nat → (Physical → Word) → σ × Option (Physical → Word)

/-- A called function looks at no register but those that carry its arguments. -/
def Backing.ReadsArguments {σ : Type} (B : Backing σ) : Prop :=
  ∀ store symbol arguments r r', (∀ p ∈ Physical.arguments.take arguments, r p = r' p) →
    B.call store symbol arguments r = B.call store symbol arguments r'

/-- Registers that may hold anything after a call. -/
def Physical.clobbered : List Physical :=
  scratch :: callerSaved

/-- Registers and what stands behind them. -/
structure State (σ : Type) where
  registers : Register → Word
  store : σ

namespace State

variable {σ : Type}

/-- The value of a register; the register that holds zero cannot be changed. -/
def get (s : State σ) (r : Register) : Word :=
  if r = .zero then 0 else s.registers r

def set (s : State σ) (r : Register) (value : Word) : State σ :=
  { s with registers := fun q => if q = r then value else s.registers q }

/-- The registers after a call: those that are saved by the caller are new. -/
def clobber (s : State σ) (after : Physical → Word) : State σ :=
  { s with registers := fun
    | .physical p => if p ∈ Physical.clobbered then after p else s.registers (.physical p)
    | .virtual v => s.registers (.virtual v) }

variable (s : State σ)
include s

@[simp]
theorem get_zero : s.get .zero = 0 := by
  simp [get]

theorem get_set_self (value : Word) (h : r ≠ .zero) : (s.set r value).get r = value := by
  simp [get, set, h]

theorem get_set_of_ne (value : Word) (h : q ≠ r) : (s.set r value).get q = s.get q := by
  simp [get, set, h]

theorem get_set (q r : Register) (value : Word) :
    (s.set r value).get q = if q = .zero then 0 else if q = r then value else s.get q := by
  by_cases hq : q = .zero
  · simp [hq]
  · by_cases hr : q = r
    · simp [hr, get_set_self s value (hr ▸ hq), hr ▸ hq]
    · simp [hq, hr, get_set_of_ne s value hr]

@[simp]
theorem store_set (r : Register) (value : Word) : (s.set r value).store = s.store :=
  rfl

@[simp]
theorem store_clobber (after : Physical → Word) : (s.clobber after).store = s.store :=
  rfl

@[simp]
theorem get_mk (store : σ) (r : Register) : ({ s with store } : State σ).get r = s.get r :=
  rfl

theorem get_clobber_physical (after : Physical → Word) (p : Physical) :
    (s.clobber after).get (.physical p) =
      if p ∈ Physical.clobbered then after p else s.get (.physical p) := by
  by_cases hp : p = .zero
  · subst hp
    rw [if_neg (by decide)]
    simp [get]
  · simp [get, clobber, hp]

@[simp]
theorem get_clobber_virtual (after : Physical → Word) (v : VirtualId) :
    (s.clobber after).get (.virtual v) = s.get (.virtual v) := by
  simp [get, clobber]

end State

/-- What executing one instruction comes to. -/
inductive Effect (σ : Type)
  /-- No register changes -/
  | next (store : σ)
  | write (rd : Register) (value : Word) (store : σ)
  /-- A call came back -/
  | clobber (after : Physical → Word) (store : σ)
  | goto (target : BlockId)
  | ret (value : Bool)
  | halt (reason : Halt) (store : σ)

def Effect.rename {σ : Type} (f : Register → Register) : Effect σ → Effect σ
  | .write rd value store => .write (f rd) value store
  | e => e

/-- What an effect says about the instruction that has it. -/
def Effect.Fits {σ : Type} (i : Instr) : Effect σ → Prop
  | .next _ => i.writes = []
  | .write rd _ _ => i.writes = [rd]
  | .clobber _ _ => ∃ symbol arguments, i = .call symbol arguments
  | .goto target => i.isTerminator = true ∧ target ∈ i.targets
  | .ret value => i = .ret value
  | .halt _ _ => True

namespace Instr

variable {σ : Type}

/-- What an instruction does, from the values of the registers. -/
def effect (B : Backing σ) (store : σ) (get : Register → Word) : Instr → Effect σ
  | .li rd value => .write rd value store
  | .la rd symbol => .write rd (B.symbol symbol) store
  | .mv rd rs => .write rd (get rs) store
  | .alu op rd rs1 rs2 => .write rd (op.apply (get rs1) (get rs2)) store
  | .aluImm op rd rs1 value =>
    if op.encodes value then .write rd (op.apply (get rs1) value) store else .halt .stuck store
  | .slotAddress rd slot =>
    match B.slotAddress (get .sp) slot with
    | .ok address => .write rd address store
    | .error reason => .halt reason store
  | .load width rd base offset =>
    match B.load store width (get base) offset with
    | .ok (value, store) => .write rd value store
    | .error reason => .halt reason store
  | .store width rs base offset =>
    match B.store store width (get base) offset (get rs) with
    | .ok store => .next store
    | .error reason => .halt reason store
  | .call symbol arguments =>
    match B.call store symbol arguments fun p => get (.physical p) with
    | (store, some after) => .clobber after store
    | (store, none) => .halt .hung store
  | .comment _ => .next store
  | .jump target => .goto target
  | .branch condition positive negative => .goto (if get condition = 0 then negative else positive)
  | .ret value => .ret value

/-- **An instruction looks only at what it reads.**  The stack pointer is added
because the address of an object is counted from it. -/
theorem effect_congr (hB : B.ReadsArguments) (store : σ) {get get' : Register → Word} (i : Instr)
    (hsp : get .sp = get' .sp) (h : ∀ r ∈ i.reads, get r = get' r) :
    i.effect B store get = i.effect B store get' := by
  cases i with
  | call symbol arguments =>
    have hcall : B.call store symbol arguments (fun p => get (.physical p)) =
        B.call store symbol arguments (fun p => get' (.physical p)) := by
      apply hB
      intro p hp
      exact h _ (List.mem_map_of_mem hp)
    simp only [effect, hcall]
  | slotAddress rd slot => simp only [effect, hsp]
  | _ => simp_all [effect, reads, operands]

theorem effect_mapRegisters (B : Backing σ) (store : σ) (get : Register → Word)
    {f : Register → Register} (hf : ∀ p, f (.physical p) = .physical p) (i : Instr) :
    (i.mapRegisters f).effect B store get = (i.effect B store fun r => get (f r)).rename f := by
  cases i with
  | aluImm op rd rs1 value =>
    simp only [mapRegisters, effect]
    split <;> rfl
  | slotAddress rd slot =>
    simp only [mapRegisters, effect, Register.sp, hf]
    split <;> rfl
  | load width rd base offset =>
    simp only [mapRegisters, effect]
    split <;> rfl
  | store width rs base offset =>
    simp only [mapRegisters, effect]
    split <;> rfl
  | call symbol arguments =>
    simp only [mapRegisters, effect, hf]
    split <;> rfl
  | _ => rfl

/-- **What an effect tells about the instruction.**  Only the register it names
as its own is written, only a call overwrites others, and control only goes to
its targets. -/
theorem effect_fits (B : Backing σ) (store : σ) (get : Register → Word) (i : Instr) :
    (i.effect B store get).Fits i := by
  cases i with
  | aluImm op rd rs1 value =>
    simp only [effect]
    split <;> simp [Effect.Fits, writes, operands]
  | slotAddress rd slot =>
    simp only [effect]
    split <;> simp [Effect.Fits, writes, operands]
  | load width rd base offset =>
    simp only [effect]
    split <;> simp [Effect.Fits, writes, operands]
  | store width rs base offset =>
    simp only [effect]
    split <;> simp [Effect.Fits, writes, operands]
  | call symbol arguments =>
    simp only [effect]
    split <;> simp [Effect.Fits]
  | branch condition positive negative =>
    simp only [effect, Effect.Fits, isTerminator, targets, true_and]
    split <;> simp
  | _ => simp [effect, Effect.Fits, writes, operands, isTerminator, targets]

theorem mem_uses {i : Instr} {r : Register} : r ∈ i.uses ↔ r ∈ i.reads ∧ r.isTracked = true := by
  simp [uses, List.mem_eraseDups]

theorem mem_defs {i : Instr} {r : Register} : r ∈ i.defs ↔ r ∈ i.writes ∧ r.isTracked = true := by
  simp [defs]

theorem writes_of_isTerminator {i : Instr} (h : i.isTerminator = true) : i.writes = [] := by
  cases i with
  | jump target => rfl
  | branch condition positive negative => rfl
  | ret value => rfl
  | _ => simp [isTerminator] at h

end Instr

/-- Where a run has got to. -/
inductive Outcome (σ : Type)
  /-- Control is at the start of a block -/
  | at (block : BlockId) (s : State σ)
  | returned (value : Bool) (s : State σ)
  | halted (reason : Halt) (s : State σ)

/-- Run a piece of code.  Code that ends without going anywhere is stuck. -/
def runCode {σ : Type} (B : Backing σ) : List Instr → State σ → Outcome σ
  | [], s => .halted .stuck s
  | i :: rest, s =>
    match i.effect B s.store s.get with
    | .next store => runCode B rest { s with store }
    | .write rd value store => runCode B rest (State.set { s with store } rd value)
    | .clobber after store => runCode B rest (State.clobber { s with store } after)
    | .goto target => .at target s
    | .ret value => .returned value s
    | .halt reason store => .halted reason { s with store }

/-- The code runs to its end and leaves the second state, whatever follows it. -/
def Runs {σ : Type} (B : Backing σ) (code : List Instr) (s s' : State σ) : Prop :=
  ∀ rest, runCode B (code ++ rest) s = runCode B rest s'

namespace Runs

variable {σ : Type} {B : Backing σ} {code : List Instr} {s : State σ}

theorem nil : Runs B [] s s := fun _ => rfl

theorem append (h : Runs B code s s') (h' : Runs B code' s' s'') :
    Runs B (code ++ code') s s'' := by
  intro rest
  rw [List.append_assoc, h, h']

variable {store : σ}

theorem next (h : i.effect B s.store s.get = .next store) : Runs B [i] s { s with store } := by
  intro rest
  rw [List.singleton_append, runCode, h]

theorem write (h : i.effect B s.store s.get = .write rd value store) :
    Runs B [i] s (State.set { s with store } rd value) := by
  intro rest
  rw [List.singleton_append, runCode, h]

theorem clobber {after : Physical → Word} (h : i.effect B s.store s.get = .clobber after store) :
    Runs B [i] s (State.clobber { s with store } after) := by
  intro rest
  rw [List.singleton_append, runCode, h]

end Runs

/-- The code comes to a call that does not come back. -/
def Hangs {σ : Type} (B : Backing σ) (code : List Instr) (s s' : State σ) : Prop :=
  ∀ rest, runCode B (code ++ rest) s = .halted .hung s'

namespace Hangs

variable {σ : Type} {code : List Instr}

theorem halt {store : σ} (h : i.effect B s.store s.get = .halt .hung store) :
    Hangs B [i] s { s with store } := by
  intro rest
  rw [List.singleton_append, runCode, h]

theorem append (h : Hangs B code s s') (code' : List Instr) : Hangs B (code ++ code') s s' := by
  intro rest
  rw [List.append_assoc, h]

theorem prepend (h : Hangs B code s' s'') (hrun : Runs B code' s s') :
    Hangs B (code' ++ code) s s'' := by
  intro rest
  rw [List.append_assoc, hrun, h]

end Hangs

namespace Function

variable {σ : Type}

def runBlock (f : Function) (B : Backing σ) (b : BlockId) (s : State σ) : Outcome σ :=
  match f.blocks.get? b with
  | some block => runCode B block.code s
  | none => .halted .stuck s

/-- Follow control through at most `count` blocks, the first of which is `b`. -/
def runFrom (f : Function) (B : Backing σ) : (count : Nat) → (b : BlockId) → State σ → Outcome σ
  | 0, b, s => .at b s
  | count + 1, b, s =>
    match f.runBlock B b s with
    | .at next s => f.runFrom B count next s
    | outcome => outcome

def run (f : Function) (B : Backing σ) (count : Nat) (s : State σ) : Outcome σ :=
  f.runFrom B count f.entry s

end Function

/-- Only the last instruction of the code may be a terminator. -/
def TerminatorLast : List Instr → Prop
  | [] => True
  | i :: rest => (i.isTerminator = true → rest = []) ∧ TerminatorLast rest

instance TerminatorLast.decidable : (code : List Instr) → Decidable (TerminatorLast code)
  | [] => inferInstanceAs (Decidable True)
  | i :: rest =>
    have := TerminatorLast.decidable rest
    inferInstanceAs (Decidable ((i.isTerminator = true → rest = []) ∧ TerminatorLast rest))

def Function.TerminatorsLast (f : Function) : Prop :=
  ∀ block ∈ f.blocks.entries.toList, TerminatorLast block.code

instance (f : Function) : Decidable f.TerminatorsLast :=
  inferInstanceAs (Decidable (∀ block ∈ f.blocks.entries.toList, TerminatorLast block.code))

theorem Function.TerminatorsLast.of_get? {f : Function} (h : f.TerminatorsLast) {b : BlockId}
    {block : Block} (hb : f.blocks.get? b = some block) : TerminatorLast block.code :=
  h block (Array.mem_toList_iff.mpr (Array.mem_of_getElem? hb))

end MxStar.Machine
