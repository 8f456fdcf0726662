import MxStar.Flow.Function
import MxStar.Proofs.Logged
import MxStar.Proofs.Memory

/-!
# Running flow graphs

A run of a function acts on its registers, on memory and on whatever the called
functions remember.  Arithmetic is that of machine words.  A stack cell stands
at the address the surroundings give it, from entry to exit.

What has no meaning is stuck: reading a register that has no value yet, loading
or storing a value of no size, going to a block that does not exist.  A call
that does not come back hangs.  `Function.run` follows control through a number
of blocks, and a record is kept of all accesses to memory and all calls.
-/

namespace MxStar.Flow

open Machine (Width)

/-- What an operator computes. -/
def ArithOp.apply : ArithOp → Word → Word → Word
  | .add, a, b => a + b
  | .sub, a, b => a - b
  | .mul, a, b => a * b
  | .sdiv, a, b => a.quotient b
  | .srem, a, b => a.remainder b
  | .shl, a, b => a.shiftLeft b
  | .ashr, a, b => a.shiftRight b
  | .and, a, b => a &&& b
  | .or, a, b => a ||| b
  | .xor, a, b => a ^^^ b

def Condition.holds : Condition → Word → Word → Bool
  | .eq, a, b => a == b
  | .ne, a, b => a != b
  | .slt, a, b => a.slt b
  | .sle, a, b => a.sle b
  | .sgt, a, b => b.slt a
  | .sge, a, b => b.sle a

/-- What can be seen of a run: its accesses to memory and its calls. -/
inductive Action
  | load (width : Width) (address : Word)
  | store (width : Width) (address value : Word)
  | call (function : String) (arguments : List Word)
deriving DecidableEq, Repr

/-- The surroundings of a function.  A called function answers with the memory
it leaves and with a value, or not at all; `World` is whatever it may remember
from one call to the next. -/
structure Environment (World : Type) where
  /-- The address of a global variable -/
  global : String → Word
  /-- The address of a pooled string -/
  string : StringId → Word
  /-- The address of a stack cell, by its place among the cells -/
  cell : Nat → Word
  call : World → String → List Word → Memory → Option (World × Memory × Word)

structure State (World : Type) where
  /-- The values of those registers that have one -/
  registers : RegisterId → Option Word
  memory : Memory
  world : World
  /-- What was done so far, the latest first -/
  trace : List Action

namespace State

variable {World : Type}

def value? (E : Environment World) (s : State World) : Operand → Option Word
  | .register r => s.registers r
  | .constant c => some c.bits
  | .global name => some (E.global name)
  | .string id => some (E.string id)

def assign (s : State World) (r : RegisterId) (w : Word) : State World :=
  { s with registers := fun q => if q = r then some w else s.registers q }

def assignAll (s : State World) (pairs : List (RegisterId × Word)) : State World :=
  pairs.foldl (fun s p => s.assign p.1 p.2) s

def load (s : State World) (r : RegisterId) (width : Width) (a : Word) : State World :=
  { s with trace := .load width a :: s.trace }.assign r (s.memory.read width a)

def store (s : State World) (width : Width) (a w : Word) : State World :=
  { s with memory := s.memory.write width a w, trace := .store width a w :: s.trace }

end State

/-- What executing an instruction comes to. -/
inductive Step (World : Type)
  | next (s : State World)
  /-- A call does not come back -/
  | hung (s : State World)
  | stuck

def Step.ofOption {World : Type} : Option (State World) → Step World
  | some s => .next s
  | none => .stuck

@[simp]
theorem Step.ofOption_eq_next {World : Type} {o : Option (State World)} {s : State World} :
    Step.ofOption o = .next s ↔ o = some s := by
  cases o <;> simp [ofOption]

@[simp]
theorem Step.ofOption_ne_hung {World : Type} (o : Option (State World)) (s : State World) :
    Step.ofOption o ≠ .hung s := by
  cases o <;> simp [ofOption]

variable {f : Function} {ty : Ty}

namespace Function

def registerType? (f : Function) (r : RegisterId) : Option Ty :=
  (f.registers.get? r).map RegisterInfo.ty

theorem registerType?_of_registerType (h : f.registerType r = .ok ty) :
    f.registerType? r = some ty := by
  obtain ⟨info, hfind, rfl⟩ := Except.bind_pure_eq_ok.mp h
  simp [registerType?, Table.find_eq_ok.mp hfind]

def operandType? (f : Function) : Operand → Option Ty
  | .register r => f.registerType? r
  | .constant c => some c.ty
  | .string _ => some .string
  | .global _ => some .anyPointer

theorem operandType?_of_operandType (h : f.operandType o = .ok ty) :
    f.operandType? o = some ty := by
  cases o with
  | register r => exact registerType?_of_registerType h
  | _ => exact congrArg some (Except.ok.inj h)

/-- The type of what a store writes: that of the place if it is known, else that
of the value. -/
def storedType? (p : Program) (f : Function) (value address : Operand) : Option Ty :=
  let known : Option Ty :=
    match address with
    | .register r => (f.registerType? r).bind Ty.pointee?
    | .global name => (p.globals.find? fun g => g.name == name).map Global.ty
    | _ => none
  known.or (f.operandType? value)

end Function

/-- How much memory a value of a type takes, unless it takes none. -/
def Ty.width? (ty : Ty) : Option Width :=
  if ty.size = 0 then none else some (.ofSize ty.size)

theorem Ty.eq_ofSize_of_width? {width : Width} (h : ty.width? = some width) :
    width = .ofSize ty.size := by
  simp only [width?] at h
  split at h
  · simp at h
  · exact (Option.some.inj h).symm

section

variable {World : Type}

/-- The distance of a member from the start of its object. -/
def Program.memberOffset? (p : Program) (struct : String) (field : Nat) : Option Nat := do
  let layout ← p.struct? struct
  let member ← layout.members[field]?
  return member.offset

def State.call (E : Environment World) (s : State World) (destination : Option RegisterId)
    (function : String) (arguments : List Word) : Step World :=
  let s := { s with trace := .call function arguments :: s.trace }
  match E.call s.world function arguments s.memory with
  | some (world, memory, result) =>
    let s := { s with world, memory }
    .next (match destination with
      | some d => s.assign d result
      | none => s)
  | none => .hung s

/-- Execute an instruction. -/
def Instr.exec (E : Environment World) (p : Program) (f : Function) (s : State World) :
    Instr → Step World
  | .alloca _ _ => .next s
  | .load d address => .ofOption do
    let width ← (← f.registerType? d).width?
    let a ← s.value? E address
    return s.load d width a
  | .store value address => .ofOption do
    let width ← (← f.storedType? p value address).width?
    let w ← s.value? E value
    let a ← s.value? E address
    return s.store width a w
  | .arith op d lhs rhs => .ofOption do
    let a ← s.value? E lhs
    let b ← s.value? E rhs
    return s.assign d (op.apply a b)
  | .compare condition d lhs rhs => .ofOption do
    let a ← s.value? E lhs
    let b ← s.value? E rhs
    return s.assign d (Word.ofBool (condition.holds a b))
  | .zeroExtend d value | .bitCast d value => .ofOption do
    let w ← s.value? E value
    return s.assign d w
  | .truncate d value => .ofOption do
    let w ← s.value? E value
    return s.assign d (w &&& 1)
  | .elementAddress d base element index => .ofOption do
    let a ← s.value? E base
    let i ← s.value? E index
    return s.assign d (a + i * BitVec.ofNat 32 element.size)
  | .memberAddress d base struct field => .ofOption do
    let offset ← p.memberOffset? struct field
    let a ← s.value? E base
    return s.assign d (a + BitVec.ofNat 32 offset)
  | .call d function arguments =>
    match arguments.mapM (s.value? E) with
    | some values => s.call E d function values
    | none => .stuck

theorem Instr.exec_ne_hung {E : Environment World} {p : Program} {f : Function} {s s' : State World}
    {i : Instr} (h : ∀ d function arguments, i ≠ .call d function arguments) :
    i.exec E p f s ≠ .hung s' := by
  cases i with
  | alloca d ty => simp [exec]
  | call d function arguments => exact absurd rfl (h d function arguments)
  | _ => exact Step.ofOption_ne_hung _ _

/-- The register an instruction gives a value; a stack cell has its address from
the entry on. -/
def Instr.assigned? : Instr → Option RegisterId
  | .alloca _ _ => none
  | i => i.destination?

def Terminator.operands : Terminator → List Operand
  | .branch condition _ _ => [condition]
  | .ret (some value) => [value]
  | .jump _ | .ret none => []

/-- Execute instructions, one after the other. -/
def runInstrs (E : Environment World) (p : Program) (f : Function) :
    List Instr → State World → Step World
  | [], s => .next s
  | i :: rest, s =>
    match i.exec E p f s with
    | .next s => runInstrs E p f rest s
    | step => step

/-- Where a run has got to. -/
inductive Outcome (World : Type)
  /-- Control is at the start of a block -/
  | at (block : BlockId) (s : State World)
  | returned (value : Option Word) (s : State World)
  | hung (s : State World)
  | stuck

/-- Leave a block. -/
def Terminator.exec (E : Environment World) (s : State World) : Terminator → Outcome World
  | .jump destination => .at destination s
  | .branch condition positive negative =>
    match s.value? E condition with
    | some w => .at (if w = 0 then negative else positive) s
    | none => .stuck
  | .ret none => .returned none s
  | .ret (some value) =>
    match s.value? E value with
    | some w => .returned (some w) s
    | none => .stuck

def Block.run (E : Environment World) (p : Program) (f : Function) (b : Block) (s : State World) :
    Outcome World :=
  match runInstrs E p f b.instrs.toList s with
  | .next s =>
    match b.terminator with
    | some t => t.exec E s
    | none => .stuck
  | .hung s => .hung s
  | .stuck => .stuck

theorem Block.mem_targets_of_run {E : Environment World} {p : Program} {f : Function} {b : Block}
    {s s' : State World} {next : BlockId} (h : b.run E p f s = .at next s') : next ∈ b.targets := by
  simp only [run] at h
  split at h
  · split at h
    · rename_i t ht
      simp only [targets, ht]
      cases t with
      | jump destination =>
        obtain ⟨rfl, -⟩ : destination = next ∧ _ := by simpa [Terminator.exec] using h
        simp [Terminator.successors]
      | branch condition positive negative =>
        simp only [Terminator.exec] at h
        split at h
        · simp only [Outcome.at.injEq] at h
          obtain ⟨rfl, -⟩ := h
          simp only [Terminator.successors]
          split <;> split <;> simp_all
        · simp at h
      | ret value =>
        cases value with
        | none => simp [Terminator.exec] at h
        | some value =>
          simp only [Terminator.exec] at h
          split at h <;> simp at h
    · simp at h
  · simp at h
  · simp at h

namespace Function

theorem forall₂_orderedBlocks {blocks : List (BlockId × Block)} (h : f.orderedBlocks = .ok blocks) :
    List.Forall₂ (fun id p => p.1 = id ∧ f.blocks.get? id = some p.2) f.layout blocks := by
  refine (List.forall₂_of_mapM_eq_ok h).imp fun id p hp => ?_
  obtain ⟨b, hb, rfl⟩ := Except.bind_pure_eq_ok.mp hp
  exact ⟨rfl, Table.find_eq_ok.mp hb⟩

def runBlock (f : Function) (E : Environment World) (p : Program) (b : BlockId)
    (s : State World) : Outcome World :=
  match f.blocks.get? b with
  | some block => block.run E p f s
  | none => .stuck

theorem mem_targets_of_runBlock {f : Function} {E : Environment World} {p : Program}
    {b next : BlockId} {s s' : State World} (h : f.runBlock E p b s = .at next s') :
    next ∈ f.targets b := by
  simp only [runBlock] at h
  split at h
  · rename_i block hblock
    simpa [targets, hblock] using Block.mem_targets_of_run h
  · simp at h

/-- Follow control through at most `count` blocks, the first of which is `b`. -/
def runFrom (f : Function) (E : Environment World) (p : Program) :
    (count : Nat) → (b : BlockId) → State World → Outcome World
  | 0, b, s => .at b s
  | count + 1, b, s =>
    match f.runBlock E p b s with
    | .at next s => f.runFrom E p count next s
    | outcome => outcome

def cellValues (f : Function) (E : Environment World) : List (RegisterId × Word) :=
  f.cells.toList.zipIdx.map fun (c, n) => (c.register, E.cell n)

/-- The state at the entry: stack cells have their addresses, and parameters the
values that are passed. -/
def start (f : Function) (E : Environment World) (arguments : List Word) (memory : Memory)
    (world : World) : State World :=
  let s : State World := { registers := fun _ => none, memory, world, trace := [] }
  (s.assignAll (f.cellValues E)).assignAll (f.parameters.zip arguments)

/-- Follow control from the entry through at most `count` blocks. -/
def run (f : Function) (E : Environment World) (p : Program) (arguments : List Word)
    (memory : Memory) (world : World) (count : Nat) : Outcome World :=
  f.runFrom E p count f.entry (f.start E arguments memory world)

end Function

end

end MxStar.Flow
