import MxStar.Machine.Function

/-!
# Spilling

A spilled register lives in the frame.  Each instruction that names it works on
a fresh temporary instead, which is loaded right before the instruction if it
reads the register and stored right after it if it writes the register.  The
temporaries live so briefly that spilling them again would gain nothing.
-/

namespace MxStar.Machine

/-- The object of the frame that each spilled register lives in. -/
abbrev SpillSlots := Std.ExtTreeMap VirtualId SlotId

/-- Give each register an object of the frame. -/
def allocateSlots (frame : Frame) (registers : List VirtualId) : Frame × SpillSlots :=
  registers.foldl (fun (frame, slots) v =>
    let (slot, frame) := frame.allocate wordSize wordSize
    (frame, slots.insert v slot)) (frame, ∅)

namespace Instr

/-- The spilled registers among those the instruction names with a given access. -/
def spilledOperands (i : Instr) (slots : SpillSlots) (accesses : List Access) : List VirtualId :=
  ((i.operands.filter fun (_, access) => access ∈ accesses).filterMap fun (r, _) =>
    r.virtual?.filter slots.contains).eraseDups

/-- Temporaries, numbered from `next` on, for the spilled registers an instruction names. -/
def temporaries (i : Instr) (slots : SpillSlots) (next : Nat) : List (VirtualId × VirtualId) :=
  (i.spilledOperands slots [.use, .define]).zipIdx.map fun (v, k) => (v, .ofNat (next + k))

end Instr

/-- A register, or the temporary that stands for it. -/
def renameBy (temporaries : List (VirtualId × VirtualId)) : Register → Register
  | .virtual v => .virtual ((temporaries.lookup v).getD v)
  | .physical p => .physical p

/-- The temporaries of registers together with the slots they stand for. -/
def slotTemporaries (slots : SpillSlots) (temporaries : List (VirtualId × VirtualId))
    (registers : List VirtualId) : List (Register × SlotId) :=
  registers.filterMap fun v => do return (renameBy temporaries (.virtual v), ← slots[v]?)

/-- The code that takes the place of an instruction. -/
def Instr.spill (i : Instr) (slots : SpillSlots) (next : Nat) : List Instr :=
  let temporaries := i.temporaries slots next
  let reloads := slotTemporaries slots temporaries (i.spilledOperands slots [.use])
  let stores := slotTemporaries slots temporaries (i.spilledOperands slots [.define])
  reloads.map (fun (r, slot) => .load .word r .sp (.slot slot)) ++
    [i.mapRegisters (renameBy temporaries)] ++
    stores.map (fun (r, slot) => .store .word r .sp (.slot slot))

/-- The code that takes the place of a piece of code, and the next free number. -/
def spillCode (slots : SpillSlots) (next : Nat) : List Instr → List Instr × Nat
  | [] => ([], next)
  | i :: rest =>
    let (code, next') := spillCode slots (next + (i.temporaries slots next).length) rest
    (i.spill slots next ++ code, next')

/-- Spill in one block after the other. -/
def spillBlocks (slots : SpillSlots) (next : Nat) : List Block → List Block × Nat
  | [] => ([], next)
  | b :: rest =>
    let (code, next) := spillCode slots next b.code
    let (blocks, next) := spillBlocks slots next rest
    ({ b with code } :: blocks, next)

/-- Move registers of a function to its frame. -/
def Function.spill (f : Function) (registers : List VirtualId) : Function :=
  let (frame, slots) := allocateSlots f.frame registers
  let (blocks, virtuals) := spillBlocks slots f.virtuals f.blocks.entries.toList
  let added := (List.range' f.virtuals (virtuals - f.virtuals)).map Index.ofNat
  { f with
    frame
    blocks := ⟨blocks.toArray⟩
    virtuals
    unspillable := f.unspillable.insertMany added }

end MxStar.Machine
