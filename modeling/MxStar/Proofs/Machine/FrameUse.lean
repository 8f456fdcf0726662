import MxStar.Proofs.Machine.Naming
import MxStar.Proofs.Memory

/-!
# How code uses its frame

An instruction reaches into the frame only through the stack pointer, and only where the
frame has something: an object, an argument that was passed on the stack, or the room for
the arguments of a call (`Instr.Framed`).  Apart from calls it writes no reserved register.
A number in an instruction is one that it has room for.
-/

namespace MxStar.Machine

/-- What a frame has to offer to the code that runs in it. -/
structure FrameUse where
  slots : Nat
  /-- The number of arguments that were passed to the function on the stack -/
  incoming : Nat
  /-- The room for arguments that the function passes on the stack -/
  outgoing : Nat
  /-- Whether the return address is saved -/
  calls : Bool
  /-- The objects that may be accessed in a width -/
  suits : SlotId → Width → Prop

/-- An offset that a base register may have where memory is accessed in a width. -/
def Offset.Within (u : FrameUse) (base : Register) (access : Access) (width : Width) :
    Offset → Prop
  | .immediate _ => True
  | .slot id => base = .sp ∧ id.val < u.slots ∧ u.suits id width
  | .incoming n => base = .sp ∧ access = .use ∧ n < u.incoming
  | .outgoing n => base = .sp ∧ access = .define ∧ n < u.outgoing

/-- The instruction uses the frame as it is meant to be used, writes no reserved register
unless it is a call, and has room for its number. -/
def Instr.Framed (u : FrameUse) : Instr → Prop
  | .li rd _ | .la rd _ | .mv rd _ | .alu _ rd _ _ => rd.isTracked = true
  | .aluImm op rd _ value => rd.isTracked = true ∧ op.encodes value = true
  | .slotAddress rd slot => rd.isTracked = true ∧ slot.val < u.slots
  | .load width rd base offset => rd.isTracked = true ∧ offset.Within u base .use width
  | .store width _ base offset => offset.Within u base .define width
  | .call _ _ => u.calls = true
  | .comment _ | .jump _ | .branch _ _ _ | .ret _ => True

def CodeFramed (u : FrameUse) (code : List Instr) : Prop :=
  ∀ i ∈ code, i.Framed u

/-- Calls seen so far fit the frame. -/
structure Naming.Within (u : FrameUse) (n : Naming) : Prop where
  outgoing : n.outgoing ≤ u.outgoing
  calls : n.makesCalls = true → u.calls = true

theorem Naming.Within.of_grows {u : FrameUse} {n n' : Naming} (h : n'.Within u)
    (hgrows : n.Grows n') : n.Within u :=
  ⟨hgrows.outgoing.trans h.outgoing, fun hcalls => h.calls (hgrows.calls hcalls)⟩

/-- The objects of cells may be accessed as an instruction does. -/
def Selector.Suits (sel : Selector) (suits : SlotId → Width → Prop) (i : Flow.Instr) : Prop :=
  ∀ r slot ty, sel.slot? r = some slot →
    (∀ d, i = .load d (.register r) → sel.source.registerType d = .ok ty →
      suits slot (.ofSize ty.size)) ∧
    ∀ value, i = .store value (.register r) → sel.storedType value (.register r) = .ok ty →
      suits slot (.ofSize ty.size)

/-- A frame that has all objects of a function and does not ask how they are accessed. -/
def Selector.anyUse (sel : Selector) : FrameUse where
  slots := sel.source.cells.size
  incoming := sel.source.parameters.length
  outgoing := 0
  calls := false
  suits _ _ := True

theorem Selector.suits_anyUse (sel : Selector) (i : Flow.Instr) : sel.Suits sel.anyUse.suits i :=
  fun _ _ _ _ => ⟨fun _ _ _ => trivial, fun _ _ _ => trivial⟩

/-- An object of the frame is accessed in its own size.  That is only asked if `sized`. -/
def Function.Suits (f : Function) (sized : Prop) (slot : SlotId) (width : Width) : Prop :=
  sized → ∃ object, f.frame.objects.get? slot = some object ∧
    (width = .byte ↔ object.size = 1) ∧ (width = .word ↔ object.size = wordSize)

def Function.use (f : Function) (incoming : Nat) (sized : Prop) : FrameUse where
  slots := f.frame.objects.size
  incoming
  outgoing := f.frame.outgoing
  calls := f.makesCalls
  suits := f.Suits sized

end MxStar.Machine
