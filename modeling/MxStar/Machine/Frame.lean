import MxStar.Error

/-!
# Stack frames

A frame holds the arguments a function passes on the stack, then its objects,
then the registers it saves:

```text
high  | saved registers  |
      | objects          |
sp -> | outgoing args    |
```

Offsets count bytes from the stack pointer.  Objects are placed one after the
other, so adding one moves none of those before it, and the size of the whole
frame bounds every offset in it; that is why `FrameLayout.compute` checks the
size alone against the range of a word.
-/

namespace MxStar.Machine

/-- An object of a frame. -/
abbrev SlotId := Index .slot

/-- The space an object of a frame needs. -/
structure FrameObject where
  size : Nat
  alignment : Nat
deriving DecidableEq, Repr

/-- A memory offset, which is a number of bytes once the frame is laid out. -/
inductive Offset
  | immediate (value : Word)
  /-- The start of an object of the frame -/
  | slot (id : SlotId)
  /-- An argument of this function that was passed on the stack -/
  | incoming (n : Nat)
  /-- An argument of a call that is passed on the stack -/
  | outgoing (n : Nat)
deriving DecidableEq, Repr

/-- The offset before it is known. -/
def Offset.display : Offset → String
  | .immediate value => value.display
  | .slot id => s!"<slot{id.val}>"
  | .incoming n => s!"<in{n}>"
  | .outgoing n => s!"<out{n}>"

/-- What a function keeps on the stack. -/
structure Frame where
  objects : Table .slot FrameObject := ∅
  /-- The greatest number of stack arguments of a call -/
  outgoing : Nat := 0
deriving Repr

namespace Frame

/-- Reserve an object of at least one byte. -/
def allocate (f : Frame) (size alignment : Nat) : SlotId × Frame :=
  (f.objects.next,
    { f with objects := f.objects.push { size := max size 1, alignment := max alignment 1 } })

end Frame

/-- Where everything in a frame stands. -/
structure FrameLayout where
  size : Nat
  objects : Table .slot Nat
  saved : List (Physical × Nat)
deriving Repr

/-- The stack pointer is a multiple of this. -/
def stackAlignment : Nat := 16

/-- Places objects from `offset` on; returns their starts and the end of the last one. -/
def placeObjects (offset : Nat) : List FrameObject → List Nat × Nat
  | [] => ([], offset)
  | object :: rest =>
    let start := alignTo offset object.alignment
    let placed := placeObjects (start + object.size) rest
    (start :: placed.1, placed.2)

/-- Gives each register a word from `offset` on. -/
def placeSaved (offset : Nat) : List Physical → List (Physical × Nat)
  | [] => []
  | register :: rest => (register, offset) :: placeSaved (offset + wordSize) rest

namespace FrameLayout

/-- The layout of a frame, with all sizes in exact numbers. -/
def exact (f : Frame) (saved : List Physical) : FrameLayout :=
  let placed := placeObjects (f.outgoing * wordSize) f.objects.entries.toList
  let top := alignTo placed.2 wordSize
  { size := alignTo (top + saved.length * wordSize) stackAlignment
    objects := ⟨placed.1.toArray⟩
    saved := placeSaved top saved }

/-- The layout of a frame whose size fits a word. -/
def compute (f : Frame) (saved : List Physical) : Except Error FrameLayout :=
  let layout := exact f saved
  if layout.size < sizeLimit then .ok layout else .error .overflow

/-- The number of bytes an offset stands for. -/
def resolve (l : FrameLayout) : Offset → Except Error Int
  | .immediate value => .ok value.toInt
  | .slot id => do return (← l.objects.find id : Nat)
  | .incoming n => do return (← checkSize (l.size + n * wordSize) : Nat)
  | .outgoing n => do return (← checkSize (n * wordSize) : Nat)

end FrameLayout

end MxStar.Machine
