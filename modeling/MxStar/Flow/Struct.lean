import MxStar.Flow.Type

/-!
# Objects in memory

The members of a class stand one after the other in declaration order, each at
the next multiple of its own alignment, and the size of an object is a whole
number of words.
-/

namespace MxStar.Flow

/-- A member variable and its distance from the start of the object. -/
structure Member where
  name : String
  ty : Ty
  offset : Nat
deriving DecidableEq, Repr

/-- The place of every member of a class. -/
structure Struct where
  name : String
  members : List Member
  size : Nat
  hasConstructor : Bool
deriving DecidableEq, Repr

namespace Struct

/-- Places members from `offset` on; returns them with the end of the last one. -/
def place (offset : Nat) : List (String × Ty) → List Member × Nat
  | [] => ([], offset)
  | (name, ty) :: rest =>
    let start := alignTo offset ty.alignment
    let placed := place (start + ty.size) rest
    ({ name, ty, offset := start } :: placed.1, placed.2)

theorem le_place (offset : Nat) (members : List (String × Ty)) :
    offset ≤ (place offset members).2 := by
  induction members generalizing offset with
  | nil => exact Nat.le_refl _
  | cons m rest ih =>
    have hstart := le_alignTo offset m.2.alignment
    have hrest := ih (alignTo offset m.2.alignment + m.2.size)
    simp only [place]
    omega

/-- Lays out a class. -/
def layOut (name : String) (members : List (String × Ty)) (hasConstructor : Bool) : Struct :=
  let placed := place 0 members
  { name, members := placed.1, size := alignTo placed.2 wordSize, hasConstructor }

/-- The first member of a name, with its position. -/
def member? (s : Struct) (name : String) : Option (Nat × Member) :=
  (s.members.zipIdx.find? fun (m, _) => m.name == name).map fun (m, i) => (i, m)

end Struct

end MxStar.Flow
