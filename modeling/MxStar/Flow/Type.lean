import MxStar.Source.Type

/-!
# Types of flow graphs

A truth value has two forms.  In memory it is a byte (`bool`); as the outcome
of a comparison it is a single bit (`cond`), which is never stored.  Pointers
count their levels over a base type; `pointerTo` and `pointee?` move up and
down by one level and undo each other.
-/

namespace MxStar.Flow

/-- Types of values in a flow graph. -/
inductive Ty
  | int
  /-- A truth value in storage form: one byte holding 0 or 1 -/
  | bool
  /-- A truth value in condition form: a single bit -/
  | cond
  /-- The address of raw bytes: strings and fresh memory -/
  | string
  | void
  /-- The address of an object of a class -/
  | object (className : String)
  /-- The given number of levels of indirection to a base type -/
  | pointer (base : Ty) (depth : Nat)
deriving DecidableEq, Repr

namespace Ty

/-- The address of something whose type is not known. -/
def anyPointer : Ty := .pointer .void 1

/-- The type of an address of a value of this type. -/
def pointerTo : Ty → Ty
  | .pointer base depth => .pointer base (depth + 1)
  | other => .pointer other 1

/-- As `pointerTo`, as long as the number of levels fits 32 bits. -/
def pointerTo? : Ty → Option Ty
  | .pointer base depth => if depth + 1 < sizeLimit then some (.pointer base (depth + 1)) else none
  | other => some (.pointer other 1)

/-- The type of what a typed pointer points to. -/
def pointee? : Ty → Option Ty
  | .pointer _ 0 => none
  | .pointer base 1 => some base
  | .pointer base (depth + 2) => some (.pointer base (depth + 1))
  | _ => none

/-- Whether this is a pointer of no levels, which cannot be followed. -/
def isHollow : Ty → Bool
  | .pointer _ 0 => true
  | _ => false

/-- The number of bytes a value takes. -/
def size : Ty → Nat
  | .void => 0
  | .bool | .cond => 1
  | .int | .string | .object _ | .pointer _ _ => wordSize

/-- Values stand at multiples of their size. -/
def alignment (ty : Ty) : Nat :=
  max ty.size 1

def isPointer : Ty → Bool
  | .string | .object _ | .pointer _ _ => true
  | _ => false

def isBoolean : Ty → Bool
  | .bool | .cond => true
  | _ => false

/-- Add levels of indirection. -/
def pointers : Nat → Ty → Ty
  | 0, ty => ty
  | n + 1, ty => pointers n ty.pointerTo

/-- The type a source type without dimensions is kept in. -/
def ofBase : Source.Base → Ty
  | .int => .int
  | .bool => .bool
  | .string => .string
  | .void => .void
  | .null => anyPointer
  | .object name => .object name

/-- The type in which variables, parameters and members of a source type are
kept.  Truth values take their storage form. -/
def ofSource (ty : Source.Ty) : Ty :=
  pointers ty.dimensions (ofBase ty.base)

/-- The text of a type.  A pointer to void is written `ptr`, with one star fewer. -/
def display : Ty → String
  | .int => "i32"
  | .bool => "i8"
  | .cond => "i1"
  | .string => "i8*"
  | .void => "void"
  | .object name => s!"%struct.{name}*"
  | .pointer .void depth => "ptr" ++ "".pushn '*' (depth - 1)
  | .pointer base depth => base.display ++ "".pushn '*' depth

/-- Whether the type can be written: no pointer to void has zero levels. -/
def isWritable : Ty → Bool
  | .pointer .void depth => decide (0 < depth)
  | .pointer base _ => base.isWritable
  | _ => true

theorem pointee?_pointerTo {ty : Ty} (h : ty.isHollow = false) :
    ty.pointerTo.pointee? = some ty := by
  cases ty with
  | pointer base depth =>
    cases depth with
    | zero => simp [isHollow] at h
    | succ n => rfl
  | _ => rfl

theorem isHollow_pointerTo (ty : Ty) : ty.pointerTo.isHollow = false := by
  cases ty <;> rfl

theorem size_eq (ty : Ty) : ty.size = 0 ∨ ty.size = 1 ∨ ty.size = wordSize := by
  cases ty <;> simp [size]

end Ty

end MxStar.Flow
