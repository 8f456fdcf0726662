import MxStar.Word

/-!
# Types of the source language

A type of the source language is a base type under a number of array
dimensions.  Only a type without dimensions is a string, is void or names a
class.
-/

namespace MxStar.Source

/-- A type without array dimensions. -/
inductive Base
  | int
  | bool
  | string
  | void
  | null
  | object (className : String)
deriving DecidableEq, Repr

/-- A base type under a number of array dimensions. -/
structure Ty where
  base : Base
  dimensions : Nat := 0
deriving DecidableEq, Repr

namespace Ty

/-- The type of a function that gives nothing back. -/
def void : Ty := { base := .void }

/-- Add array dimensions, unless their number leaves 32 bits. -/
def arrayOf? (ty : Ty) (more : Nat) : Option Ty :=
  if ty.dimensions + more < sizeLimit then
    some { ty with dimensions := ty.dimensions + more }
  else
    none

def isArray (ty : Ty) : Bool :=
  decide (0 < ty.dimensions)

def isString (ty : Ty) : Bool :=
  ty.dimensions == 0 && ty.base == .string

def isVoid (ty : Ty) : Bool :=
  ty.dimensions == 0 && ty.base == .void

/-- The class a value of this type is an instance of. -/
def className? (ty : Ty) : Option String :=
  match ty with
  | ⟨.object name, 0⟩ => some name
  | _ => none

end Ty

/-- The base type as a message shows it. -/
def Base.display : Base → String
  | .int => "Int"
  | .bool => "Bool"
  | .string => "String"
  | .void => "Void"
  | .null => "Null"
  | .object name => s!"Class({name})"

/-- The type as a message shows it. -/
def Ty.display (ty : Ty) : String :=
  s!"SemanticType \x7b base: {ty.base.display}, dimensions: {ty.dimensions} \x7d"

end MxStar.Source
