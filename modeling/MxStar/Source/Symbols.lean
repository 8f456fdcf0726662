import MxStar.Error
import MxStar.Source.Tree
import Std.Data.ExtTreeMap

/-!
# Symbol tables

The functions and classes a unit declares.  Names of functions, of classes and
of the methods of one class are kept apart, and in each of these families a
name may be declared once.  A repeated declaration is reported, but by then it
has replaced the earlier one.
-/

namespace MxStar.Source

/-- One value for each name. -/
abbrev Dictionary (α : Type) := Std.ExtTreeMap String α

/-- The types a function takes and gives back. -/
structure Signature where
  returnType : Ty
  parameters : List Ty
deriving DecidableEq, Repr

/-- The signature of a definition. -/
def FunctionDef.signature (f : FunctionDef) : Signature :=
  { returnType := f.returnType, parameters := f.parameters.map Parameter.ty }

/-- What is known about a class. -/
structure ClassInfo where
  name : String
  members : List (String × Ty)
  methods : Dictionary Signature
  hasConstructor : Bool

/-- All member variables of a class with their types, in declaration order. -/
def ClassDef.memberTypes (c : ClassDef) : List (String × Ty) :=
  c.members.flatMap fun vars => vars.declarators.map fun d => (d.name, vars.ty)

/-- The methods of a class, which have to differ in name. -/
def ClassDef.methodTable (c : ClassDef) : Except Error (Dictionary Signature) :=
  c.methods.foldlM (fun table method =>
    if table.contains method.name then
      .error (.duplicateDefinition (c.name ++ "." ++ method.name))
    else
      .ok (table.insert method.name method.signature)) ∅

/-- What is known about the class a definition declares. -/
def ClassDef.info (c : ClassDef) : Except Error ClassInfo := do
  let methods ← c.methodTable
  return { name := c.name, members := c.memberTypes, methods,
           hasConstructor := c.constructor.isSome }

/-- The functions and classes of a unit. -/
structure Symbols where
  functions : Dictionary Signature := ∅
  classes : Dictionary ClassInfo := ∅
  /-- Names of classes in the order in which they were first declared -/
  classOrder : List String := []

namespace Symbols

/-- Declare a function.  The error is set when the name was already taken. -/
def insertFunction (s : Symbols) (name : String) (signature : Signature) :
    Symbols × Option Error :=
  ({ s with functions := s.functions.insert name signature },
    if s.functions.contains name then some (.duplicateDefinition name) else none)

/-- Declare a class.  The error is set when the name was already taken; the
class then keeps its old place in the order. -/
def insertClass (s : Symbols) (info : ClassInfo) : Symbols × Option Error :=
  if s.classes.contains info.name then
    ({ s with classes := s.classes.insert info.name info },
      some (.duplicateDefinition info.name))
  else
    ({ s with classes := s.classes.insert info.name info,
              classOrder := s.classOrder ++ [info.name] }, none)

/-- The signature of a declared function. -/
def function? (s : Symbols) (name : String) : Option Signature :=
  s.functions[name]?

/-- What is known about a declared class. -/
def class? (s : Symbols) (name : String) : Option ClassInfo :=
  s.classes[name]?

/-- Whether a class declares a method. -/
def hasMethod (s : Symbols) (className method : String) : Bool :=
  (s.class? className).any fun info => info.methods.contains method

/-- All classes, in declaration order. -/
def classList (s : Symbols) : List ClassInfo :=
  s.classOrder.filterMap s.class?

/-- The table after an insertion, or the error it set. -/
def accept : Symbols × Option Error → Except Error Symbols
  | (s, none) => .ok s
  | (_, some e) => .error e

/-- Declare what one definition declares. -/
def declare (s : Symbols) : Definition → Except Error Symbols
  | .function f => accept (s.insertFunction f.name f.signature)
  | .object c => do accept (s.insertClass (← c.info))
  | .globals _ => .ok s

/-- The functions and classes a program declares. -/
def collect (p : Program) : Except Error Symbols :=
  p.foldlM declare {}

end Symbols

end MxStar.Source
