import MxStar.Source.Operator
import MxStar.Source.Type
import MxStar.Text.Escape

/-!
# Typed syntax trees

The input of the compiler: a program whose names are resolved and whose
expressions each carry a type.  Nothing in this library assumes that the types
are right; what a wrong one leads to is decided where it is used.
-/

namespace MxStar.Source

/-- Constants as they are written. -/
inductive Literal
  | integer (value : Word)
  | boolean (value : Bool)
  | text (value : String)
  | null
deriving DecidableEq, Repr

/-- The constant as a message shows it. -/
def Literal.display : Literal → String
  | .integer value => s!"Integer({value.display})"
  | .boolean value => s!"Boolean({value})"
  | .text value => s!"String({Text.quoted value})"
  | .null => "Null"

/-- Expressions, each with the type it was given. -/
inductive Expr
  | literal (ty : Ty) (value : Literal)
  /-- The object a method was called on -/
  | this (ty : Ty)
  | ident (ty : Ty) (name : String)
  | binary (ty : Ty) (op : BinaryOp) (lhs rhs : Expr)
  | unary (ty : Ty) (op : UnaryOp) (operand : Expr)
  | assign (ty : Ty) (target value : Expr)
  /-- Written `condition ? positive : negative` -/
  | choice (ty : Ty) (condition positive negative : Expr)
  | call (ty : Ty) (function : String) (arguments : List Expr)
  | callMethod (ty : Ty) (object : Expr) (method : String) (arguments : List Expr)
  /-- Written `array[position]` -/
  | element (ty : Ty) (array position : Expr)
  | member (ty : Ty) (object : Expr) (field : String)
  /-- A new object of a class, or an array whose leading dimensions carry a count -/
  | new (ty : Ty) (allocated : Ty) (counts : List Expr)
deriving Repr

namespace Expr

/-- The type the expression was given. -/
def ty : Expr → Ty
  | .literal ty _ | .this ty | .ident ty _ | .binary ty _ _ _ | .unary ty _ _ | .assign ty _ _
  | .choice ty _ _ _ | .call ty _ _ | .callMethod ty _ _ _ | .element ty _ _ | .member ty _ _
  | .new ty _ _ => ty

/-- A short description for messages. -/
def describe : Expr → String
  | .literal _ value => s!"literal `{value.display}`"
  | .this _ => "`this`"
  | .ident _ name => s!"variable `{name}`"
  | .binary _ op _ _ => s!"binary `{op.title}` expression"
  | .unary _ op _ => s!"unary `{op.symbol}` expression"
  | .assign _ _ _ => "assignment"
  | .choice _ _ _ _ => "conditional expression"
  | .call _ function _ => s!"call to `{function}`"
  | .callMethod _ _ method _ => s!"call to method `{method}`"
  | .element _ _ _ => "array subscript"
  | .member _ _ field => s!"member access `.{field}`"
  | .new _ _ _ => "`new` expression"

end Expr

/-- One variable of a definition. -/
structure Declarator where
  name : String
  initial : Option Expr
deriving Repr

/-- Variables of one type, such as `int a = 1, b;`. -/
structure VariableDef where
  ty : Ty
  declarators : List Declarator
deriving Repr

/-- What a `for` loop does before its first test. -/
inductive ForStart
  | declare (vars : VariableDef)
  | evaluate (e : Expr)
deriving Repr

/-- Statements. -/
inductive Stmt
  | block (body : List Stmt)
  | declare (vars : VariableDef)
  | ifElse (condition : Expr) (positive negative : List Stmt)
  | whileLoop (condition : Expr) (body : List Stmt)
  | forLoop (start : Option ForStart) (condition step : Option Expr) (body : List Stmt)
  | breakLoop
  | continueLoop
  | giveBack (value : Option Expr)
  | evaluate (e : Expr)
  | empty
deriving Repr

/-- A parameter of a function or method. -/
structure Parameter where
  name : String
  ty : Ty
deriving Repr

/-- A function, or a method of a class. -/
structure FunctionDef where
  name : String
  returnType : Ty
  parameters : List Parameter
  body : List Stmt
deriving Repr

/-- A class with its member variables, its methods and its constructor, if it
declares one. -/
structure ClassDef where
  name : String
  members : List VariableDef
  constructor : Option (List Stmt)
  methods : List FunctionDef
deriving Repr

/-- What stands at the top level of a program. -/
inductive Definition
  | function (f : FunctionDef)
  | object (c : ClassDef)
  | globals (vars : VariableDef)
deriving Repr

/-- A compilation unit. -/
abbrev Program := List Definition

end MxStar.Source
