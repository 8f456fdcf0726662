/-!
# Operators of the source language
-/

namespace MxStar.Source

/-- Operators between two expressions. -/
inductive BinaryOp
  | add
  | subtract
  | multiply
  | divide
  | modulus
  | equals
  | notEquals
  | lessThan
  | lessOrEqual
  | greaterThan
  | greaterOrEqual
  | logicalAnd
  | logicalOr
  | bitAnd
  | bitOr
  | bitXor
  | shiftLeft
  | shiftRight
deriving DecidableEq, Repr

/-- What an operator computes: a number, an order, a truth value, an equality. -/
inductive OperatorClass
  | arithmetic
  | relational
  | logical
  | equality
deriving DecidableEq, Repr

/-- The name of the class. -/
def OperatorClass.title : OperatorClass → String
  | .arithmetic => "Arithmetic"
  | .relational => "Relational"
  | .logical => "Logical"
  | .equality => "Equality"

namespace BinaryOp

/-- All operators. -/
def all : List BinaryOp :=
  [.add, .subtract, .multiply, .divide, .modulus, .equals, .notEquals, .lessThan, .lessOrEqual,
   .greaterThan, .greaterOrEqual, .logicalAnd, .logicalOr, .bitAnd, .bitOr, .bitXor, .shiftLeft,
   .shiftRight]

/-- The name under which a message mentions the operator. -/
def title : BinaryOp → String
  | .add => "Add"
  | .subtract => "Subtract"
  | .multiply => "Multiply"
  | .divide => "Divide"
  | .modulus => "Modulus"
  | .equals => "Equals"
  | .notEquals => "NotEquals"
  | .lessThan => "LessThan"
  | .lessOrEqual => "LessThanOrEqualTo"
  | .greaterThan => "GreaterThan"
  | .greaterOrEqual => "GreaterThanOrEqualTo"
  | .logicalAnd => "LogicalAnd"
  | .logicalOr => "LogicalOr"
  | .bitAnd => "BitwiseAnd"
  | .bitOr => "BitwiseOr"
  | .bitXor => "BitwiseXor"
  | .shiftLeft => "ShiftLeft"
  | .shiftRight => "ShiftRight"

/-- The class of the operator. -/
def operatorClass : BinaryOp → OperatorClass
  | .add | .subtract | .multiply | .divide | .modulus => .arithmetic
  | .bitAnd | .bitOr | .bitXor | .shiftLeft | .shiftRight => .arithmetic
  | .lessThan | .lessOrEqual | .greaterThan | .greaterOrEqual => .relational
  | .logicalAnd | .logicalOr => .logical
  | .equals | .notEquals => .equality

end BinaryOp

/-- Operators on one expression. -/
inductive UnaryOp
  | plus
  | negate
  | bitNot
  | logicalNot
  | preIncrement
  | preDecrement
  | postIncrement
  | postDecrement
deriving DecidableEq, Repr

namespace UnaryOp

/-- All operators. -/
def all : List UnaryOp :=
  [.plus, .negate, .bitNot, .logicalNot, .preIncrement, .preDecrement, .postIncrement,
   .postDecrement]

/-- The name of the operator. -/
def title : UnaryOp → String
  | .plus => "Plus"
  | .negate => "Negate"
  | .bitNot => "BitwiseNot"
  | .logicalNot => "LogicalNot"
  | .preIncrement => "PreIncrement"
  | .preDecrement => "PreDecrement"
  | .postIncrement => "PostIncrement"
  | .postDecrement => "PostDecrement"

/-- The operator as it is written in a program. -/
def symbol : UnaryOp → String
  | .plus => "+"
  | .negate => "-"
  | .bitNot => "~"
  | .logicalNot => "!"
  | .preIncrement | .postIncrement => "++"
  | .preDecrement | .postDecrement => "--"

end UnaryOp

end MxStar.Source
