import MxStar.Source.Operator

/-!
# Symbols of the support library

Compiled code is linked against a small support library.  This module names
its entry points, the functions a program may call without declaring them, and
the symbol a method is compiled under.
-/

namespace MxStar.Linkage

open Source (BinaryOp)

/-- Computes the globals that do not start out as a constant; `main` calls it first. -/
def globalInitializer : String := "__mx_global_init"

/-- Allocates a number of bytes. -/
def allocate : String := "__mx_malloc"

/-- The length of a string. -/
def stringLength : String := "__mx_strlen"

/-- Copies a string into a buffer. -/
def stringCopy : String := "__mx_strcpy"

/-- Appends a string to the one in a buffer. -/
def stringAppend : String := "__mx_strcat"

/-- The function a program starts with. -/
def entryPoint : String := "main"

/-- The only method of arrays; it reads the array's header without a call. -/
def arraySize : String := "size"

/-- Functions every program can call without declaring them. -/
def builtins : List String :=
  ["print", "println", "printInt", "printlnInt", "getString", "getInt", "toString"]

/-- The symbol of a function that needs no declaration. -/
def builtin? (name : String) : Option String :=
  if name ∈ builtins then some name else none

/-- Methods of strings.  The string itself is passed as the first argument. -/
def stringMethods : List String :=
  ["length", "substring", "parseInt", "ord"]

/-- The symbol of a string method. -/
def stringMethod? (name : String) : Option String :=
  if name ∈ stringMethods then some ("__mx_string_" ++ name) else none

/-- The function that compares two strings as an operator asks. -/
def stringComparison? : BinaryOp → Option String
  | .equals => some "__mx_string_eq"
  | .notEquals => some "__mx_string_ne"
  | .lessThan => some "__mx_string_lt"
  | .lessOrEqual => some "__mx_string_le"
  | .greaterThan => some "__mx_string_gt"
  | .greaterOrEqual => some "__mx_string_ge"
  | _ => none

/-- The symbol a method is compiled under; a constructor has the name of its class. -/
def methodSymbol (className method : String) : String :=
  className ++ "." ++ method

end MxStar.Linkage
