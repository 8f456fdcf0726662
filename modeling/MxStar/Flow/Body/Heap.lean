import MxStar.Flow.Body.Context

/-!
# Objects, arrays and strings on the heap

An array is a block of memory with the element count in front of the elements:
`[count][element 0][element 1]...`.  Its value is the address of element 0, so
the count is found at index -1.  An array of arrays is filled by a counted loop
for each level that has a count.
-/

namespace MxStar.Flow

open Build

/-- Allocate an object and run the constructor of its class. -/
def Context.newObject (ctx : Context) (className : String) : Build Operand := do
  let struct ← ofExcept (ctx.struct className)
  let memory ← callValue Linkage.allocate [int (max struct.size 1)] .string
  let object ← bitCast memory (.object className)
  if struct.hasConstructor then
    callVoid (Linkage.methodSymbol className className) [object]
  return object

/-- The bytes an array takes: its header and `count` elements. -/
def arrayBytes (count : Operand) (element : Ty) : Build Operand := do
  match count with
  | .constant (.int n) =>
    return .constant (.int (n * BitVec.ofNat 32 element.size + BitVec.ofNat 32 wordSize))
  | _ =>
    let scaled ← arith .mul count (int element.size)
    arith .add scaled (int wordSize)

/-- Store what `inner` builds into each of the `count` elements of an array. -/
def fillArray (array : Operand) (element : Ty) (count : Operand) (inner : Build Operand) :
    Build Unit := do
  let counter ← createCell .int none
  store (int 0) (.register counter)
  let next ← createBlock "new_end" (← inheritedTerminator)
  let condition ← createBlock "new_cond" none
  let body ← createBlock "new_body" (some (.jump condition))
  jump condition
  switchTo condition
  let index ← load (.register counter) .int
  let more ← compare .slt index count
  terminate (.branch more body next)
  switchTo body
  let item ← inner
  let index ← load (.register counter) .int
  let place ← elementAddress array element index
  store item place
  let following ← arith .add index (int 1)
  store following (.register counter)
  jump condition
  switchTo next

/-- Allocate an array with the first count and, as long as there are more
counts, an array for each of its elements. -/
def newArray (ty : Ty) : List Operand → Build Operand
  | [] => throw (.malformedExpression .newWithoutCount)
  | count :: inner => do
    let some element := ty.pointee? | throw (.malformedExpression (.newOfNonArray ty))
    let bytes ← arrayBytes count element
    let memory ← callValue Linkage.allocate [bytes] .string
    let header ← bitCast memory Ty.int.pointerTo
    store count header
    let first ← elementAddress header .int (int 1)
    let array ← bitCast first ty
    unless inner.isEmpty do
      fillArray array element count (newArray element inner)
    return array

/-- The number of elements of an array, which stands in front of them. -/
def arrayLength (array : Operand) : Build Operand := do
  let words ← bitCast array Ty.int.pointerTo
  let header ← elementAddress words .int (int (-1))
  load header .int

/-- Join two strings in a fresh buffer. -/
def joinStrings (lhs rhs : Operand) : Build Operand := do
  let left ← callValue Linkage.stringLength [lhs] .int
  let right ← callValue Linkage.stringLength [rhs] .int
  let length ← arith .add left right
  let bytes ← arith .add length (int 1)
  let buffer ← callValue Linkage.allocate [bytes] .string
  callVoid Linkage.stringCopy [buffer, lhs]
  callVoid Linkage.stringAppend [buffer, rhs]
  return buffer

end MxStar.Flow
