import MxStar.Assembly.Line
import MxStar.Machine.Function

/-!
# Assembly text of a unit

Once the frame of a function is laid out, every offset is a number.  An offset
that does not fit an immediate is built in the scratch register.  Control falls
through from one block to the next, so a jump to the next block is left out and
a branch to it is turned around.
-/

namespace MxStar.Assembly

open Machine (Register Physical FrameLayout Function Module DataItem Block Instr)

/-- The register in which large offsets are built. -/
def scratch : Register := .physical Physical.scratch

/-- A memory access, given how to write it with a base and an offset that fits. -/
def access (line : Register → Int → Line) (base : Register) (offset : Int) : List Line :=
  if fitsImmediate offset then
    [line base offset]
  else
    [.li scratch offset, .alu .add scratch scratch base, line scratch 0]

/-- The stack pointer plus a number. -/
def addToStack (rd : Register) (amount : Int) : List Line :=
  if fitsImmediate amount then
    [.aluImm .addi rd .sp amount]
  else
    [.li scratch amount, .alu .add rd .sp scratch]

/-- Make room for the frame and save registers in it. -/
def prologue (layout : FrameLayout) : List Line :=
  if layout.size = 0 then
    []
  else
    addToStack .sp (-layout.size) ++
      layout.saved.flatMap fun (p, offset) => access (.store .word (.physical p)) .sp offset

/-- Restore saved registers, give the frame back and return. -/
def epilogue (layout : FrameLayout) : List Line :=
  if layout.size = 0 then
    [.ret]
  else
    (layout.saved.flatMap fun (p, offset) => access (.load .word (.physical p)) .sp offset) ++
      addToStack .sp layout.size ++ [.ret]

/-- The label of a block. -/
def blockLabel (f : Function) (id : Machine.BlockId) : Except Error String := do
  let b ← f.blocks.find id
  return "." ++ b.label

/-- The lines of an instruction in a block that is followed by block `next`. -/
def instrLines (f : Function) (layout : FrameLayout) (next : Option Machine.BlockId) :
    Instr → Except Error (List Line)
  | .li rd value => .ok [.li rd value.toInt]
  | .la rd symbol => .ok [.la rd symbol]
  | .mv rd rs => .ok [.mv rd rs]
  | .alu op rd rs1 rs2 => .ok [.alu op rd rs1 rs2]
  | .aluImm op rd rs1 value => .ok [.aluImm op rd rs1 value.toInt]
  | .slotAddress rd slot => do return addToStack rd (← layout.resolve (.slot slot))
  | .load width rd base offset => do
    return access (.load width rd) base (← layout.resolve offset)
  | .store width rs base offset => do
    return access (.store width rs) base (← layout.resolve offset)
  | .call symbol _ => .ok [.call symbol]
  | .comment text => .ok [.comment text]
  | .jump target => do
    if next = some target then return [] else return [.jump (← blockLabel f target)]
  | .branch condition positive negative => do
    if next = some positive then
      return [.beqz condition (← blockLabel f negative)]
    else
      let first := Line.bnez condition (← blockLabel f positive)
      if next = some negative then
        return [first]
      else
        return [first, .jump (← blockLabel f negative)]
  | .ret _ => .ok (epilogue layout)

/-- The lines of a block. -/
def blockLines (f : Function) (layout : FrameLayout) (id : Machine.BlockId) (b : Block) :
    Except Error (List Line) := do
  let next := (f.blocks.get? ⟨id.val + 1⟩).map Block.id
  let code ← b.code.mapM (instrLines f layout next)
  return .label ("." ++ b.label) :: code.flatten

/-- The lines of a function. -/
def functionLines (f : Function) : Except Error (List Line) := do
  let layout ← f.frameLayout
  let blocks ← f.blocks.pairs.mapM fun (id, b) => blockLines f layout id b
  return [.globl f.name, .alignWord, .label f.name] ++ prologue layout ++ blocks.flatten

/-- The lines of a string constant. -/
def stringLines (label value : String) : List Line :=
  [.label label, .asciz value]

/-- The lines of a global variable.  Words are aligned. -/
def dataLines (item : DataItem) : List Line :=
  match item.value with
  | .word value => [.alignWord, .label item.label, .word value.toInt]
  | .address target => [.alignWord, .label item.label, .wordOf target]
  | .byte value => [.label item.label, .byte value.toNat]

/-- The lines of a unit, by section. -/
structure Sections where
  rodata : List Line
  data : List Line
  /-- One list for each function -/
  text : List (List Line)

/-- The sections of a unit. -/
def Sections.ofModule (m : Module) : Except Error Sections := do
  let text ← m.functions.mapM functionLines
  return {
    rodata := m.strings.flatMap fun (label, value) => stringLines label value
    data := m.globals.flatMap dataLines
    text }

/-- Lines under each other. -/
def joinLines (lines : List Line) : String :=
  "\n".intercalate (lines.map Line.text)

/-- The text of a function: every line ends in a line break. -/
def functionText (lines : List Line) : String :=
  String.join (lines.map fun line => line.text ++ "\n")

/-- The text of a unit.  Functions are set off by an empty line. -/
def Sections.render (s : Sections) : String :=
  let functions := s.text.map functionText
  "# generated code\n.section .rodata\n\n" ++ joinLines s.rodata ++
    "\n\n.data\n\n" ++ joinLines s.data ++
    "\n\n.text\n\n" ++ "\n".intercalate functions

/-- The assembly text of a unit. -/
def emit (m : Module) : Except Error String := do
  return (← Sections.ofModule m).render

end MxStar.Assembly
