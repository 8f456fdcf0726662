import MxStar.Assembly.Quoted
import MxStar.Machine.Instr

/-!
# Lines of assembly text

The text of a unit is a list of lines, each of them a label, a directive, a
comment or one instruction.  Labels and section directives stand at the margin
and everything else is indented.
-/

namespace MxStar.Assembly

open Machine (Register Width AluOp AluImmOp)

/-- One line of assembly text. -/
inductive Line
  | label (name : String)
  | globl (name : String)
  /-- What follows starts at a multiple of four -/
  | alignWord
  | asciz (text : String)
  | word (value : Int)
  | wordOf (target : String)
  | byte (value : Nat)
  | comment (text : String)
  | li (rd : Register) (value : Int)
  | la (rd : Register) (symbol : String)
  | mv (rd rs : Register)
  | alu (op : AluOp) (rd rs1 rs2 : Register)
  | aluImm (op : AluImmOp) (rd rs1 : Register) (value : Int)
  | load (width : Width) (rd base : Register) (offset : Int)
  | store (width : Width) (rs base : Register) (offset : Int)
  | call (symbol : String)
  | jump (target : String)
  /-- Jumps if the register is not zero -/
  | bnez (condition : Register) (target : String)
  /-- Jumps if the register is zero -/
  | beqz (condition : Register) (target : String)
  | ret
deriving DecidableEq, Repr

namespace Line

/-- The label the line defines. -/
def defines? : Line → Option String
  | .label name => some name
  | _ => none

/-- The line without its indentation. -/
def content : Line → String
  | .label name => s!"{name}:"
  | .globl name => s!".globl {name}"
  | .alignWord => ".p2align 2"
  | .asciz text => s!".asciz {quote text}"
  | .word value => s!".word {value}"
  | .wordOf target => s!".word {target}"
  | .byte value => s!".byte {value}"
  | .comment text => s!"# {text}"
  | .li rd value => s!"li {rd.display}, {value}"
  | .la rd symbol => s!"la {rd.display}, {symbol}"
  | .mv rd rs => s!"mv {rd.display}, {rs.display}"
  | .alu op rd rs1 rs2 => s!"{op.mnemonic} {rd.display}, {rs1.display}, {rs2.display}"
  | .aluImm op rd rs1 value => s!"{op.mnemonic} {rd.display}, {rs1.display}, {value}"
  | .load width rd base offset =>
    s!"{width.loadMnemonic} {rd.display}, {offset}({base.display})"
  | .store width rs base offset =>
    s!"{width.storeMnemonic} {rs.display}, {offset}({base.display})"
  | .call symbol => s!"call {symbol}"
  | .jump target => s!"j {target}"
  | .bnez condition target => s!"bnez {condition.display}, {target}"
  | .beqz condition target => s!"beqz {condition.display}, {target}"
  | .ret => "ret"

/-- The line as it is printed. -/
def text (line : Line) : String :=
  match line with
  | .label _ => line.content
  | _ => "    " ++ line.content

end Line

end MxStar.Assembly
