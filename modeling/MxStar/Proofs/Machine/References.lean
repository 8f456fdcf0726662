import MxStar.Proofs.Flow.Run
import MxStar.Proofs.Machine.Naming

/-!
# What code mentions

An instruction of the machine refers to a label by its address or by a call, and a comment has
a text.  An instruction of a graph names labels in its operands, and in what it calls.
-/

namespace MxStar.Machine

inductive Reference
  | address (label : String)
  | call (symbol : String)
deriving DecidableEq, Repr

/-- What an instruction refers to. -/
def Instr.references : Instr → List Reference
  | .la _ symbol => [.address symbol]
  | .call symbol _ => [.call symbol]
  | _ => []

def references (code : List Instr) : List Reference :=
  code.flatMap Instr.references

/-- A label or the text of a comment. -/
inductive Mention
  | label (r : Reference)
  | comment (text : String)
deriving DecidableEq, Repr

def Instr.mentions : Instr → List Mention
  | .comment text => [.comment text]
  | i => i.references.map .label

def mentions (code : List Instr) : List Mention :=
  code.flatMap Instr.mentions

@[simp]
theorem mentions_nil : mentions [] = [] := rfl

@[simp]
theorem mentions_cons (i : Instr) (code : List Instr) :
    mentions (i :: code) = i.mentions ++ mentions code := rfl

@[simp]
theorem mentions_append (code more : List Instr) :
    mentions (code ++ more) = mentions code ++ mentions more :=
  List.flatMap_append

theorem mentions_eq_nil (h : ∀ i ∈ code, i.mentions = []) : mentions code = [] :=
  List.flatMap_eq_nil_iff.mpr h

@[simp]
theorem references_append (code more : List Instr) :
    references (code ++ more) = references code ++ references more :=
  List.flatMap_append

/-- Code without comments refers to what it mentions, in the same order. -/
theorem references_eq_of_mentions (h : mentions code = refs.map .label) :
    references code = refs := by
  induction code generalizing refs with
  | nil => simpa [references, eq_comm] using h
  | cons i rest ih =>
    obtain ⟨front, back, rfl, hi, hrest⟩ := List.map_eq_append_iff.mp h.symm
    have hfront : i.references = front := by
      cases i with
      | comment text => cases front <;> simp [Instr.mentions] at hi
      | _ =>
        exact (List.map_inj_right fun _ _ => Mention.label.inj).mp hi.symm
    rw [← ih hrest.symm, ← hfront]
    rfl

theorem label_mem_mentions : .label r ∈ mentions code ↔ r ∈ references code := by
  simp only [mentions, references, List.mem_flatMap]
  refine exists_congr fun i => and_congr_right fun _ => ?_
  cases i <;> simp [Instr.mentions, Instr.references]

end MxStar.Machine

namespace MxStar.Flow

open Machine (Reference stringLabel)

def Operand.references : Operand → List Reference
  | .global name => [.address name]
  | .string id => [.address (stringLabel id)]
  | .register _ | .constant _ => []

/-- What an instruction names: its operands, and then what it calls. -/
def Instr.references (i : Instr) : List Reference :=
  i.operands.flatMap Operand.references ++
    match i with
    | .call _ symbol _ => [.call symbol]
    | _ => []

def Terminator.references (t : Terminator) : List Reference :=
  t.operands.flatMap Operand.references

/-- The operands that a terminator has to look at.  A branch with one target looks at none. -/
def Terminator.evaluated : Terminator → List Operand
  | .branch condition positive negative => if positive = negative then [] else [condition]
  | t => t.operands

theorem Terminator.mem_operands_of_mem_evaluated {t : Terminator} {o : Operand}
    (h : o ∈ t.evaluated) : o ∈ t.operands := by
  cases t with
  | branch condition positive negative =>
    simp only [evaluated] at h
    split at h
    · simp at h
    · exact h
  | _ => exact h

@[simp]
theorem Terminator.mem_successors_branch :
    c ∈ (Terminator.branch condition positive negative).successors ↔
      c = positive ∨ c = negative := by
  simp only [Terminator.successors]
  split <;> simp_all

def Block.references (b : Block) : List Reference :=
  b.instrs.toList.flatMap Instr.references ++ b.terminator.toList.flatMap Terminator.references

/-- What a block refers to when it is run, in order. -/
def Block.refersTo (b : Block) : List Reference :=
  b.instrs.toList.flatMap Instr.references ++
    b.terminator.toList.flatMap fun t => t.evaluated.flatMap Operand.references

end MxStar.Flow
