import MxStar.Assembly.Emit
import MxStar.Proofs.Machine.SelectedFunctions
import MxStar.Proofs.Text.Lines

/-!
# What lines of assembly text spell out

Registers and numbers are written by rule.  What else a line spells out is taken over from
the code: a label it defines, the text of a comment, and symbols.  The lines of an
instruction spell out what the instruction mentions and labels of blocks, and nothing that
makes room for the frame spells out anything.
-/

/-- The labels of the blocks, in order. -/
def MxStar.Machine.Function.blockLabels (f : MxStar.Machine.Function) : List String :=
  f.blocks.entries.toList.map MxStar.Machine.Block.label

namespace MxStar.Assembly

open Machine (Register Physical FrameLayout Function Block Instr Reference Mention)
open MxStar.Text (IsLine isLine_append isLine_toString isLine_toString_nat printed linesOf)

/-- Something that a line spells out. -/
inductive Mark
  | label (name : String)
  | comment (text : String)
  | symbol (name : String)
deriving DecidableEq, Repr

def Mark.spelling : Mark → String
  | .label name | .comment name | .symbol name => name

def Line.marks : Line → List Mark
  | .label name => [.label name]
  | .comment text => [.comment text]
  | .globl name | .wordOf name | .la _ name | .call name | .jump name | .bnez _ name
  | .beqz _ name => [.symbol name]
  | .asciz text => [.symbol (quote text)]
  | _ => []

def marksOf (lines : List Line) : List Mark :=
  lines.flatMap Line.marks

@[simp]
theorem marksOf_append (lines more : List Line) :
    marksOf (lines ++ more) = marksOf lines ++ marksOf more :=
  List.flatMap_append

theorem marksOf_flatMap {α : Type} (lines : α → List Line) (l : List α) :
    marksOf (l.flatMap lines) = l.flatMap fun a => marksOf (lines a) :=
  List.flatMap_assoc

/-! ## The frame -/

theorem marksOf_access {line : Register → Int → Line}
    (hline : ∀ base offset, (line base offset).marks = []) (base : Register) (offset : Int) :
    marksOf (access line base offset) = [] := by
  unfold access
  split
  · simp [marksOf, hline]
  · simp only [marksOf, List.flatMap_cons, hline]
    rfl

theorem marksOf_addToStack (rd : Register) (amount : Int) :
    marksOf (addToStack rd amount) = [] := by
  unfold addToStack
  split <;> rfl

theorem marksOf_saved (line : Physical → Register → Int → Line)
    (hline : ∀ p base offset, (line p base offset).marks = []) (saved : List (Physical × Nat)) :
    marksOf (saved.flatMap fun (p, offset) => access (line p) .sp offset) = [] := by
  rw [marksOf_flatMap, List.flatMap_eq_nil_iff]
  exact fun place _ => marksOf_access (hline place.1) .sp place.2

theorem marksOf_prologue (layout : FrameLayout) : marksOf (prologue layout) = [] := by
  unfold prologue
  split
  · rfl
  · rw [marksOf_append, marksOf_addToStack, List.nil_append]
    exact marksOf_saved (fun p => .store .word (.physical p)) (fun _ _ _ => rfl) layout.saved

theorem marksOf_epilogue (layout : FrameLayout) : marksOf (epilogue layout) = [] := by
  unfold epilogue
  split
  · rfl
  · rw [marksOf_append, marksOf_append, marksOf_addToStack, List.append_nil]
    exact List.append_eq_nil_iff.mpr
      ⟨marksOf_saved (fun p => .load .word (.physical p)) (fun _ _ _ => rfl) layout.saved, rfl⟩

/-! ## Instructions -/

/-- How what is mentioned is spelled. -/
def mentionText : Mention → String
  | .label (.address name) | .label (.call name) | .comment name => name

/-- What the lines of an instruction may spell out: the text of a comment, labels it refers
to, and labels of blocks it goes to. -/
def Spells (f : Function) (i : Instr) : Mark → Prop
  | .label _ => False
  | .comment text => i = .comment text
  | .symbol name => (∃ x ∈ i.mentions, mentionText x = name) ∨
      ∃ b ∈ f.blocks.entries.toList, name = "." ++ b.label

variable {id : Machine.BlockId}

theorem spells_blockLabel {label : String} (h : blockLabel f id = .ok label) (i : Instr) :
    Spells f i (.symbol label) := by
  obtain ⟨b, hb, rfl⟩ := Except.bind_pure_eq_ok.mp h
  have hmem := Table.mem_pairs.mpr (Table.find_eq_ok.mp hb)
  exact .inr ⟨b, Table.mem_entries_of_mem_pairs hmem, rfl⟩

/-- **The lines of an instruction** spell out what it mentions and labels of blocks. -/
theorem spells_of_instrLines (h : instrLines f layout next i = .ok lines) :
    ∀ x ∈ marksOf lines, Spells f i x := by
  have hnone : ∀ {lines : List Line}, marksOf lines = [] → ∀ x ∈ marksOf lines, Spells f i x := by
    intro lines hlines
    simp [hlines]
  cases i with
  | la rd symbol =>
    cases h
    simp [marksOf, Line.marks, Spells, Instr.mentions, Instr.references, mentionText]
  | call symbol arguments =>
    cases h
    simp [marksOf, Line.marks, Spells, Instr.mentions, Instr.references, mentionText]
  | comment text =>
    cases h
    simp [marksOf, Line.marks, Spells]
  | slotAddress rd slot =>
    obtain ⟨offset, -, rfl⟩ := Except.bind_pure_eq_ok.mp h
    exact hnone (marksOf_addToStack rd offset)
  | load width rd base offset =>
    obtain ⟨offset, -, rfl⟩ := Except.bind_pure_eq_ok.mp h
    exact hnone (marksOf_access (fun _ _ => rfl) base offset)
  | store width rs base offset =>
    obtain ⟨offset, -, rfl⟩ := Except.bind_pure_eq_ok.mp h
    exact hnone (marksOf_access (fun _ _ => rfl) base offset)
  | jump target =>
    simp only [instrLines] at h
    split at h
    · cases h
      exact hnone rfl
    · obtain ⟨label, hlabel, rfl⟩ := Except.bind_pure_eq_ok.mp h
      simpa [marksOf, Line.marks] using spells_blockLabel hlabel _
  | branch condition positive negative =>
    simp only [instrLines] at h
    split at h
    · obtain ⟨label, hlabel, rfl⟩ := Except.bind_pure_eq_ok.mp h
      simpa [marksOf, Line.marks] using spells_blockLabel hlabel _
    · obtain ⟨label, hlabel, h⟩ := Except.bind_eq_ok.mp h
      split at h
      · cases h
        simpa [marksOf, Line.marks] using spells_blockLabel hlabel _
      · obtain ⟨label', hlabel', rfl⟩ := Except.bind_pure_eq_ok.mp h
        simpa [marksOf, Line.marks] using
          And.intro (spells_blockLabel hlabel _) (spells_blockLabel hlabel' _)
  | ret hasValue =>
    cases h
    exact hnone (marksOf_epilogue layout)
  | _ =>
    cases h
    exact hnone rfl

/-! ## Functions -/

theorem spells_of_blockLines (h : blockLines f layout id b = .ok lines) :
    ∃ code, lines = .label ("." ++ b.label) :: code ∧
      ∀ x ∈ marksOf code, ∃ i ∈ b.code, Spells f i x := by
  obtain ⟨pieces, hpieces, rfl⟩ := Except.bind_pure_eq_ok.mp h
  refine ⟨pieces.flatten, rfl, fun x hx => ?_⟩
  obtain ⟨line, hline, hx⟩ := List.mem_flatMap.mp hx
  obtain ⟨piece, hpiece, hline⟩ := List.mem_flatten.mp hline
  obtain ⟨i, hi, hlines⟩ := (List.forall₂_of_mapM_eq_ok hpieces).exists_of_mem_right hpiece
  exact ⟨i, hi, spells_of_instrLines hlines x (List.mem_flatMap.mpr ⟨line, hline, hx⟩)⟩

/-! ## Single lines -/

theorem isLine_register (r : Register) : IsLine r.display := by
  cases r with
  | physical p => cases p <;> decide
  | virtual v => exact isLine_append.mpr ⟨by decide, isLine_toString_nat _⟩

theorem Line.isLine_text {line : Line} (h : ∀ x ∈ line.marks, IsLine x.spelling) :
    IsLine line.text := by
  have hcontent : IsLine line.content := by
    cases line with
    | alu op rd rs1 rs2 =>
      have hop : IsLine op.mnemonic := by cases op <;> decide
      simp only [Line.content, isLine_append, isLine_toString, isLine_register, hop]
      decide
    | aluImm op rd rs1 value =>
      have hop : IsLine op.mnemonic := by cases op <;> decide
      simp only [Line.content, isLine_append, isLine_toString, isLine_register, hop,
        Text.isLine_toString_int]
      decide
    | load width rd base offset =>
      have hop : IsLine width.loadMnemonic := by cases width <;> decide
      simp only [Line.content, isLine_append, isLine_toString, isLine_register, hop,
        Text.isLine_toString_int]
      decide
    | store width rs base offset =>
      have hop : IsLine width.storeMnemonic := by cases width <;> decide
      simp only [Line.content, isLine_append, isLine_toString, isLine_register, hop,
        Text.isLine_toString_int]
      decide
    | alignWord | ret => decide
    | _ =>
      simp only [Line.marks, List.mem_singleton, forall_eq, Mark.spelling] at h
      simp only [Line.content, isLine_append, isLine_toString, isLine_register,
        Text.isLine_toString_int, isLine_toString_nat, h]
      decide
  cases line with
  | label name => exact hcontent
  | _ => exact isLine_append.mpr ⟨by decide, hcontent⟩

/-- What the code mentions, and the names of the function and of its blocks, break no line. -/
structure SingleLine (f : Function) : Prop where
  name : IsLine f.name
  labels : ∀ label ∈ f.blockLabels, IsLine label
  mentions : ∀ x ∈ Machine.mentions f.code, IsLine (mentionText x)

section

theorem SingleLine.isLine_blockLabel (h : SingleLine f) (hb : b ∈ f.blocks.entries.toList) :
    IsLine ("." ++ b.label) :=
  isLine_append.mpr ⟨by decide +kernel, h.labels b.label (List.mem_map_of_mem hb)⟩

theorem SingleLine.isLine_spelling (h : SingleLine f) (hi : i ∈ f.code) (hx : Spells f i x) :
    IsLine x.spelling := by
  cases x with
  | label name => exact hx.elim
  | comment text =>
    obtain rfl := hx
    exact h.mentions (.comment text) (List.mem_flatMap.mpr ⟨_, hi, .head _⟩)
  | symbol name =>
    rcases hx with ⟨x, hx, rfl⟩ | ⟨b, hb, rfl⟩
    · exact h.mentions x (List.mem_flatMap.mpr ⟨i, hi, hx⟩)
    · exact h.isLine_blockLabel hb

/-- **Every printed line is one line** if nothing that the code spells out breaks it. -/
theorem SingleLine.isLine_text (h : SingleLine f) (hlines : functionLines f = .ok lines) :
    ∀ line ∈ lines, IsLine line.text := by
  obtain ⟨layout, -, hlines⟩ := Except.bind_eq_ok.mp hlines
  obtain ⟨blocks, hblocks, rfl⟩ := Except.bind_pure_eq_ok.mp hlines
  intro line hline
  refine Line.isLine_text fun x hx => ?_
  rcases List.mem_append.mp hline with hline | hline
  · rcases List.mem_append.mp hline with hline | hline
    · fin_cases hline <;> simp_all [Line.marks, Mark.spelling, h.name]
    · have hmark : x ∈ marksOf (prologue layout) := List.mem_flatMap.mpr ⟨line, hline, hx⟩
      simp [marksOf_prologue] at hmark
  · obtain ⟨piece, hpiece, hline⟩ := List.mem_flatten.mp hline
    obtain ⟨p, hp, hpiece⟩ := (List.forall₂_of_mapM_eq_ok hblocks).exists_of_mem_right hpiece
    have hb := Table.mem_entries_of_mem_pairs hp
    obtain ⟨code, rfl, hcode⟩ := spells_of_blockLines hpiece
    rcases List.mem_cons.mp hline with rfl | hline
    · obtain rfl := List.mem_singleton.mp hx
      exact h.isLine_blockLabel hb
    · obtain ⟨i, hi, hspells⟩ := hcode x (List.mem_flatMap.mpr ⟨line, hline, hx⟩)
      exact h.isLine_spelling (List.mem_flatMap.mpr ⟨p.2, hb, hi⟩) hspells

end

/-! ## Reading the text of a function -/

theorem functionText_eq_printed (lines : List Line) :
    functionText lines = printed (lines.map Line.text) := by
  rw [functionText, printed, List.map_map]
  rfl

/-- The text consists of these lines, one under the other. -/
def ReadsAs (text : String) (lines : List Line) : Prop :=
  linesOf text = lines.map Line.text ++ [""]

instance (text : String) (lines : List Line) : Decidable (ReadsAs text lines) :=
  inferInstanceAs (Decidable (_ = _))

/-- The text of a function that breaks no line is read as the lines it was made of. -/
theorem SingleLine.readsAs (h : SingleLine f) (hlines : functionLines f = .ok lines) :
    ReadsAs (functionText lines) lines := by
  rw [ReadsAs, functionText_eq_printed]
  exact Text.linesOf_printed (by simpa using h.isLine_text hlines)

end MxStar.Assembly
