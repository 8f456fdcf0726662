import MxStar.Proofs.Assembly.Emission
import MxStar.Proofs.Assembly.Marks

/-!
# The printed text does what the function does

The text printed for a function is read line by line.  Its lines pass the labels of
the blocks that the function goes through, and do the same to memory and to all
registers but the scratch register.  The text has the lines that were printed only
if none of them breaks: behind a line break in a comment another instruction may
stand (`not_agree_runText_chatty`).

Instructions were dealt with one by one.  What is left is control: a label stands
in front of the lines of its block and nowhere else, so control gets to the same
block whether it jumps or falls through (`goTo_blockLabel`, `runLines_drop`).
-/

namespace MxStar.Assembly

open Machine (Register Physical FrameLayout Function Instr Backing State Outcome BlockId Block
  runCode TerminatorLast)

section

variable {World : Type} {E : Environment World} {s s' : State (Store World)} {f : Function}
  {layout : FrameLayout} {leaving : State (Store World) → State (Store World)} {rest : List Line}
  {b : BlockId} {name : String}

/-! ## Labels -/

theorem after_append (name : String) (l r : List Line) :
    after name (l ++ r) = (after name r).or ((after name l).map (· ++ r)) := by
  induction l with
  | nil => simp [after]
  | cons line l ih =>
    rw [List.cons_append, after, ih, after]
    cases hr : after name r with
    | some found => simp
    | none =>
      cases hl : after name l with
      | some found => simp
      | none => by_cases hd : line.defines? = some name <;> simp [hd]

variable {lines : List Line}

theorem after_eq_none (h : ∀ line ∈ lines, line.defines? ≠ some name) :
    after name lines = none := by
  induction lines with
  | nil => rfl
  | cons line lines ih =>
    rw [after, ih fun l hl => h l (List.mem_cons_of_mem _ hl)]
    exact if_neg (h line (.head _))

def Unlabelled (lines : List Line) : Prop :=
  ∀ line ∈ lines, line.defines? = none

theorem Unlabelled.append (h : Unlabelled lines) (h' : Unlabelled lines') :
    Unlabelled (lines ++ lines') := by
  intro line hline
  rcases List.mem_append.mp hline with hl | hl
  · exact h line hl
  · exact h' line hl

theorem unlabelled_single (h : line.defines? = none) : Unlabelled [line] := by
  intro l hl
  rw [List.mem_singleton.mp hl, h]

theorem unlabelled_access {line : Register → Int → Line}
    (hline : ∀ r n, (line r n).defines? = none) : Unlabelled (access line base offset) := by
  simp only [access]
  split
  · exact unlabelled_single (hline _ _)
  · exact (unlabelled_single rfl).append
      ((unlabelled_single rfl).append (unlabelled_single (hline _ _)))

theorem unlabelled_addToStack (rd : Register) (amount : Int) :
    Unlabelled (addToStack rd amount) := by
  simp only [addToStack]
  split
  · exact unlabelled_single rfl
  · exact (unlabelled_single rfl).append (unlabelled_single rfl)

theorem unlabelled_epilogue (layout : FrameLayout) : Unlabelled (epilogue layout) := by
  simp only [epilogue]
  split
  · exact unlabelled_single rfl
  · refine Unlabelled.append (Unlabelled.append ?_ (unlabelled_addToStack _ _))
      (unlabelled_single rfl)
    intro line hline
    obtain ⟨p, -, hp⟩ := List.mem_flatMap.mp hline
    exact unlabelled_access (fun _ _ => rfl) line hp

variable {next : Option BlockId} {code : List Instr}

theorem unlabelled_instrLines (h : instrLines f layout next i = .ok lines) : Unlabelled lines := by
  cases i with
  | slotAddress rd slot =>
    obtain ⟨value, -, rfl⟩ := Except.bind_pure_eq_ok.mp h
    exact unlabelled_addToStack rd value
  | load width rd base offset =>
    obtain ⟨value, -, rfl⟩ := Except.bind_pure_eq_ok.mp h
    exact unlabelled_access fun _ _ => rfl
  | store width rs base offset =>
    obtain ⟨value, -, rfl⟩ := Except.bind_pure_eq_ok.mp h
    exact unlabelled_access fun _ _ => rfl
  | jump target =>
    simp only [instrLines] at h
    split at h
    · cases h
      intro line hline
      simp at hline
    · obtain ⟨name, -, rfl⟩ := Except.bind_pure_eq_ok.mp h
      exact unlabelled_single rfl
  | branch condition positive negative =>
    simp only [instrLines] at h
    split at h
    · obtain ⟨name, -, rfl⟩ := Except.bind_pure_eq_ok.mp h
      exact unlabelled_single rfl
    · obtain ⟨name, -, h⟩ := Except.bind_eq_ok.mp h
      split at h
      · cases h
        exact unlabelled_single rfl
      · obtain ⟨name', -, rfl⟩ := Except.bind_pure_eq_ok.mp h
        exact (unlabelled_single rfl).append (unlabelled_single rfl)
  | ret value =>
    cases h
    exact unlabelled_epilogue layout
  | _ =>
    cases h
    exact unlabelled_single rfl

/-! ## The text of a function -/

/-- The number of the block that stands next. -/
def following (f : Function) (b : BlockId) : Option BlockId :=
  (f.blocks.get? ⟨b.val + 1⟩).map Block.id

structure Printed (f : Function) (layout : FrameLayout) (blocks : List (List Line)) : Prop where
  length : blocks.length = f.blocks.size
  block : ∀ b block, f.blocks.get? b = some block → ∃ code,
    block.code.mapM (instrLines f layout (following f b)) = .ok code ∧
    blocks[b.val]? = some (.label ("." ++ block.label) :: code.flatten)

theorem functionLines_eq_ok (h : functionLines f = .ok lines) :
    ∃ layout blocks, f.frameLayout = .ok layout ∧ Printed f layout blocks ∧
      lines = .globl f.name :: .alignWord :: .label f.name ::
        (prologue layout ++ blocks.flatten) := by
  obtain ⟨layout, hlayout, h⟩ := Except.bind_eq_ok.mp h
  obtain ⟨blocks, hblocks, rfl⟩ := Except.bind_pure_eq_ok.mp h
  have hall := List.forall₂_of_mapM_eq_ok hblocks
  refine ⟨layout, blocks, hlayout, ⟨?_, ?_⟩, by simp⟩
  · simp [← hall.length_eq, Table.pairs, Table.size]
  · intro b block hb
    have hpair : f.blocks.pairs[b.val]? = some (b, block) := by
      simp only [Table.get?] at hb
      simp [Table.pairs, hb]
    obtain ⟨ls, hls, hblock⟩ := hall.exists_of_getElem? hpair
    obtain ⟨code, hcode, rfl⟩ := Except.bind_pure_eq_ok.mp hblock
    exact ⟨code, hcode, hls⟩

/-- The lines of a block, and what is printed after them. -/
def Stands (f : Function) (layout : FrameLayout) (blocks : List (List Line)) (b : BlockId)
    (name : String) (rest : List Line) : Prop :=
  ∃ block code, f.blocks.get? b = some block ∧ name = "." ++ block.label ∧
    block.code.mapM (instrLines f layout (following f b)) = .ok code ∧
    rest = code.flatten ++ (blocks.drop (b.val + 1)).flatten

theorem unlabelled_flatten {lines : List (List Line)}
    (h : code.mapM (instrLines f layout next) = .ok lines) : Unlabelled lines.flatten := by
  intro line hline
  obtain ⟨ls, hls, hl⟩ := List.mem_flatten.mp hline
  obtain ⟨i, -, hi⟩ := (List.forall₂_of_mapM_eq_ok h).exists_of_mem_right hls
  exact unlabelled_instrLines hi line hl

variable {blocks : List (List Line)}

section

variable (hprinted : Printed f layout blocks)
  (hlabels : (f.blocks.entries.toList.map Block.label).Nodup)
include hprinted hlabels

theorem after_drop (hb : f.blocks.get? b = some block) :
    after ("." ++ block.label) (blocks.drop (b.val + 1)).flatten = none := by
  apply after_eq_none
  intro line hline hdefines
  obtain ⟨ls, hls, hl⟩ := List.mem_flatten.mp hline
  obtain ⟨k, hk⟩ := List.getElem?_of_mem hls
  rw [List.getElem?_drop] at hk
  have hlt : b.val + 1 + k < f.blocks.size := by
    rw [← hprinted.length]
    exact (List.getElem?_eq_some_iff.mp hk).1
  let c : BlockId := ⟨b.val + 1 + k⟩
  obtain ⟨other, hother⟩ : ∃ other, f.blocks.get? c = some other := by
    rw [← Option.isSome_iff_exists, Table.get?_isSome]
    exact hlt
  obtain ⟨code, hcode, hc⟩ := hprinted.block c other hother
  obtain rfl : ls = .label ("." ++ other.label) :: code.flatten := Option.mem_unique hk hc
  rcases List.mem_cons.mp hl with rfl | hl
  · -- two blocks would share a label
    have hlabel : other.label = block.label :=
      (String.append_right_inj ".").mp (Option.some.inj hdefines)
    have hget : ∀ (d : BlockId) (e : Block), f.blocks.get? d = some e →
        (f.blocks.entries.toList.map Block.label)[d.val]? = some e.label := by
      intro d e hd
      simp only [Table.get?] at hd
      simp [hd]
    have hlen : c.val < (f.blocks.entries.toList.map Block.label).length := by
      simpa [Table.size] using hlt
    have heq := (List.getElem?_inj hlen hlabels (j := b.val)).mp
      (by rw [hget c other hother, hget b block hb, hlabel])
    simp only [c] at heq
    omega
  · rw [unlabelled_flatten hcode line hl] at hdefines
    simp at hdefines

theorem goTo_blockLabel (h : blockLabel f b = .ok name) (above : List Line)
    (s : State (Store World)) :
    ∃ rest, goTo (above ++ blocks.flatten) name s = .at name rest s ∧
      Stands f layout blocks b name rest := by
  obtain ⟨block, hfind, rfl⟩ := Except.bind_pure_eq_ok.mp h
  have hb := Table.find_eq_ok.mp hfind
  obtain ⟨code, hcode, hlines⟩ := hprinted.block b block hb
  refine ⟨_, ?_, block, code, hb, rfl, hcode, rfl⟩
  have hafter : after ("." ++ block.label) (blocks.drop b.val).flatten =
      some (code.flatten ++ (blocks.drop (b.val + 1)).flatten) := by
    obtain ⟨hlt, hget⟩ := List.getElem?_eq_some_iff.mp hlines
    rw [List.drop_eq_getElem_cons hlt, hget, List.flatten_cons, List.cons_append, after,
      after_append, after_drop hprinted hlabels hb, after_eq_none fun line hline => by
        rw [unlabelled_flatten hcode line hline]
        simp]
    simp [Line.defines?]
  have htext : after ("." ++ block.label) (above ++ blocks.flatten) =
      some (code.flatten ++ (blocks.drop (b.val + 1)).flatten) := by
    rw [← List.take_append_drop b.val blocks, List.flatten_append, ← List.append_assoc,
      after_append, List.take_append_drop, hafter]
    rfl
  simp only [goTo, htext]

end

/-- **Control falls through to the block that stands next.** -/
theorem runLines_drop (hprinted : Printed f layout blocks)
    (hb : b.val < f.blocks.size) (B : Backing (Store World)) (text : List Line)
    (s : State (Store World)) :
    ∃ name rest, runLines B text (blocks.drop b.val).flatten s = .at name rest s ∧
      Stands f layout blocks b name rest := by
  obtain ⟨block, hblock⟩ := Option.isSome_iff_exists.mp ((Table.get?_isSome f.blocks b).mpr hb)
  obtain ⟨code, hcode, hlines⟩ := hprinted.block b block hblock
  obtain ⟨hlt, hget⟩ := List.getElem?_eq_some_iff.mp hlines
  refine ⟨_, _, ?_, block, code, hblock, rfl, hcode, rfl⟩
  rw [List.drop_eq_getElem_cons hlt, hget]
  rfl

/-- Every block carries the number of its place. -/
def Numbered (f : Function) : Prop :=
  ∀ p ∈ f.blocks.pairs, p.2.id = p.1

/-- The printed blocks of a function whose labels are told apart. -/
structure Text (f : Function) (layout : FrameLayout) (blocks : List (List Line)) : Prop where
  frame : f.frameLayout = .ok layout
  printed : Printed f layout blocks
  numbered : Numbered f
  labels : (f.blocks.entries.toList.map Block.label).Nodup
  size : isWord layout.size = true

variable {above : List Line}

section

variable (T : Text f layout blocks)
include T

theorem agree_goTo (hname : blockLabel f t = .ok name) (hsame : Same s s') :
    Agree (Stands f layout blocks) leaving (.at t s) (goTo (above ++ blocks.flatten) name s') := by
  obtain ⟨rest, hgo, hstands⟩ := goTo_blockLabel T.printed T.labels hname above s'
  rw [hgo]
  exact ⟨hstands, hsame⟩

theorem agree_following {b : BlockId} (hnext : following f b = some t) (hsame : Same s s') :
    Agree (Stands f layout blocks) leaving (.at t s)
      (runLines (E.backing immediate) (above ++ blocks.flatten)
        (blocks.drop (b.val + 1)).flatten s') := by
  obtain ⟨block, hblock, rfl⟩ := Option.map_eq_some_iff.mp hnext
  rw [T.numbered _ (Table.mem_pairs.mpr hblock)]
  obtain ⟨name, rest, hrun, hstands⟩ := runLines_drop T.printed (b := ⟨b.val + 1⟩)
    (Table.lt_size_of_get? hblock) (E.backing immediate) (above ++ blocks.flatten) s'
  rw [hrun]
  exact ⟨hstands, hsame⟩

/-- **The last lines of a block** go where its terminator goes. -/
theorem agree_terminator (hlines : instrLines f layout (following f b) i = .ok lines)
    (hterm : i.isTerminator = true) (hi : PrintableInstr layout i) (hsame : Same s s') :
    Agree (Stands f layout blocks) (leave layout) (runCode (E.backing layout.resolve) [i] s)
      (runLines (E.backing immediate) (above ++ blocks.flatten)
        (lines ++ (blocks.drop (b.val + 1)).flatten) s') := by
  cases i with
  | jump target =>
    simp only [instrLines] at hlines
    split at hlines
    · rename_i hnext
      cases hlines
      exact agree_following T hnext hsame
    · obtain ⟨name, hname, rfl⟩ := Except.bind_pure_eq_ok.mp hlines
      exact agree_goTo T hname hsame
  | branch condition positive negative =>
    have hcond : s'.get condition = s.get condition :=
      hsame.get _ (hi.operands (condition, .use) (by simp [Instr.operands]))
    have hown : runCode (E.backing layout.resolve) [.branch condition positive negative] s =
        .at (if s.get condition = 0 then negative else positive) s := rfl
    rw [hown]
    simp only [instrLines] at hlines
    split at hlines
    · rename_i hnext
      obtain ⟨name, hname, rfl⟩ := Except.bind_pure_eq_ok.mp hlines
      show Agree _ _ _ (if s'.get condition = 0 then goTo (above ++ blocks.flatten) name s'
        else runLines _ _ (blocks.drop (b.val + 1)).flatten s')
      rw [hcond]
      split
      · exact agree_goTo T hname hsame
      · exact agree_following T hnext hsame
    · obtain ⟨name, hname, h⟩ := Except.bind_eq_ok.mp hlines
      split at h
      · rename_i hnext
        cases h
        show Agree _ _ _ (if s'.get condition = 0 then
          runLines _ _ (blocks.drop (b.val + 1)).flatten s' else goTo
            (above ++ blocks.flatten) name s')
        rw [hcond]
        split
        · exact agree_following T hnext hsame
        · exact agree_goTo T hname hsame
      · obtain ⟨name', hname', rfl⟩ := Except.bind_pure_eq_ok.mp h
        show Agree _ _ _ (if s'.get condition = 0 then goTo (above ++ blocks.flatten) name' s'
          else goTo (above ++ blocks.flatten) name s')
        rw [hcond]
        split
        · exact agree_goTo T hname' hsame
        · exact agree_goTo T hname hsame
  | ret value =>
    cases hlines
    obtain ⟨s1, hrun, hsame1⟩ := returned_epilogue E (above ++ blocks.flatten) T.frame T.size hsame
      (blocks.drop (b.val + 1)).flatten
    rw [hrun]
    exact hsame1
  | _ => simp [Instr.isTerminator] at hterm

theorem agree_code (above : List Line) {lines : List (List Line)}
    (hlines : code.mapM (instrLines f layout (following f b)) = .ok lines)
    (hlast : TerminatorLast code) (hterm : (code.getLast?.filter Instr.isTerminator).isSome)
    (hcode : ∀ i ∈ code, PrintableInstr layout i)
    (hcomments : ∀ t, .comment t ∈ code → Text.IsLine t) (hsame : Same s s') :
    Agree (Stands f layout blocks) (leave layout) (runCode (E.backing layout.resolve) code s)
      (runLines (E.backing immediate) (above ++ blocks.flatten)
        (lines.flatten ++ (blocks.drop (b.val + 1)).flatten) s') := by
  induction code generalizing lines s s' with
  | nil => simp at hterm
  | cons i code ih =>
    rw [List.mapM_cons] at hlines
    obtain ⟨ls, hls, hlines⟩ := Except.bind_eq_ok.mp hlines
    obtain ⟨more, hmore, rfl⟩ := Except.bind_pure_eq_ok.mp hlines
    have hi := hcode i (.head _)
    cases code with
    | nil =>
      cases hmore
      have hend : i.isTerminator = true := by
        simpa [Option.filter] using hterm
      simpa using agree_terminator T hls hend hi hsame
    | cons j code =>
      have hinner : i.isTerminator = false := by
        rw [Bool.eq_false_iff]
        intro h
        simpa using hlast.1 h
      rw [List.flatten_cons, List.append_assoc]
      refine agree_instr hls hinner hi (fun t ht => hcomments t (by simp [ht])) hsame
        fun t t' hsame' => ?_
      refine ih hmore hlast.2 ?_ (fun k hk => hcode k (.tail _ hk))
        (fun t ht => hcomments t (.tail _ ht)) hsame'
      simpa using hterm

end

/-- What a function must be like to be printed. -/
structure Printable (f : Function) (layout : FrameLayout) : Prop where
  entry : f.entry = ⟨0⟩ ∧ 0 < f.blocks.size
  numbered : Numbered f
  labels : (f.blocks.entries.toList.map Block.label).Nodup
  terminators : ∀ block ∈ f.blocks.entries.toList,
    TerminatorLast block.code ∧ block.terminator?.isSome
  instrs : ∀ block ∈ f.blocks.entries.toList, ∀ i ∈ block.code, PrintableInstr layout i
  size : isWord layout.size = true

instance (f : Function) (layout : FrameLayout) : Decidable (Printable f layout) :=
  decidable_of_iff ((f.entry = ⟨0⟩ ∧ 0 < f.blocks.size) ∧ (∀ p ∈ f.blocks.pairs, p.2.id = p.1) ∧
      (f.blocks.entries.toList.map Block.label).Nodup ∧
      (∀ block ∈ f.blocks.entries.toList, TerminatorLast block.code ∧ block.terminator?.isSome) ∧
      (∀ block ∈ f.blocks.entries.toList, ∀ i ∈ block.code, PrintableInstr layout i) ∧
      isWord layout.size = true)
    ⟨fun ⟨h1, h2, h3, h4, h5, h6⟩ => ⟨h1, h2, h3, h4, h5, h6⟩,
      fun h => ⟨h.entry, h.numbered, h.labels, h.terminators, h.instrs, h.size⟩⟩

def Labels (f : Function) (b : BlockId) (name : String) (_ : List Line) : Prop :=
  blockLabel f b = .ok name

theorem Stands.labels (h : Stands f layout blocks b name rest) : Labels f b name rest := by
  obtain ⟨block, code, hb, rfl, -⟩ := h
  simp [Labels, blockLabel, Table.find_eq_ok.mpr hb, bind, Except.bind, pure, Except.pure]

theorem agree_runText (T : Text f layout blocks) (hf : Printable f layout) (hplain : SingleLine f)
    (count : Nat) {rest : List Line} (hstands : Stands f layout blocks b name rest)
    (hsame : Same s s') :
    Agree (Stands f layout blocks) (leave layout) (f.runFrom (E.backing layout.resolve) count b s)
      (runText (E.backing immediate) (above ++ blocks.flatten) count (.at name rest s')) := by
  induction count generalizing b name rest s s' with
  | zero => exact ⟨hstands, hsame⟩
  | succ count ih =>
    obtain ⟨block, code, hb, -, hcode, rfl⟩ := hstands
    have hmem : block ∈ f.blocks.entries.toList :=
      Array.mem_toList_iff.mpr (Array.mem_of_getElem? hb)
    obtain ⟨hlast, hterm⟩ := hf.terminators block hmem
    have hcomments : ∀ t, .comment t ∈ block.code → Text.IsLine t := fun t ht =>
      hplain.mentions (.comment t)
        (List.mem_flatMap.mpr ⟨_, List.mem_flatMap.mpr ⟨block, hmem, ht⟩, .head _⟩)
    have hstep := agree_code (E := E) T above hcode hlast hterm (hf.instrs block hmem)
      hcomments hsame
    simp only [Machine.Function.runFrom, Machine.Function.runBlock, hb, runText]
    cases hown : runCode (E.backing layout.resolve) block.code s with
    | «at» next t =>
      rw [hown] at hstep
      cases hstop : runLines (E.backing immediate) (above ++ blocks.flatten)
          (code.flatten ++ (blocks.drop (b.val + 1)).flatten) s' with
      | «at» name' rest' t' =>
        rw [hstop] at hstep
        exact ih hstep.1 hstep.2
      | _ => exact (hstop ▸ hstep).elim
    | returned value t =>
      rw [hown] at hstep
      cases hstop : runLines (E.backing immediate) (above ++ blocks.flatten)
          (code.flatten ++ (blocks.drop (b.val + 1)).flatten) s' with
      | returned t' =>
        rw [hstop] at hstep
        rw [runText_returned]
        exact hstep
      | _ => exact (hstop ▸ hstep).elim
    | halted reason t =>
      rw [hown] at hstep
      cases hstop : runLines (E.backing immediate) (above ++ blocks.flatten)
          (code.flatten ++ (blocks.drop (b.val + 1)).flatten) s' with
      | halted reason' t' =>
        rw [hstop] at hstep
        rw [runText_halted]
        exact hstep
      | _ => exact (hstop ▸ hstep).elim

theorem Agree.runIn
    (h : Agree (Stands f layout blocks) (leave layout)
      (f.run (E.backing layout.resolve) count (enter layout s)) stop) :
    Agree (Labels f) id (Function.runIn f layout E count s) stop := by
  simp only [Function.runIn]
  cases hown : f.run (E.backing layout.resolve) count (enter layout s) with
  | «at» b t =>
    rw [hown] at h
    cases stop with
    | «at» name rest t' => exact ⟨h.1.labels, h.2⟩
    | _ => exact h.elim
  | returned value t =>
    rw [hown] at h
    cases stop with
    | returned t' => exact h
    | _ => exact h.elim
  | halted reason t =>
    rw [hown] at h
    cases stop with
    | halted reason' t' => exact h
    | _ => exact h.elim

/-- **The printed text does what the function does.**  If nothing in it breaks a line,
the text has the lines that were printed for it, and run as they stand they pass,
after the function's own label, the labels of the blocks that the function goes
through, with the same accesses to memory and the same calls, and leave the same
memory and the same registers, the scratch register apart.  That register is not one
of those a function saves; even if it were, a frame within reach of an immediate
would save it unchanged. -/
theorem agree_runText_functionLines {lines : List Line} (hlines : functionLines f = .ok lines)
    (hlayout : f.frameLayout = .ok layout) (hf : Printable f layout) (hplain : SingleLine f)
    (hsaved : Physical.scratch ∈ f.saved → layout.size ≤ 2048) (E : Environment World)
    (s : State (Store World)) (count : Nat) :
    ReadsAs (functionText lines) lines ∧ Agree (Labels f) id (Function.runIn f layout E count s)
      (runText (E.backing immediate) lines (count + 1)
        (runLines (E.backing immediate) lines lines s)) := by
  refine ⟨hplain.readsAs hlines, ?_⟩
  obtain ⟨layout', blocks, hlayout', hprinted, hsplit⟩ := functionLines_eq_ok hlines
  obtain rfl : layout' = layout := Except.ok.inj (hlayout'.symm.trans hlayout)
  have T : Text f layout' blocks := ⟨hlayout, hprinted, hf.numbered, hf.labels, hf.size⟩
  subst hsplit
  let above : List Line := .globl f.name :: .alignWord :: .label f.name :: prologue layout'
  obtain ⟨s₁, hpasses, hsame⟩ :=
    passes_prologue E (above ++ blocks.flatten) hlayout hf.size hsaved s
  obtain ⟨name, rest, hrun, hstands⟩ := runLines_drop hprinted (b := ⟨0⟩) hf.entry.2
    (E.backing immediate) (above ++ blocks.flatten) s₁
  have htop : runText (E.backing immediate) (above ++ blocks.flatten) (count + 1)
      (runLines (E.backing immediate) (above ++ blocks.flatten) (above ++ blocks.flatten) s) =
      runText (E.backing immediate) (above ++ blocks.flatten) count (runLines (E.backing immediate)
        (above ++ blocks.flatten) (prologue layout' ++ blocks.flatten) s) := rfl
  apply Agree.runIn
  show Agree _ _ _ (runText (E.backing immediate) (above ++ blocks.flatten) (count + 1)
    (runLines (E.backing immediate) (above ++ blocks.flatten) (above ++ blocks.flatten) s))
  rw [List.drop_zero] at hrun
  rw [htop, hpasses, hrun, Machine.Function.run, hf.entry.1]
  exact agree_runText T hf hplain count hstands hsame

end

/-- Called functions do not come back. -/
def silent : Environment Unit where
  symbol _ := 0
  call _ _ _ _ := none

/-- All registers but the stack pointer hold one number. -/
def filled (value : Word) : State (Store Unit) where
  registers r := if r = .sp then 65536 else value
  store := { memory := fun _ => 0, world := (), trace := [] }

/-- A function with a large frame that saves a register and leaves a loop. -/
def roomy : Function where
  name := "roomy"
  blocks := ⟨#[
    { id := ⟨0⟩, label := "entry"
      code := [.comment "an address", .slotAddress (.physical .t0) ⟨1⟩,
        .store .word (.physical .a0) .sp (.slot ⟨1⟩), .jump ⟨2⟩] },
    { id := ⟨1⟩, label := "done"
      code := [.load .word (.physical .a0) (.physical .t0) (.immediate 0), .ret true] },
    { id := ⟨2⟩, label := "loop"
      code := [.mv (.physical .s0) (.physical .a0), .load .word (.physical .a1) .sp (.incoming 0),
        .branch (.physical .a1) ⟨1⟩ ⟨2⟩] }]⟩
  frame := { objects := ⟨#[{ size := 4096, alignment := 4 }, { size := 4, alignment := 4 }]⟩ }
  saved := [.s0]

/-- The large frame is reached through the scratch register and the branch is
turned into a jump back. -/
theorem agree_runText_roomy : ∃ lines layout, functionLines roomy = .ok lines ∧
    roomy.frameLayout = .ok layout ∧ Printable roomy layout ∧ SingleLine roomy ∧
    (Physical.scratch ∈ roomy.saved → layout.size ≤ 2048) ∧ ReadsAs (functionText lines) lines ∧
    Agree (Labels roomy) id (Function.runIn roomy layout silent 4 (filled 5))
      (runText (silent.backing immediate) lines 5
        (runLines (silent.backing immediate) lines lines (filled 5))) := by
  obtain ⟨lines, hlines⟩ :=
    Except.exists_of_isOk (by decide +kernel : (functionLines roomy).isOk = true)
  obtain ⟨layout, hlayout⟩ :=
    Except.exists_of_isOk (by decide +kernel : roomy.frameLayout.isOk = true)
  have hprintable : (roomy.frameLayout.toOption.map fun layout =>
      decide (Printable roomy layout)) = some true := by decide +kernel
  have hf : Printable roomy layout := by
    rw [hlayout] at hprintable
    exact of_decide_eq_true (Option.some.inj hprintable)
  have hsaved : Physical.scratch ∈ roomy.saved → layout.size ≤ 2048 := fun h =>
    absurd h (by decide)
  have hplain : SingleLine roomy := ⟨by decide +kernel, by decide +kernel, by decide +kernel⟩
  exact ⟨lines, layout, hlines, hlayout, hf, hplain, hsaved,
    agree_runText_functionLines hlines hlayout hf hplain hsaved silent (filled 5) 4⟩

/-- A function with a comment that goes on behind a line break. -/
def chatty : Function where
  name := "chatty"
  blocks := ⟨#[{ id := ⟨0⟩, label := "entry", code := [.comment "five\n    li a0, 5", .ret true] }]⟩

/-- The lines that the text of `chatty` has. -/
def chattyLines : List Line :=
  [.globl "chatty", .alignWord, .label "chatty", .label ".entry", .comment "five",
    .li (.physical .a0) 5, .ret]

/-- What a function returns with. -/
def result? : Outcome (Store Unit) → Option Word
  | .returned _ s => some (s.get (.physical .a0))
  | _ => none

/-- What a run of lines returns with. -/
def Stop.result? : Stop (Store Unit) → Option Word
  | .returned s => some (s.get (.physical .a0))
  | _ => none

theorem Agree.result?_eq {P : BlockId → String → List Line → Prop} (h : Agree P id outcome stop) :
    stop.result? = result? outcome := by
  cases outcome with
  | «at» b s =>
    cases stop with
    | «at» name rest s' => rfl
    | _ => exact h.elim
  | returned value s =>
    cases stop with
    | returned s' => exact congrArg some (h.get _ (by decide))
    | _ => exact h.elim
  | halted reason s =>
    cases stop with
    | halted reason' s' => rfl
    | _ => exact h.elim

/-- The text has one more instruction than the function, so it returns with another number. -/
theorem not_agree_runText_chatty : ∃ lines layout,
    functionLines chatty = .ok lines ∧ chatty.frameLayout = .ok layout ∧ Printable chatty layout ∧
    Physical.scratch ∉ chatty.saved ∧ ReadsAs (functionText lines) chattyLines ∧
    ¬ Agree (Labels chatty) id (Function.runIn chatty layout silent 1 (filled 7))
      (runText (silent.backing immediate) chattyLines 2
        (runLines (silent.backing immediate) chattyLines chattyLines (filled 7))) := by
  obtain ⟨lines, hlines⟩ :=
    Except.exists_of_isOk (by decide +kernel : (functionLines chatty).isOk = true)
  obtain ⟨layout, hlayout⟩ :=
    Except.exists_of_isOk (by decide +kernel : chatty.frameLayout.isOk = true)
  have hprintable : (chatty.frameLayout.toOption.map fun layout =>
      decide (Printable chatty layout)) = some true := by decide +kernel
  have hreads : ((functionLines chatty).toOption.map fun lines =>
      decide (ReadsAs (functionText lines) chattyLines)) = some true := by decide +kernel
  have hown : (chatty.frameLayout.toOption.map fun layout =>
      result? (Function.runIn chatty layout silent 1 (filled 7))) = some (some 7) := by
    decide +kernel
  have htext : (runText (silent.backing immediate) chattyLines 2 (runLines
      (silent.backing immediate) chattyLines chattyLines (filled 7))).result? = some 5 := by
    decide +kernel
  rw [hlayout] at hprintable hown
  rw [hlines] at hreads
  refine ⟨lines, layout, hlines, hlayout, of_decide_eq_true (Option.some.inj hprintable),
    by decide, of_decide_eq_true (Option.some.inj hreads), fun h => ?_⟩
  have heq := htext.symm.trans (h.result?_eq.trans (Option.some.inj hown))
  exact absurd heq (by decide)

end MxStar.Assembly
