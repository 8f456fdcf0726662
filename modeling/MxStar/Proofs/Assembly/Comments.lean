import MxStar.Proofs.Assembly.Labels
import MxStar.Proofs.Machine.SelectedComments

/-!
# Comments in the emitted text

A comment is printed on a line of its own.  The text of a function without comments is that
of the function with its comment lines deleted.
-/

namespace MxStar.Assembly

open Machine (Function Block Instr FrameLayout dropComments)
open MxStar.Text (IsLine printed deleteLines deleteLinesAt)

/-! ## Lines -/

def Line.isComment : Line → Bool
  | .comment _ => true
  | _ => false

def dropCommentLines (lines : List Line) : List Line :=
  lines.filter fun line => !line.isComment

theorem dropCommentLines_eq_self (h : ∀ text, .comment text ∉ marksOf lines) :
    dropCommentLines lines = lines := by
  refine List.filter_eq_self.mpr fun line hline => ?_
  cases line with
  | comment text => exact absurd (List.mem_flatMap.mpr ⟨_, hline, .head _⟩) (h text)
  | _ => rfl

theorem dropCommentLines_append (lines more : List Line) :
    dropCommentLines (lines ++ more) = dropCommentLines lines ++ dropCommentLines more :=
  List.filter_append ..

theorem blockLabel_bare (f : Function) (id : Machine.BlockId) :
    blockLabel f.bare id = blockLabel f id := by
  simp only [blockLabel, Function.bare, Table.find, Table.get?_map]
  cases f.blocks.get? id <;> rfl

section

variable (f : Function) (layout : FrameLayout)
include f layout

theorem instrLines_bare (next : Option Machine.BlockId) (i : Instr) :
    instrLines f.bare layout next i = instrLines f layout next i := by
  cases i <;> simp only [instrLines, blockLabel_bare]

theorem codeLines_dropComments (next : Option Machine.BlockId) (code : List Instr) :
    List.flatten <$> (dropComments code).mapM (instrLines f layout next) =
      (fun pieces => dropCommentLines pieces.flatten) <$> code.mapM (instrLines f layout next) := by
  induction code with
  | nil => rfl
  | cons i rest ih =>
    cases hi : i.isComment with
    | true =>
      obtain ⟨text, rfl⟩ : ∃ text, i = .comment text := by
        cases i <;> first | exact ⟨_, rfl⟩ | cases hi
      refine Eq.trans ih ?_
      rw [List.mapM_cons]
      simp only [instrLines, Machine.Except.ok_bind, map_bind, map_pure]
      rfl
    | false =>
      have hcons : dropComments (i :: rest) = i :: dropComments rest := by simp [dropComments, hi]
      rw [hcons, List.mapM_cons, List.mapM_cons]
      cases hlines : instrLines f layout next i with
      | error e => rfl
      | ok lines =>
        have hkept : dropCommentLines lines = lines := dropCommentLines_eq_self fun text htext => by
          have hspells : i = .comment text := spells_of_instrLines hlines _ htext
          rw [hspells] at hi
          cases hi
        have hrest := congrArg (fun more => (lines ++ ·) <$> more) ih
        simp only [Functor.map_map] at hrest
        simp only [Machine.Except.ok_bind, bind_pure_comp, Functor.map_map, List.flatten_cons]
        rw [hrest]
        congr
        funext pieces
        rw [dropCommentLines_append, hkept]

theorem blockLines_bare (id : Machine.BlockId) (b : Block) :
    blockLines f.bare layout id b.bare = dropCommentLines <$> blockLines f layout id b := by
  have hnext : (f.bare.blocks.get? ⟨id.val + 1⟩).map Block.id =
      (f.blocks.get? ⟨id.val + 1⟩).map Block.id := by
    simp [Function.bare, Function.comp_def, Block.bare]
  have hinstr : ∀ next, instrLines f.bare layout next = instrLines f layout next :=
    fun next => funext fun i => instrLines_bare f layout next i
  simp only [blockLines, hnext, hinstr, Block.bare, bind_pure_comp, Functor.map_map]
  have hcode := congrArg (fun lines => (Line.label ("." ++ b.label) :: ·) <$> lines)
    (codeLines_dropComments f layout ((f.blocks.get? ⟨id.val + 1⟩).map Block.id) b.code)
  simp only [Functor.map_map] at hcode
  exact hcode

end

/-- **The lines of a function without comments** are its lines without comment lines. -/
theorem functionLines_bare (f : Function) :
    functionLines f.bare = dropCommentLines <$> functionLines f := by
  have hblocks : ∀ (layout : FrameLayout) (pairs : List (Machine.BlockId × Block)),
      (pairs.map fun p => (p.1, p.2.bare)).mapM (fun (id, b) => blockLines f.bare layout id b) =
        List.map dropCommentLines <$> pairs.mapM fun (id, b) => blockLines f layout id b := by
    intro layout pairs
    induction pairs with
    | nil => rfl
    | cons p rest ih =>
      simp only [List.map_cons, List.mapM_cons, blockLines_bare, ih, map_bind,
        bind_map_left, map_pure]
  have hprologue : ∀ layout, dropCommentLines (prologue layout) = prologue layout :=
    fun layout => dropCommentLines_eq_self fun text => by simp [marksOf_prologue]
  have hpairs : f.bare.blocks.pairs = f.blocks.pairs.map fun p => (p.1, p.2.bare) :=
    Table.pairs_map _ _
  simp only [functionLines, show f.bare.frameLayout = f.frameLayout from rfl,
    show f.bare.name = f.name from rfl, hpairs, hblocks, map_bind, bind_map_left, map_pure]
  refine bind_congr fun layout => bind_congr fun blocks => ?_
  rw [dropCommentLines_append, dropCommentLines_append, hprologue, dropCommentLines,
    dropCommentLines, List.filter_flatten]
  rfl

/-! ## Units -/

section

open Logged (Mirrors)
open Machine (Module Options)

variable {program : Flow.Program}

theorem mirrors_selectFunction (h : source.InRange) (options : Options) :
    Mirrors Function.bare (Machine.selectFunction program options source)
      (Machine.selectFunction program { options with comments := false } source) := by
  rw [Machine.selectFunction, Machine.selectFunction, Function.ofFlow_quiet h]
  exact .bind (.ofExcept rfl) fun f _ => .bind (.note _ _) fun _ _ => .pure f

theorem mirrors_allocateFunction (h : f.EndsInCode) (options : Options) :
    Mirrors Function.bare (allocateFunction options f)
      (allocateFunction { options with comments := false } f.bare) := by
  refine .bind (f.mirrors_allocateRegisters_bare h {} options) fun r _ => ?_
  obtain ⟨g, l, failure⟩ := r
  cases failure with
  | some e => exact .throw e
  | none => exact .pure g

def bareModule (m : Module) : Module :=
  { m with functions := m.functions.map Function.bare }

def Sections.bare (s : Sections) : Sections :=
  { s with text := s.text.map dropCommentLines }

theorem mirrors_ofFlow (h : ∀ f ∈ program.allFunctions, f.InRange) (options : Options) :
    Mirrors bareModule (Module.ofFlow program options)
      (Module.ofFlow program { options with comments := false }) := by
  refine .bind (.ofExcept (id_map _).symm) fun globals _ => ?_
  have hfuns : Mirrors (List.map Function.bare)
      (program.allFunctions.mapM (Machine.selectFunction program options))
      ((program.allFunctions.map id).mapM
        (Machine.selectFunction program { options with comments := false })) :=
    .mapM fun f hf => mirrors_selectFunction (h f hf) options
  rw [List.map_id] at hfuns
  exact .bind hfuns fun functions _ => .pure _

theorem mirrors_allocateUnit (h : ∀ f ∈ program.allFunctions, f.InRange) (options : Options) :
    Mirrors bareModule (allocateUnit program options)
      (allocateUnit program { options with comments := false }) := by
  refine .bind (mirrors_ofFlow h options) fun selected hsel => ?_
  obtain ⟨log, log', hsel⟩ := hsel
  refine .bind (.mapM fun f hf => ?_) fun functions _ => .bind (.note _ _) fun _ _ => .pure _
  obtain ⟨source, -, hflow⟩ := (Module.forall₂_ofFlow hsel).exists_of_mem_right hf
  exact mirrors_allocateFunction (Function.endsInCode_ofFlow hflow) options

theorem sections_bareModule (m : Module) :
    Sections.ofModule (bareModule m) = Sections.bare <$> Sections.ofModule m := by
  have hlines : ∀ functions : List Function, (functions.map Function.bare).mapM functionLines =
      List.map dropCommentLines <$> functions.mapM functionLines := by
    intro functions
    induction functions with
    | nil => rfl
    | cons f rest ih =>
      simp only [List.map_cons, List.mapM_cons, functionLines_bare, ih, map_bind, bind_map_left,
        map_pure]
  simp only [Sections.ofModule, bareModule, hlines, bind_map_left, map_bind]
  rfl

theorem mirrors_sections (h : ∀ f ∈ program.allFunctions, f.InRange) (options : Options) :
    Mirrors Sections.bare (Sections.ofFlow program options)
      (Sections.ofFlow program { options with comments := false }) :=
  .bind (mirrors_allocateUnit h options) fun m _ => .ofExcept (sections_bareModule m)

end

/-! ## Lines of text -/

section

open Logged (Mirrors)
open Machine (Module Options)

variable {program : Flow.Program} {lines : List Line} {options : Options}

variable {f : Function} {log log' : Log} {s : Sections}

theorem isLine_operandReferences {o : Flow.Operand} (h : o.OneLine) :
    ∀ r ∈ o.references, IsLine (mentionText (.label r)) := by
  cases o with
  | global name => simpa [Flow.Operand.references, mentionText] using show IsLine name from h
  | string id =>
    have hlabel : IsLine (Machine.stringLabel id) :=
      Text.isLine_append.mpr ⟨by decide +kernel, Text.isLine_toString_nat _⟩
    simpa [Flow.Operand.references, mentionText] using hlabel
  | _ => simp [Flow.Operand.references]

theorem isLine_instrReferences {i : Flow.Instr} (h : i.OneLine) :
    ∀ r ∈ i.references, IsLine (mentionText (.label r)) := by
  intro r hr
  rcases List.mem_append.mp hr with hr | hr
  · obtain ⟨o, ho, hr⟩ := List.mem_flatMap.mp hr
    exact isLine_operandReferences (h.operands o ho) r hr
  · cases i with
    | call d callee arguments =>
      obtain rfl := List.mem_singleton.mp hr
      exact h.names callee (.head _)
    | _ => simp at hr

theorem SingleLine.of_ofFlow {source : Flow.Function} (hrange : source.InRange)
    (hplain : source.SingleLine) (h : Function.ofFlow program source options = .ok f) :
    SingleLine f where
  name := Function.name_ofFlow h ▸ hplain.name
  labels := by
    intro label hlabel
    rw [Function.blockLabels_ofFlow h] at hlabel
    obtain ⟨id, -, hid⟩ := List.mem_filterMap.mp hlabel
    obtain ⟨b, hb, rfl⟩ := Option.map_eq_some_iff.mp hid
    exact hplain.labels id b hb
  mentions := by
    intro x hx
    obtain ⟨id, b, hid, hb, hx⟩ := Machine.exists_mem_mentions_of_ofFlow h hx
    cases x with
    | label r =>
      rcases List.mem_append.mp hx with hr | hr
      · obtain ⟨i, hi, hr⟩ := List.mem_flatMap.mp hr
        exact isLine_instrReferences (hplain.instrs id hid b hb i hi) r hr
      · obtain ⟨t, ht, hr⟩ := List.mem_flatMap.mp hr
        obtain ⟨o, ho, hr⟩ := List.mem_flatMap.mp hr
        exact isLine_operandReferences
          (hplain.terminators id hid b hb t (by simpa using ht) o ho) r hr
    | comment text =>
      have hline : ∀ {listing}, Flow.Lists True listing → ∀ {s}, listing = .ok s →
          IsLine (Text.withoutControls s) := by
        rintro _ ⟨s, rfl, hs⟩ s' hs'
        cases hs'
        exact (hs trivial).withoutControls
      rcases hx with ⟨i, hi, listing, hlisting, rfl⟩ | ⟨t, ht, listing, hlisting, rfl⟩
      · exact hline (hrange.lists_instr (fun _ => hplain) _ hid hb hi) hlisting
      · exact hline (hrange.lists_terminator (fun _ => hplain) _ hid hb ht) hlisting

theorem SingleLine.allocateRegisters (h : SingleLine f)
    (halloc : f.allocateRegisters l options log = .ok (g, l', none) log') : SingleLine g := by
  obtain ⟨hname, hlabels⟩ := Function.labels_of_allocateRegisters halloc
  exact ⟨hname ▸ h.name, hlabels ▸ h.labels,
    Function.mentions_of_allocateRegisters halloc ▸ h.mentions⟩

theorem exists_of_mem_text (h : Sections.ofFlow program options log = .ok s log')
    (hlines : lines ∈ s.text) :
    ∃ source ∈ program.allFunctions, ∃ f g l before after,
      Function.ofFlow program source options = .ok f ∧
      f.allocateRegisters {} options before = .ok (g, l, none) after ∧
      functionLines g = .ok lines := by
  obtain ⟨m, log1, hunit, h⟩ := EStateM.bind_eq_ok.mp h
  obtain ⟨text, htext, h⟩ := Except.bind_eq_ok.mp (EStateM.ofExcept_eq_ok.mp h).1
  cases h
  obtain ⟨selected, log2, hsel, functions, log3, hfuns, hunit⟩ :=
    EStateM.bind2_eq_ok.mp hunit
  obtain ⟨_, log4, -, hunit⟩ := EStateM.bind_eq_ok.mp hunit
  obtain ⟨rfl, -⟩ := EStateM.pure_eq_ok.mp hunit
  obtain ⟨g, hg, hlines⟩ := (List.forall₂_of_mapM_eq_ok htext).exists_of_mem_right hlines
  obtain ⟨f, hf, before, after, halloc⟩ :=
    (EStateM.forall₂_of_mapM_eq_ok hfuns).exists_of_mem_right hg
  obtain ⟨source, hsource, hflow⟩ := (Module.forall₂_ofFlow hsel).exists_of_mem_right hf
  obtain ⟨l, halloc⟩ := allocateRegisters_of_allocateFunction halloc
  exact ⟨source, hsource, f, g, l, before, after, hflow, halloc, hlines⟩

theorem isLine_of_mem_text (hrange : ∀ f ∈ program.allFunctions, f.InRange)
    (hplain : ∀ f ∈ program.allFunctions, f.SingleLine)
    (h : Sections.ofFlow program options log = .ok s log') (hlines : lines ∈ s.text) :
    ∀ line ∈ lines, IsLine line.text := by
  obtain ⟨source, hsource, f, g, l, before, after, hflow, halloc, hlines⟩ :=
    exists_of_mem_text h hlines
  exact ((SingleLine.of_ofFlow (hrange source hsource) (hplain source hsource)
    hflow).allocateRegisters halloc).isLine_text hlines

theorem head?_of_mem_labelsOf (hnames : ∀ f ∈ program.allFunctions, f.name.toList.head? ≠ some ' ')
    (h : Sections.ofFlow program options log = .ok s log') (hlines : lines ∈ s.text) :
    ∀ name ∈ labelsOf lines, name.toList.head? ≠ some ' ' := by
  obtain ⟨source, hsource, f, g, l, before, after, hflow, halloc, hlines⟩ :=
    exists_of_mem_text h hlines
  intro name hname
  rw [labelsOf_functionLines hlines] at hname
  rcases List.mem_cons.mp hname with rfl | hname
  · rw [(Function.labels_of_allocateRegisters halloc).1, Function.name_ofFlow hflow]
    exact hnames source hsource
  · obtain ⟨label, -, rfl⟩ := List.mem_map.mp hname
    simp

def isCommentAt (lines : List Line) (n : Nat) : Bool :=
  lines[n]?.any Line.isComment

theorem deleteLinesAt_functionText (h : ∀ line ∈ lines, IsLine line.text) :
    deleteLinesAt (isCommentAt lines) (functionText lines) =
      functionText (dropCommentLines lines) := by
  have hlines : ∀ s ∈ lines.map Line.text, IsLine s := by simpa using h
  have hkept : ∀ x ∈ lines.zipIdx, (!isCommentAt lines x.2) = !x.1.isComment := fun x hx => by
    rw [isCommentAt, List.mem_zipIdx_iff_getElem?.mp hx, Option.any_some]
  rw [functionText_eq_printed, functionText_eq_printed,
    Text.deleteLinesAt_printed hlines (by simp [isCommentAt]), List.zipIdx_map, List.filter_map,
    List.map_map, dropCommentLines]
  refine congrArg printed ?_
  calc ((lines.zipIdx.filter fun x => !isCommentAt lines x.2).map fun x => x.1.text)
      = (lines.zipIdx.filter fun x => !x.1.isComment).map fun x => x.1.text := by
        rw [List.filter_congr hkept]
    _ = ((lines.zipIdx.map Prod.fst).filter fun line => !line.isComment).map Line.text := by
        rw [List.filter_map, List.map_map]
        rfl
    _ = (lines.filter fun line => !line.isComment).map Line.text := by
        rw [List.zipIdx_map_fst]

/-- Whether a line of text looks like a comment. -/
def isCommentText (s : String) : Bool :=
  "    # ".toList.isPrefixOf s.toList

theorem head?_content {line : Line} (hcomment : line.isComment = false)
    (hlabel : line.defines? = none) : line.content.toList.head? ≠ some '#' := by
  cases line with
  | label name => cases hlabel
  | comment text => cases hcomment
  | alu op rd rs1 rs2 => cases op <;> simp [Line.content, Machine.AluOp.mnemonic, toString]
  | aluImm op rd rs1 value => cases op <;> simp [Line.content, Machine.AluImmOp.mnemonic, toString]
  | load width rd base offset =>
      cases width <;> simp [Line.content, Machine.Width.loadMnemonic, toString]
  | store width rs base offset =>
      cases width <;> simp [Line.content, Machine.Width.storeMnemonic, toString]
  | _ => simp [Line.content, toString]

theorem isPrefixOf_of_head?_ne {text : List Char} (h : text.head? ≠ some c) :
    (c :: cs).isPrefixOf text = false := by
  cases text with
  | nil => rfl
  | cons d rest =>
    have hne : c ≠ d := fun hcd => h (congrArg some hcd.symm)
    simp [List.isPrefixOf, hne]

theorem isCommentText_text {line : Line}
    (h : ∀ name, line.defines? = some name → name.toList.head? ≠ some ' ') :
    isCommentText line.text = line.isComment := by
  cases hdefines : line.defines? with
  | some name =>
    cases line with
    | label name' =>
      have hhead : (name' ++ ":").toList.head? ≠ some ' ' := by
        have hname := h name' rfl
        cases hchars : name'.toList <;> simp_all
      exact isPrefixOf_of_head?_ne hhead
    | _ => cases hdefines
  | none =>
    have htext : isCommentText line.text = "# ".toList.isPrefixOf line.content.toList := by
      cases line with
      | label name => cases hdefines
      | _ => simp [isCommentText, Line.text]
    rw [htext]
    cases hcomment : line.isComment with
    | true =>
      cases line with
      | comment text => simp [Line.content, toString]
      | _ => cases hcomment
    | false => exact isPrefixOf_of_head?_ne (head?_content hcomment hdefines)

theorem deleteLines_functionText (h : ∀ line ∈ lines, IsLine line.text)
    (hlabels : ∀ name ∈ labelsOf lines, name.toList.head? ≠ some ' ') :
    deleteLines isCommentText (functionText lines) = functionText (dropCommentLines lines) := by
  have hkept : ∀ line ∈ lines, (!isCommentText line.text) = !line.isComment := fun line hline => by
    rw [isCommentText_text fun name hname => hlabels name
      (List.mem_filterMap.mpr ⟨line, hline, hname⟩)]
  rw [functionText_eq_printed, functionText_eq_printed,
    Text.deleteLines_printed (by simpa using h) (by decide +kernel), List.filter_map,
    dropCommentLines, ← List.filter_congr hkept]
  rfl

/-- **Comments never change the code.**  Selection and allocation succeed with comments on
exactly when they do with comments off, take the same rounds to the same colours, and give
the same functions but for the comments.  If no name breaks a line, the text of the functions
is the same but for the lines of comments. -/
theorem mirrors_without_comments (hrange : ∀ f ∈ program.allFunctions, f.InRange)
    (options : Options) :
    Mirrors bareModule (allocateUnit program { options with comments := true })
        (allocateUnit program { options with comments := false }) ∧
      (∀ source ∈ program.allFunctions, ∀ f,
        Function.ofFlow program source { options with comments := true } = .ok f →
          Function.ofFlow program source { options with comments := false } = .ok f.bare ∧
          ∀ l, f.bare.allocate l { options with comments := false } =
            Machine.Allocation.bare <$> f.allocate l { options with comments := true }) ∧
      Mirrors Sections.bare (Sections.ofFlow program { options with comments := true })
        (Sections.ofFlow program { options with comments := false }) ∧
      ((∀ f ∈ program.allFunctions, f.SingleLine) → ∀ s log₁ log₂ quiet log₃ log₄,
        Sections.ofFlow program { options with comments := true } log₁ = .ok s log₂ →
        Sections.ofFlow program { options with comments := false } log₃ = .ok quiet log₄ →
          quiet.text.map functionText =
            s.text.map (fun lines => deleteLinesAt (isCommentAt lines) (functionText lines)) ∧
          ((∀ f ∈ program.allFunctions, f.name.toList.head? ≠ some ' ') →
            quiet.text.map functionText =
              s.text.map fun lines => deleteLines isCommentText (functionText lines))) := by
  have hsections := mirrors_sections hrange { options with comments := true }
  refine ⟨mirrors_allocateUnit hrange _, fun source hsource f hf => ⟨?_, fun l => ?_⟩, hsections,
    fun hplain s log₁ log₂ quiet log₃ log₄ hs hquiet => ?_⟩
  · rw [Function.ofFlow_quiet (hrange source hsource) { options with comments := true }, hf]
    rfl
  · exact Function.allocate_bare (Function.endsInCode_ofFlow hf) l _
  · obtain rfl := hsections.eq_of_ok hs hquiet
    have hlines := fun lines (h : lines ∈ s.text) => isLine_of_mem_text hrange hplain hs h
    rw [Sections.bare, List.map_map]
    refine ⟨List.map_congr_left fun lines h => ?_, fun hnames => List.map_congr_left
      fun lines h => ?_⟩
    · exact (deleteLinesAt_functionText (hlines lines h)).symm
    · exact (deleteLines_functionText (hlines lines h) (head?_of_mem_labelsOf hnames hs h)).symm

/-- Adds one to what its parameter points at. -/
def bump : Flow.Function where
  name := "bump"
  returnType := .void
  parameters := [⟨0⟩]
  registers := ⟨#[{ ty := .pointer .int 1, name := some "counter" }, { ty := .int },
    { ty := .int }]⟩
  blocks := ⟨#[
    { label := "entry"
      instrs := #[.load ⟨1⟩ (.register ⟨0⟩), .arith .add ⟨2⟩ (.register ⟨1⟩) (.constant (.int 1)),
        .store (.register ⟨2⟩) (.register ⟨0⟩)]
      terminator := some (.jump ⟨1⟩) },
    { label := "exit"
      terminator := some (.ret none) }]⟩
  layout := [⟨0⟩, ⟨1⟩]

/-- There are five comments, and without their lines the text is that of no comments. -/
theorem mirrors_without_comments_bump :
    bump.InRange ∧ bump.SingleLine ∧ ∃ s log quiet log',
      Sections.ofFlow { functions := [bump] } { comments := true } #[] = .ok s log ∧
      Sections.ofFlow { functions := [bump] } { comments := false } #[] = .ok quiet log' ∧
      s.text.map functionText =
        ["    .globl bump\n    .p2align 2\nbump:\n.entry:\n    mv t1, a0\n" ++
        "    # %1 = load i32, i32* %counter.0\n    lw t0, 0(t1)\n" ++
        "    # %2 = add i32 %1, 1\n    addi t0, t0, 1\n" ++
        "    # store i32 %2, i32* %counter.0\n    sw t0, 0(t1)\n" ++
        "    # br label %exit\n.exit:\n    # ret void\n    ret\n"] ∧
      quiet.text.map functionText =
        s.text.map fun lines => deleteLines isCommentText (functionText lines) := by
  have hrange : bump.InRange := by decide +kernel
  have hplain : bump.SingleLine := by decide +kernel
  have htexts : (match Sections.ofFlow { functions := [bump] } { comments := true } #[] with
      | .ok s _ => some (s.text.map functionText)
      | .error _ _ => none) =
          some ["    .globl bump\n    .p2align 2\nbump:\n.entry:\n    mv t1, a0\n" ++
        "    # %1 = load i32, i32* %counter.0\n    lw t0, 0(t1)\n" ++
        "    # %2 = add i32 %1, 1\n    addi t0, t0, 1\n" ++
        "    # store i32 %2, i32* %counter.0\n    sw t0, 0(t1)\n" ++
        "    # br label %exit\n.exit:\n    # ret void\n    ret\n"] := by decide +kernel
  split at htexts
  · rename_i s log hs
    have hall : ∀ f ∈ Flow.Program.allFunctions { functions := [bump] }, f = bump := by
      simp [Flow.Program.allFunctions]
    obtain ⟨-, -, hsections, htext⟩ := mirrors_without_comments (fun f hf => hall f hf ▸ hrange) {}
    obtain ⟨log', hquiet⟩ := Logged.outcome_eq_ok.mp
      ((hsections #[] #[]).trans (by rw [Logged.outcome_eq_ok.mpr ⟨log, hs⟩]; rfl))
    refine ⟨hrange, hplain, s, log, s.bare, log', hs, hquiet, Option.some.inj htexts, ?_⟩
    refine (htext (fun f hf => hall f hf ▸ hplain) s _ _ _ _ _ hs hquiet).2 fun f hf => ?_
    rw [hall f hf]
    decide +kernel
  · cases htexts

end

end MxStar.Assembly
