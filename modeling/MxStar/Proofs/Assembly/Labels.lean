import MxStar.Proofs.Assembly.Marks
import MxStar.Proofs.Flow.Labels
import MxStar.Proofs.Machine.LinkedUnit

/-!
# Labels of the emitted text

The text of a unit defines a label for each string, global, function and block.  Those of
strings and blocks begin with a dot and end in a number, and a dot sets the class of a
method off from its name, so most of these families cannot meet.  Two can: a global and a
function of the same name, and a constructor and a method of the same name.
-/

variable {f g : Function}

namespace MxStar.Machine

/-! ## Blocks of machine code -/

theorem labels_spillBlocks (slots : SpillSlots) (next : Nat) (blocks : List Block) :
    (spillBlocks slots next blocks).1.map Block.label = blocks.map Block.label := by
  induction blocks generalizing next with
  | nil => rfl
  | cons b rest ih => simp [spillBlocks, ih]

theorem Function.blockLabels_spill (f : Function) (registers : List VirtualId) :
    (f.spill registers).blockLabels = f.blockLabels := by
  simp only [Function.spill, Function.blockLabels]
  exact labels_spillBlocks _ _ _

theorem Function.blockLabels_assign (f : Function) (a : Assignment) :
    (f.assign a).blockLabels = f.blockLabels := by
  simp [Function.assign, Function.blockLabels, Table.map, Block.assign, Function.comp_def]

theorem Spills.labels (h : Spills f g) : g.name = f.name ∧ g.blockLabels = f.blockLabels := by
  induction h with
  | refl => exact ⟨rfl, rfl⟩
  | step registers _ ih => exact ⟨ih.1, ih.2.trans (Function.blockLabels_spill _ registers)⟩

theorem Function.labels_of_allocateRegisters
    (h : f.allocateRegisters l options log = .ok (f', l', none) log') :
    f'.name = f.name ∧ f'.blockLabels = f.blockLabels := by
  obtain ⟨-, g, live, a, hspills, -, -, rfl⟩ := Function.allocateRegisters_eq_ok h
  rw [Function.blockLabels_assign]
  exact hspills.labels

theorem Function.blockLabels_ofFlow (h : Function.ofFlow program source options = .ok f) :
    f.blockLabels = source.laidLabels := by
  obtain ⟨blocks, parameters, pieces, n, N, hblocks, -, -, -, hcode, -⟩ := ofFlow_eq_ok h
  have hlabels : f.blockLabels = blocks.map fun q => q.2.label := by
    rw [Function.blockLabels, hcode, List.map_map]
    conv_rhs => rw [← List.zipIdx_map_fst 0 blocks, List.map_map]
    rfl
  rw [hlabels, Flow.Function.laidLabels]
  have hpairs := Flow.Function.forall₂_orderedBlocks hblocks
  clear hblocks hcode hlabels
  generalize source.layout = layout at hpairs ⊢
  induction hpairs with
  | nil => rfl
  | cons hp _ ih => rw [List.map_cons, ih, List.filterMap_cons, hp.2, Option.map_some]

end MxStar.Machine

namespace MxStar.Assembly

open Machine (Module Function DataItem)

/-! ## Lines that define labels -/

def labelsOf (lines : List Line) : List String :=
  lines.filterMap Line.defines?

theorem labelsOf_append (lines more : List Line) :
    labelsOf (lines ++ more) = labelsOf lines ++ labelsOf more :=
  List.filterMap_append

theorem labelsOf_flatten (lists : List (List Line)) :
    labelsOf lists.flatten = lists.flatMap labelsOf := by
  induction lists with
  | nil => rfl
  | cons lines rest ih => rw [List.flatten_cons, labelsOf_append, ih, List.flatMap_cons]

theorem labelsOf_flatMap {α : Type} (lines : α → List Line) (l : List α) :
    labelsOf (l.flatMap lines) = l.flatMap fun a => labelsOf (lines a) :=
  List.filterMap_flatMap

variable {lines : List Line}

theorem label_mem_marksOf {name : String} :
    .label name ∈ marksOf lines ↔ name ∈ labelsOf lines := by
  simp only [marksOf, labelsOf, List.mem_flatMap, List.mem_filterMap]
  refine exists_congr fun line => and_congr_right fun _ => ?_
  cases line <;> simp [Line.marks, Line.defines?, eq_comm]

theorem labelsOf_eq_nil (h : ∀ name, .label name ∉ marksOf lines) : labelsOf lines = [] :=
  List.eq_nil_iff_forall_not_mem.mpr fun name hname => h name (label_mem_marksOf.mpr hname)

theorem labelsOf_blockLines {id : Machine.BlockId} (h : blockLines f layout id b = .ok lines) :
    labelsOf lines = ["." ++ b.label] := by
  obtain ⟨code, rfl, hcode⟩ := spells_of_blockLines h
  have hnone : labelsOf code = [] := labelsOf_eq_nil fun name hname => (hcode _ hname).choose_spec.2
  exact congrArg (List.cons _) hnone

theorem labelsOf_functionLines (h : functionLines f = .ok lines) :
    labelsOf lines = f.name :: f.blockLabels.map ("." ++ ·) := by
  obtain ⟨layout, -, h⟩ := Except.bind_eq_ok.mp h
  obtain ⟨blocks, hblocks, rfl⟩ := Except.bind_pure_eq_ok.mp h
  have hlabels : blocks.flatMap labelsOf = f.blockLabels.map ("." ++ ·) := by
    have hpairs := (List.forall₂_of_mapM_eq_ok hblocks).imp fun q lines hlines =>
      (labelsOf_blockLines hlines).symm
    rw [List.flatMap_def, ← hpairs.map_eq_map, ← List.flatMap_def, ← List.map_eq_flatMap,
      Function.blockLabels, List.map_map, Table.pairs, List.map_map]
    conv_rhs => rw [← List.zipIdx_map_fst 0 f.blocks.entries.toList, List.map_map]
    rfl
  have hprologue : labelsOf (prologue layout) = [] :=
    labelsOf_eq_nil fun name => by simp [marksOf_prologue]
  rw [labelsOf_append, labelsOf_append, hprologue, List.append_nil, labelsOf_flatten, hlabels]
  rfl

theorem labelsOf_dataLines (item : DataItem) : labelsOf (dataLines item) = [item.label] := by
  unfold dataLines
  split <;> rfl

def Sections.labels (s : Sections) : List String :=
  labelsOf s.rodata ++ labelsOf s.data ++ labelsOf s.text.flatten

theorem labelsOf_stringLines (strings : List (String × String)) :
    labelsOf (strings.flatMap fun (label, value) => stringLines label value) =
      strings.map Prod.fst := by
  rw [labelsOf_flatMap, List.map_eq_flatMap]
  rfl

theorem Sections.labels_ofModule (h : Sections.ofModule m = .ok s) :
    s.labels = m.strings.map Prod.fst ++ m.globals.map DataItem.label ++
      m.functions.flatMap fun f => f.name :: f.blockLabels.map ("." ++ ·) := by
  obtain ⟨text, htext, rfl⟩ := Except.bind_pure_eq_ok.mp h
  have hglobals : labelsOf (m.globals.flatMap dataLines) = m.globals.map DataItem.label := by
    simp only [labelsOf_flatMap, labelsOf_dataLines, List.map_eq_flatMap]
  have hfuns : labelsOf text.flatten =
      m.functions.flatMap fun f => f.name :: f.blockLabels.map ("." ++ ·) := by
    have hpairs := (List.forall₂_of_mapM_eq_ok htext).imp fun f lines hlines =>
      (labelsOf_functionLines hlines).symm
    rw [labelsOf_flatten, List.flatMap_def, ← hpairs.map_eq_map, ← List.flatMap_def]
  rw [Sections.labels, labelsOf_stringLines, hglobals, hfuns]

/-! ## Labels of a unit -/

section

variable {program : Flow.Program} {options : Machine.Options} {sections : Sections}
  {before after : Log}

def allocateUnit (program : Flow.Program) (options : Machine.Options) : Logged Module := do
  let selected ← Module.ofFlow program options
  let functions ← selected.functions.mapM (allocateFunction options)
  note (.generatedUnit functions.length selected.strings.length)
  return { selected with functions }

def Sections.ofFlow (program : Flow.Program) (options : Machine.Options) : Logged Sections := do
  ofExcept (Sections.ofModule (← allocateUnit program options))

theorem generate_eq_render (program : Flow.Program) (options : Machine.Options) :
    generate program options = Sections.render <$> Sections.ofFlow program options := by
  simp only [generate, Sections.ofFlow, allocateUnit, map_bind, bind_assoc, pure_bind]
  refine bind_congr fun selected => bind_congr fun functions => bind_congr fun _ => ?_
  unfold emit
  cases Sections.ofModule { selected with functions } <;> rfl

theorem allocateRegisters_of_allocateFunction
    (h : allocateFunction options f before = .ok g after) :
    ∃ l, f.allocateRegisters {} options before = .ok (g, l, none) after := by
  obtain ⟨⟨g', l, failure⟩, log, hregs, h⟩ := EStateM.bind_eq_ok.mp h
  cases failure with
  | some e => exact absurd h EStateM.throw_ne_ok
  | none =>
    obtain ⟨rfl, rfl⟩ := EStateM.pure_eq_ok.mp h
    exact ⟨l, hregs⟩

theorem labels_of_allocateFunctions {functions : List Function}
    (h : functions.mapM (allocateFunction options) before = .ok allocated after) :
    functions.map (fun f => (f.name, f.blockLabels)) =
      allocated.map fun f => (f.name, f.blockLabels) := by
  refine ((EStateM.forall₂_of_mapM_eq_ok h).imp fun f g hfg => ?_).map_eq_map
  obtain ⟨log, log', hfg⟩ := hfg
  obtain ⟨l, halloc⟩ := allocateRegisters_of_allocateFunction hfg
  obtain ⟨hname, hlabels⟩ := Function.labels_of_allocateRegisters halloc
  rw [hname, hlabels]

theorem Sections.labels_ofFlow (h : Sections.ofFlow program options before = .ok sections after) :
    sections.labels = program.strings.toList.map (fun s => Machine.stringLabel s.1) ++
      program.globals.map Flow.Global.name ++
        program.allFunctions.flatMap fun f => f.name :: f.laidLabels.map ("." ++ ·) := by
  obtain ⟨m, log1, hunit, h⟩ := EStateM.bind_eq_ok.mp h
  obtain ⟨selected, log2, hsel, functions, log3, hfuns, hunit⟩ :=
    EStateM.bind2_eq_ok.mp hunit
  obtain ⟨_, log4, -, hunit⟩ := EStateM.bind_eq_ok.mp hunit
  obtain ⟨rfl, -⟩ := EStateM.pure_eq_ok.mp hunit
  rw [Sections.labels_ofModule (EStateM.ofExcept_eq_ok.mp h).1, (Module.ofFlow_eq_ok hsel).1,
    List.map_map, Module.globalLabels_ofFlow hsel]
  have hselectedLabels : program.allFunctions.map (fun f => (f.name, f.laidLabels)) =
      selected.functions.map fun f => (f.name, f.blockLabels) :=
    ((Module.forall₂_ofFlow hsel).imp fun _ _ hf => by
      rw [Function.name_ofFlow hf, Function.blockLabels_ofFlow hf]).map_eq_map
  have hflatMap : ∀ {α : Type} (labels : α → String × List String) (l : List α),
      l.flatMap (fun a => (labels a).1 :: (labels a).2.map ("." ++ ·)) =
        (l.map labels).flatMap fun x => x.1 :: x.2.map ("." ++ ·) :=
    fun labels l => by rw [List.flatMap_map]
  rw [hflatMap (fun f : Function => (f.name, f.blockLabels)),
    hflatMap (fun f : Flow.Function => (f.name, f.laidLabels)), hselectedLabels,
    labels_of_allocateFunctions hfuns]
  rfl

/-- The labels that begin with a dot: those of strings and blocks. -/
def dottedLabels (program : Flow.Program) : List String :=
  program.strings.toList.map (fun s => Machine.stringLabel s.1) ++
    (program.allFunctions.flatMap Flow.Function.laidLabels).map ("." ++ ·)

theorem Sections.perm_labels (h : Sections.ofFlow program options before = .ok sections after) :
    sections.labels.Perm (dottedLabels program ++ program.names) := by
  rw [Sections.labels_ofFlow h, dottedLabels, Flow.Program.names, List.map_flatMap]
  have hsplit := List.flatMap_append_perm program.allFunctions (fun f => [f.name])
    fun f => f.laidLabels.map ("." ++ ·)
  rw [← List.map_eq_flatMap] at hsplit
  refine (hsplit.symm.append_left _).trans ?_
  simp only [List.append_assoc]
  refine List.Perm.append_left _ ?_
  rw [← List.append_assoc]
  exact List.perm_append_comm

theorem toList_stringLabel (id : Flow.StringId) :
    (Machine.stringLabel id).toList = '.' :: ("str.".toList ++ (toString id.val).toList) :=
  String.toList_append

theorem head?_of_mem_dottedLabels {label : String} (h : label ∈ dottedLabels program) :
    label.toList.head? = some '.' := by
  rcases List.mem_append.mp h with h | h
  · obtain ⟨s, -, rfl⟩ := List.mem_map.mp h
    rw [toList_stringLabel]
    rfl
  · obtain ⟨label, -, rfl⟩ := List.mem_map.mp h
    rw [String.toList_append]
    rfl

/-- A label tells the number of its string. -/
theorem stringLabel_inj {id : Flow.StringId} :
    Machine.stringLabel id = Machine.stringLabel id' ↔ id = id' := by
  refine ⟨fun heq => ?_, congrArg _⟩
  obtain ⟨n⟩ := id
  obtain ⟨n'⟩ := id'
  have hlist := congrArg String.toList heq
  rw [toList_stringLabel, toList_stringLabel] at hlist
  exact congrArg Index.mk
    (Nat.repr_inj.mp (String.toList_inj.mp (List.append_cancel_left (List.cons.inj hlist).2)))

theorem nodup_stringLabels (pool : StringPool) :
    (pool.toList.map fun s => Machine.stringLabel s.1).Nodup := by
  rw [StringPool.toList, Table.pairs, List.map_map]
  have hnumbers : (pool.values.entries.toList.zipIdx.map Prod.snd).Nodup := by
    rw [List.zipIdx_map_snd]
    exact List.nodup_range'
  have hlabels := hnumbers.map (f := fun n => Machine.stringLabel ⟨n⟩) fun n n' heq =>
    Index.mk.inj (stringLabel_inj.mp heq)
  rwa [List.map_map] at hlabels

/-- The labels of strings and blocks are apart from each other: the former have a second
dot, and both are numbered. -/
theorem nodup_dottedLabels
    (h : Flow.LabelsWithin low high (program.allFunctions.flatMap Flow.Function.laidLabels)) :
    (dottedLabels program).Nodup := by
  refine List.nodup_append'.mpr ⟨nodup_stringLabels _, ?_, ?_⟩
  · exact h.nodup.map fun a b heq => by simpa using heq
  · intro label hstring hblock
    obtain ⟨s, -, rfl⟩ := List.mem_map.mp hstring
    obtain ⟨label, hlabel, heq⟩ := List.mem_map.mp hblock
    obtain ⟨tag, htag, n, -, -, rfl⟩ := h.within label hlabel
    have hlist := congrArg String.toList heq
    rw [toList_stringLabel, String.toList_append, Flow.toList_numbered] at hlist
    have hdot : '.' ∈ tag.toList ++ (toString n).toList := by
      have htail : tag.toList ++ (toString n).toList = "str.".toList ++ (toString s.1.val).toList :=
        (List.cons.inj hlist).2
      rw [htail]
      exact List.mem_append_left _ (by decide +kernel)
    rcases List.mem_append.mp hdot with hdot | hdot
    · exact (Flow.not_isDigit_of_mem_blockTags htag _ hdot).2 rfl
    · exact absurd (Flow.isDigit_of_mem_repr hdot) (by decide)

/-- **The text of a unit defines every label once** exactly if no function has the name of
a global and no class has a method of its own name besides a constructor.  The text is made
of the sections whose labels these are. -/
theorem Sections.nodup_labels_iff (hsymbols : Source.Symbols.collect p = .ok symbols)
    (hprogram : Flow.Program.ofSource p symbols log = .ok program log')
    (hplain : ∀ d ∈ p, ∀ name ∈ Flow.labelNames d, Flow.IsPlain name)
    (hsections : Sections.ofFlow program options before = .ok sections after) :
    generate program options before = .ok sections.render after ∧
      (sections.labels.Nodup ↔ Flow.GlobalsApart p ∧ Flow.ConstructorsApart p) := by
  obtain ⟨unit, hunit⟩ := Flow.Program.ofSource_eq_ok hprogram
  have hlayout : ∀ f ∈ program.allFunctions, f.layout.Nodup := by
    intro f hf
    obtain ⟨A, hsound⟩ := Flow.Program.sound_of_ofSource hprogram f hf
    exact hsound.wellFormed.nodup
  have hdotted := nodup_dottedLabels (Flow.labelsWithin_of_lowerUnit hunit hlayout)
  have hapart : (dottedLabels program).Disjoint program.names := fun label hdot hname =>
    Flow.head?_ne_dot_of_mem_names hplain hunit hname (head?_of_mem_dottedLabels hdot)
  refine ⟨?_, ?_⟩
  · rw [generate_eq_render]
    exact EStateM.map_eq_ok.mpr ⟨sections, hsections, rfl⟩
  · rw [(Sections.perm_labels hsections).nodup_iff, List.nodup_append',
      Flow.nodup_names_iff (Source.Symbols.holds_of_collect hsymbols) hplain hunit]
    tauto

end

/-- A string, a global, a function, and a class with a constructor and a method. -/
def sampler : Source.Program :=
  let void : Source.Ty := { base := .void }
  [ .globals ⟨{ base := .string }, [⟨"s", some (.literal { base := .string } (.text "x"))⟩]⟩,
    .object {
      name := "A"
      members := []
      constructor := some []
      methods := [{ name := "f", returnType := void, parameters := [], body := [] }] },
    .function { name := "f", returnType := void, parameters := [], body := [] } ]

def labelsOfProgram (p : Source.Program) : Option (List String) :=
  match Source.Symbols.collect p with
  | .error _ => none
  | .ok symbols =>
    match Flow.Program.ofSource p symbols #[] with
    | .error _ _ => none
    | .ok program log =>
      match Sections.ofFlow program {} log with
      | .error _ _ => none
      | .ok sections _ => some sections.labels

/-- A method may have the name of a function, and the string and the blocks stay apart. -/
theorem Sections.nodup_labels_sampler :
    ∃ symbols program log sections after, Source.Symbols.collect sampler = .ok symbols ∧
      Flow.Program.ofSource sampler symbols #[] = .ok program log ∧
      (∀ d ∈ sampler, ∀ name ∈ Flow.labelNames d, Flow.IsPlain name) ∧
      Sections.ofFlow program {} log = .ok sections after ∧
      generate program {} log = .ok sections.render after ∧
      sections.labels = [".str.0", "s", "A.A", ".entry0", ".exit1", "A.f", ".entry2", ".exit3", "f",
        ".entry4", ".exit5"] ∧ sections.labels.Nodup := by
  have hlabels : labelsOfProgram sampler = some [".str.0", "s", "A.A", ".entry0", ".exit1", "A.f",
      ".entry2", ".exit3", "f", ".entry4", ".exit5"] := by cbv
  have hplain : ∀ d ∈ sampler, ∀ name ∈ Flow.labelNames d, Flow.IsPlain name := by decide +kernel
  unfold labelsOfProgram at hlabels
  split at hlabels
  · cases hlabels
  · rename_i symbols hsymbols
    split at hlabels
    · cases hlabels
    · rename_i program log hprogram
      split at hlabels
      · cases hlabels
      · rename_i sections after hsections
        obtain ⟨hgenerate, hnodup⟩ := Sections.nodup_labels_iff hsymbols hprogram hplain hsections
        refine ⟨symbols, program, log, sections, after, hsymbols, hprogram, hplain, hsections,
          hgenerate, Option.some.inj hlabels, hnodup.mpr ⟨?_, ?_⟩⟩
        · simp [Flow.GlobalsApart, sampler, Source.Program.globalVariables]
        · simp [Flow.ConstructorsApart, sampler]

/-- A global and a function of one name. -/
def twin : Source.Program :=
  [ .globals ⟨{ base := .int }, [⟨"f", none⟩]⟩,
    .function { name := "f", returnType := { base := .void }, parameters := [], body := [] } ]

/-- A class with a constructor and a method of its own name. -/
def doubled : Source.Program :=
  [ .object {
      name := "A"
      members := []
      constructor := some []
      methods :=
        [{ name := "A", returnType := { base := .void }, parameters := [], body := [] }] } ]

/-- Both are translated, and the text defines a label twice. -/
theorem not_nodup_labels_twin :
    ((∀ d ∈ twin, ∀ name ∈ Flow.labelNames d, Flow.IsPlain name) ∧
        ∃ labels, labelsOfProgram twin = some labels ∧ ¬ labels.Nodup) ∧
      (∀ d ∈ doubled, ∀ name ∈ Flow.labelNames d, Flow.IsPlain name) ∧
        ∃ labels, labelsOfProgram doubled = some labels ∧ ¬ labels.Nodup := by
  have htwin : labelsOfProgram twin = some ["f", "f", ".entry0", ".exit1"] := by cbv
  have hdoubled : labelsOfProgram doubled =
      some ["A.A", ".entry0", ".exit1", "A.A", ".entry2", ".exit3"] := by cbv
  exact ⟨⟨by decide +kernel, _, htwin, by decide⟩, by decide +kernel, _, hdoubled, by decide⟩

end MxStar.Assembly
