import MxStar.Compile
import MxStar.Proofs.Assembly.Emission
import MxStar.Proofs.Flow.Listed
import MxStar.Proofs.Flow.TypedUnit
import MxStar.Proofs.Machine.AllocatedFrame
import MxStar.Proofs.Machine.Comments
import MxStar.Proofs.Machine.FrameParts

/-!
# Code generation fails in one way only

What lowering leaves, selection accepts: every block, register and member that it looks up
exists.  Allocation then ends with places for all registers or with used-up rounds, and
allocated code can be written down as long as its offsets are numbers of a word.
-/

namespace MxStar

open Machine (Selector Function Module Options DataItem Instr Physical)

/-! ## Selection -/

variable {program : Flow.Program}

theorem Machine.Selector.accepts_of_holds {typed sized : Prop}
    (hstrs : program.structs = Flow.structsOf symbols) (hwell : f.WellFormed)
    (hholds : Flow.Checking.Holds ⟨symbols, program.globals, f, typed, sized⟩ f)
    (options : Options) : Selector.Accepts ⟨program, f, options⟩ where
  entry := List.mem_of_head? hwell.first
  exit := List.mem_of_getLast? hwell.last
  blocks := by
    intro id hid
    obtain ⟨b, t, hb, ht, hclosed⟩ := hwell.closed id hid
    refine ⟨b, t, hb, ht, hclosed.targets, ?_, fun i hi => ?_⟩
    · refine hholds.exists_terminatorListing (hholds.terminators id b hb t ht) fun c hc => ?_
      obtain ⟨b', -, hb', -⟩ := hwell.closed c (hclosed.targets c hc)
      exact ⟨b', hb'⟩
    · have haccepts := hholds.instrs id b hb i (Array.mem_toList_iff.mp hi)
      refine ⟨?_, hholds.exists_instrListing haccepts⟩
      cases i with
      | load d address => exact haccepts.destination d rfl
      | store value address =>
        have hvalue := haccepts.operands value (by simp [Flow.Instr.operands])
        refine Except.exists_bind ?_ fun known hknown => ?_
        · cases address with
          | register r =>
            refine Except.exists_bind (haccepts.operands (.register r)
              (by simp [Flow.Instr.operands]))
              fun ty hty => ?_
            rw [(hholds.flat r ty hty).isHollow]
            exact ⟨_, rfl⟩
          | _ => exact ⟨_, rfl⟩
        · cases known with
          | none => exact hvalue
          | some ty => exact ⟨ty, rfl⟩
      | memberAddress d base struct field =>
        have hrefers : ∃ layout ∈ program.structs.find? fun s => s.name == struct,
            field < layout.members.length := hstrs ▸ haccepts.refers
        exact hrefers
      | _ => trivial

theorem Machine.DataItem.exists_ofFlow
    (h : (∃ c, v.initial = .constant c) ∨ ∃ id, v.initial = .string id) :
    ∃ item, DataItem.ofFlow v = .ok item := by
  unfold DataItem.ofFlow
  rcases h with ⟨c, hc⟩ | ⟨id, hid⟩
  · rw [hc]
    by_cases hbool : v.ty = .bool
    · exact ⟨_, if_pos hbool⟩
    · exact ⟨_, if_neg hbool⟩
  · rw [hid]
    exact ⟨_, rfl⟩

theorem Machine.Module.exists_ofFlow_of_ofSource
    (h : Flow.Program.ofSource p symbols log = .ok program log') (options : Options)
    (before : Log) : ∃ m after, Module.ofFlow program options before = .ok m after := by
  obtain ⟨unit, hunit⟩ := Flow.Program.ofSource_eq_ok h
  obtain ⟨placed, hplaced, hglobals, hstrs, -⟩ := Flow.isBuilt_of_lowerUnit hunit
  obtain ⟨items, hitems⟩ : ∃ items, program.globals.mapM DataItem.ofFlow = .ok items := by
    refine Except.exists_mapM fun v hv => DataItem.exists_ofFlow ?_
    exact (Flow.records_placeGlobals hplaced).initial v (hglobals ▸ hv)
  obtain ⟨functions, after, hfuns⟩ : ∃ functions after,
      program.allFunctions.mapM (Machine.selectFunction program options) before =
        .ok functions after := by
    refine EStateM.exists_mapM (fun f hf s => ?_) before
    obtain ⟨A, hsound⟩ := Flow.Program.sound_of_ofSource h f hf
    obtain ⟨g, hg⟩ := Machine.exists_ofFlow (Selector.accepts_of_holds hstrs hsound.wellFormed
      (Flow.Program.holds_of_ofSource h hf) options)
    simp only [Machine.selectFunction, hg]
    exact ⟨_, _, rfl⟩
  refine ⟨_, after, EStateM.bind_eq_ok.mpr ⟨items, before, ?_, EStateM.bind_eq_ok.mpr
    ⟨functions, after, hfuns, rfl⟩⟩⟩
  exact EStateM.ofExcept_eq_ok.mpr ⟨hitems, rfl⟩

/-! ## Emission -/

/-- The offsets from the stack pointer that the code needs are numbers of a word. -/
structure Machine.Function.Fits (f : Function) : Prop where
  size : (Machine.FrameLayout.exact f.frame f.frameSaved).size < sizeLimit
  incoming : ∀ i ∈ f.code, ∀ n, Assembly.Instr.offset? i = some (.incoming n) →
    (Machine.FrameLayout.exact f.frame f.frameSaved).size + n * wordSize < sizeLimit

theorem checkSize_eq_ok (h : n < sizeLimit) : checkSize n = .ok n := if_pos h

namespace Machine.Function

variable {f : Function} {incoming : Nat}

theorem Orderly.exists_resolve (h : f.Orderly incoming) (hfits : f.Fits) (hi : i ∈ f.code)
    (hoffset : Assembly.Instr.offset? i = some offset) :
    ∃ value, (Machine.FrameLayout.exact f.frame f.frameSaved).resolve offset = .ok value := by
  have hslot : ∀ id : Machine.SlotId, id.val < f.frame.objects.size →
      ∃ value, (Machine.FrameLayout.exact f.frame f.frameSaved).resolve (.slot id) = .ok value := by
    intro id hid
    obtain ⟨start, hstart⟩ := Table.exists_get?
      (t := (Machine.FrameLayout.exact f.frame f.frameSaved).objects) (i := id) (by
        simpa [Machine.FrameLayout.exact, Table.size, Machine.length_placeObjects] using hid)
    exact Except.exists_bind ⟨start, Table.find_eq_ok.mpr hstart⟩ fun _ _ => ⟨_, rfl⟩
  have hwithin : ∀ base access width, offset.Within (f.use incoming False) base access width →
      ∃ value, (Machine.FrameLayout.exact f.frame f.frameSaved).resolve offset = .ok value := by
    intro base access width hwithin
    cases offset with
    | immediate value => exact ⟨_, rfl⟩
    | slot id => exact hslot id hwithin.2.1
    | incoming n =>
      exact Except.exists_bind ⟨_, checkSize_eq_ok (hfits.incoming i hi n hoffset)⟩
        fun _ _ => ⟨_, rfl⟩
    | outgoing n =>
      have hn : n < f.frame.outgoing := hwithin.2.2
      have hle : n * wordSize + wordSize ≤ (Machine.FrameLayout.exact f.frame f.frameSaved).size :=
        Machine.FrameLayout.le_size_of_extent?
          (Machine.FrameLayout.extent?_outgoing.mpr ⟨hn, rfl, rfl⟩)
      have hsize : n * wordSize < sizeLimit := by
        have := hfits.size
        omega
      exact Except.exists_bind ⟨_, checkSize_eq_ok hsize⟩ fun _ _ => ⟨_, rfl⟩
  have hframed := h.framed i hi
  cases i with
  | slotAddress rd slot =>
    cases hoffset
    exact hslot slot hframed.2
  | load width rd base offset' =>
    cases hoffset
    exact hwithin base .use width hframed.2
  | store width rs base offset' =>
    cases hoffset
    exact hwithin base .define width hframed
  | _ => cases hoffset

/-- **Orderly code whose offsets fit can be written down.** -/
theorem Orderly.exists_functionLines (h : f.Orderly incoming) (hfits : f.Fits) :
    ∃ lines, Assembly.functionLines f = .ok lines := by
  have hlayout : f.frameLayout = .ok (Machine.FrameLayout.exact f.frame f.frameSaved) :=
    if_pos hfits.size
  have hlabel : ∀ i ∈ f.code, ∀ target ∈ i.targets, ∃ text,
      Assembly.blockLabel f target = .ok text := by
    intro i hi target htarget
    obtain ⟨b, hb⟩ := Table.exists_get? (h.targets i hi target htarget)
    exact Except.exists_bind ⟨b, Table.find_eq_ok.mpr hb⟩ fun _ _ => ⟨_, rfl⟩
  have hinstr : ∀ i ∈ f.code, ∀ next, ∃ lines, Assembly.instrLines f
      (Machine.FrameLayout.exact f.frame f.frameSaved) next i = .ok lines := by
    intro i hi next
    cases i with
    | slotAddress rd slot =>
      exact Except.exists_bind (h.exists_resolve hfits hi rfl) fun _ _ => ⟨_, rfl⟩
    | load width rd base offset =>
      exact Except.exists_bind (h.exists_resolve hfits hi rfl) fun _ _ => ⟨_, rfl⟩
    | store width rs base offset =>
      exact Except.exists_bind (h.exists_resolve hfits hi rfl) fun _ _ => ⟨_, rfl⟩
    | jump target =>
      simp only [Assembly.instrLines]
      split
      · exact ⟨_, rfl⟩
      · exact Except.exists_bind (hlabel _ hi target (by simp [Instr.targets])) fun _ _ => ⟨_, rfl⟩
    | branch condition positive negative =>
      have hpos := hlabel _ hi positive (by simp [Instr.targets])
      have hneg := hlabel _ hi negative (by simp [Instr.targets])
      simp only [Assembly.instrLines]
      split
      · exact Except.exists_bind hneg fun _ _ => ⟨_, rfl⟩
      · refine Except.exists_bind hpos fun _ _ => ?_
        split
        · exact ⟨_, rfl⟩
        · exact Except.exists_bind hneg fun _ _ => ⟨_, rfl⟩
    | _ => exact ⟨_, rfl⟩
  refine Except.exists_bind ⟨_, hlayout⟩ fun layout hlayout' => ?_
  obtain rfl := Except.ok.inj (hlayout.symm.trans hlayout')
  refine Except.exists_bind (Except.exists_mapM ?_) fun _ _ => ⟨_, rfl⟩
  rintro ⟨id, b⟩ hb
  refine Except.exists_bind (Except.exists_mapM fun i hi => ?_) fun _ _ => ⟨_, rfl⟩
  exact hinstr i (Machine.Function.mem_code (Table.mem_pairs.mp hb) hi) _

end Machine.Function

/-! ## The whole back end -/

theorem allocateFunctions_cases (options : Options) {functions : List Function}
    (h : ∀ f ∈ functions, ∃ live, Machine.Liveness.compute f = .ok live) (log : Log) :
    (∃ allocated log', functions.mapM (allocateFunction options) log = .ok allocated log' ∧
      ∀ g ∈ allocated, ∃ f ∈ functions, ∃ l l' log log',
        f.allocateRegisters l options log = .ok (g, l', none) log') ∨
    ∃ f ∈ functions, ∃ log', functions.mapM (allocateFunction options) log =
      .error (.allocationDidNotConverge f.name options.rounds) log' := by
  induction functions generalizing log with
  | nil => exact .inl ⟨[], log, rfl, by simp⟩
  | cons f rest ih =>
    obtain ⟨g, l', failure, log1, hf, hfailure⟩ :=
      Function.exists_allocateRegisters (h f (.head _)) {} options log
    rw [List.mapM_cons]
    rcases hfailure with rfl | rfl
    · have hg : allocateFunction options f log = .ok g log1 := by
        simp only [allocateFunction, bind, EStateM.bind, hf]
        rfl
      rcases ih (fun f hf => h f (.tail _ hf)) log1 with
        ⟨allocated, log2, hrest, halloc⟩ | ⟨f', hf', log2, hrest⟩
      · refine .inl ⟨g :: allocated, log2, EStateM.bind_eq_ok.mpr ⟨g, log1, hg,
          EStateM.bind_eq_ok.mpr ⟨allocated, log2, hrest, rfl⟩⟩, fun g' hg' => ?_⟩
        rcases List.mem_cons.mp hg' with rfl | hg'
        · exact ⟨f, .head _, _, _, _, _, hf⟩
        · obtain ⟨f', hf', hg'⟩ := halloc g' hg'
          exact ⟨f', .tail _ hf', hg'⟩
      · refine .inr ⟨f', .tail _ hf', log2, EStateM.bind_eq_error.mpr ?_⟩
        exact .inr ⟨g, log1, hg, EStateM.bind_eq_error.mpr (.inl hrest)⟩
    · refine .inr ⟨f, .head _, log1, EStateM.bind_eq_error.mpr (.inl ?_)⟩
      simp only [allocateFunction, bind, EStateM.bind, hf]
      rfl

/-- **Allocated functions whose offsets fit are written down.** -/
theorem exists_generate {options : Options}
    (hm : Module.ofFlow program options before = .ok m after)
    (hallocate : m.functions.mapM (allocateFunction options) after = .ok allocated log')
    (halloc : ∀ g ∈ allocated, ∃ f ∈ m.functions, ∃ l l' log log',
      f.allocateRegisters l options log = .ok (g, l', none) log')
    (hfits : ∀ f ∈ m.functions, ∀ l log g l' log',
      f.allocateRegisters l options log = .ok (g, l', none) log' → g.Fits) :
    ∃ text after', generate program options before = .ok text after' := by
  obtain ⟨texts, htexts⟩ : ∃ texts, allocated.mapM Assembly.functionLines = .ok texts := by
    refine Except.exists_mapM fun g hg => ?_
    obtain ⟨f, hf, l, l', log, log', hfg⟩ := halloc g hg
    obtain ⟨source, -, hflow⟩ := (Module.forall₂_ofFlow hm).exists_of_mem_right hf
    exact ((Function.Orderly.of_ofFlow hflow False.elim).allocateRegisters hfg).exists_functionLines
      (hfits f hf l log g l' log' hfg)
  simp only [generate, bind, EStateM.bind, hm, hallocate, Assembly.emit, Assembly.Sections.ofModule,
    htexts]
  exact ⟨_, _, rfl⟩

/-- After lowering, **the back end can fail in one way only**.  Selection always returns;
allocation ends for every function with places for all registers or with used-up rounds,
so no assignment is ever refused by its check; and as long as the offsets of allocated
code are numbers of a word, there is assembly text unless some function used up its rounds. -/
theorem generate_cases_of_ofSource {p : Source.Program} {symbols : Source.Symbols}
    {log log' : Log} {program : Flow.Program}
    (h : Flow.Program.ofSource p symbols log = .ok program log') (options : Options)
    (before : Log) :
    ∃ m after, Module.ofFlow program options before = .ok m after ∧
      (∀ f ∈ m.functions, ∀ l log, ∃ g l' failure log',
        f.allocateRegisters l options log = .ok (g, l', failure) log' ∧
          (failure = none ∨ failure = some (.allocationDidNotConverge f.name options.rounds))) ∧
      ((∀ f ∈ m.functions, ∀ l log g l' log',
          f.allocateRegisters l options log = .ok (g, l', none) log' → g.Fits) →
        (∃ text after', generate program options before = .ok text after') ∨
          ∃ f ∈ m.functions, ∃ after', generate program options before =
            .error (.allocationDidNotConverge f.name options.rounds) after') := by
  obtain ⟨m, after, hm⟩ := Module.exists_ofFlow_of_ofSource h options before
  have hsolvable : ∀ f ∈ m.functions, ∃ live, Machine.Liveness.compute f = .ok live := by
    intro f hf
    obtain ⟨source, -, hflow⟩ := (Module.forall₂_ofFlow hm).exists_of_mem_right hf
    exact Machine.exists_compute_ofFlow hflow
  refine ⟨m, after, hm, fun f hf l log =>
    Function.exists_allocateRegisters (hsolvable f hf) l options log, fun hfits => ?_⟩
  rcases allocateFunctions_cases options hsolvable after with
    ⟨allocated, log₁, hallocate, hallocated⟩ | ⟨f, hf, log₁, hallocate⟩
  · exact .inl (exists_generate hm hallocate hallocated hfits)
  · exact .inr ⟨f, hf, log₁, by simp only [generate, bind, EStateM.bind, hm, hallocate]⟩

/-- A function that returns a number. -/
def answer : Source.Program :=
  let int : Source.Ty := { base := .int }
  [.function {
    name := "answer", returnType := int, parameters := []
    body := [.giveBack (some (.literal int (.integer 42)))] }]

/-- What the code of `answer` is checked for: allocation succeeds, and the frame takes one line of
the stack.  No argument is read from the stack. -/
def allocatesSmall (f : Function) : Bool :=
  (f.allocateRegisters {} {} #[]).passes fun r => r.2.2.isNone &&
    decide ((Machine.FrameLayout.exact r.1.frame r.1.frameSaved).size = 16) &&
      r.1.code.all fun i => !(Assembly.Instr.offset? i matches some (.incoming _))

theorem exists_fits_of_allocatesSmall (h : allocatesSmall f = true) :
    ∃ g, g.Fits ∧ ∀ l log, ∃ l' log', f.allocateRegisters l {} log = .ok (g, l', none) log' := by
  obtain ⟨⟨g, l', failure⟩, log', hg, hsmall⟩ := EStateM.exists_of_passes h
  simp only [Bool.and_eq_true, Option.isNone_iff_eq_none, decide_eq_true_eq,
    List.all_eq_true] at hsmall
  obtain ⟨⟨rfl, hsize⟩, hcode⟩ := hsmall
  refine ⟨g, ⟨by rw [hsize]; decide, fun i hi n hn => by simpa [hn] using hcode i hi⟩,
    fun l log => ⟨l', Logged.outcome_eq_ok.mp ?_⟩⟩
  -- the liveness it is given is not looked at, as there is a round
  have hsame := f.mirrors_allocateRegisters {} {} #[] log
  rw [Logged.outcome_eq_ok.mpr ⟨log', hg⟩] at hsame
  exact hsame

/-- One function is selected, allocated and written down. -/
theorem generate_cases_of_ofSource_answer :
    ∃ symbols program log m after, Source.Symbols.collect answer = .ok symbols ∧
      Flow.Program.ofSource answer symbols #[] = .ok program log ∧
      Module.ofFlow program {} #[] = .ok m after ∧ m.functions.length = 1 ∧
      (∀ f ∈ m.functions, ∃ g l' log', f.allocateRegisters {} {} #[] = .ok (g, l', none) log' ∧
        g.Fits) ∧ ∃ text after', generate program {} #[] = .ok text after' := by
  obtain ⟨symbols, program, log, hsymbols, hlowered, hfacts⟩ :=
    Flow.Program.exists_ofSource answer (fun _ program => (Module.ofFlow program {} #[]).passes
      fun m => m.functions.length == 1 && m.functions.all allocatesSmall) (by cbv)
  obtain ⟨m, after, hm, -, hgenerate⟩ := generate_cases_of_ofSource hlowered {} #[]
  obtain ⟨m', after', hm', hfunctions⟩ := EStateM.exists_of_passes hfacts
  obtain ⟨rfl, rfl⟩ := EStateM.Result.ok.inj (hm.symm.trans hm')
  rw [Bool.and_eq_true, beq_iff_eq, List.all_eq_true] at hfunctions
  have hsmall := fun f hf => exists_fits_of_allocatesSmall (hfunctions.2 f hf)
  have hfits : ∀ f ∈ m.functions, ∀ l log g l' log',
      f.allocateRegisters l {} log = .ok (g, l', none) log' → g.Fits := by
    intro f hf l log g l' log' hallocate
    obtain ⟨g', hg', hsame⟩ := hsmall f hf
    obtain ⟨l'', log'', hsame⟩ := hsame l log
    obtain ⟨heq, -⟩ := EStateM.Result.ok.inj (hsame.symm.trans hallocate)
    exact (Prod.mk.inj heq).1 ▸ hg'
  refine ⟨symbols, program, log, m, after, hsymbols, hlowered, hm, hfunctions.1, fun f hf => ?_, ?_⟩
  · obtain ⟨g, hg, hallocate⟩ := hsmall f hf
    obtain ⟨l', log', hallocate⟩ := hallocate {} #[]
    exact ⟨g, l', log', hallocate, hg⟩
  · refine (hgenerate hfits).resolve_right ?_
    rintro ⟨f, hf, after', herror⟩
    have hstep : ∀ f ∈ m.functions, ∀ log, ∃ g l' log',
        f.allocateRegisters {} {} log = .ok (g, l', none) log' ∧
          allocateFunction {} f log = .ok g log' := by
      intro f hf log
      obtain ⟨g, -, hg⟩ := hsmall f hf
      obtain ⟨l', log', hg⟩ := hg {} log
      exact ⟨g, l', log', hg, by simp only [allocateFunction, bind, EStateM.bind, hg]; rfl⟩
    obtain ⟨allocated, log', hallocate⟩ := EStateM.exists_mapM (fun f hf log => by
      obtain ⟨g, -, log', -, hg⟩ := hstep f hf log
      exact ⟨g, log', hg⟩) after
    obtain ⟨text, after', htext⟩ := exists_generate hm hallocate (fun g hg => by
      obtain ⟨f, hf, log, log', hfg⟩ :=
        (EStateM.forall₂_of_mapM_eq_ok hallocate).exists_of_mem_right hg
      obtain ⟨g', l', log'', hg', hfg'⟩ := hstep f hf log
      obtain ⟨rfl, -⟩ := EStateM.Result.ok.inj (hfg.symm.trans hfg')
      exact ⟨f, hf, {}, l', log, log'', hg'⟩) hfits
    rw [htext] at herror
    cases herror

end MxStar
