import MxStar.Proofs.Flow.WellFormed

/-!
# The parts of a unit

What a lowered unit was made from: its globals are those of the source, in the same order,
and each of its functions was built from one body of the source or from the expressions
that compute the deferred globals.  What is shown of every body on its own then holds of
every function of the unit.
-/

namespace MxStar.Flow

open Build
open Source (Symbols Definition FunctionDef Declarator Expr)

structure Function.SameHead (f g : Function) : Prop where
  name : g.name = f.name
  entry : g.entry = f.entry

theorem Function.SameHead.trans {f g h : Function} (hfg : f.SameHead g) (hgh : g.SameHead h) :
    f.SameHead h :=
  ⟨hgh.name.trans hfg.name, hgh.entry.trans hfg.entry⟩

section

theorem Edits.head (h : Edits bound x y) : x.1.SameHead y.1 := by
  induction h with
  | refl => exact ⟨rfl, rfl⟩
  | tail _ hstep ih => cases hstep <;> exact ⟨ih.name, ih.entry⟩

theorem Edits.parameters (h : Edits bound x y) : y.1.parameters = x.1.parameters := by
  induction h with
  | refl => rfl
  | tail _ hstep ih => cases hstep <;> exact ih

end

variable {p : Source.Program} {symbols : Symbols} {placed placed' : Placed} {unit unit' : UnitState}

/-! ## Finishing a body -/

/-- Functions with the same code; layout and edge sets may differ. -/
structure Function.SameCode (f g : Function) : Prop where
  head : f.SameHead g
  parameters : g.parameters = f.parameters
  registers : g.registers = f.registers
  cells : g.cells = f.cells
  exit : g.exit = f.exit
  size : g.blocks.size = f.blocks.size
  blocks : ∀ id b, f.blocks.get? id = some b → ∃ b', g.blocks.get? id = some b' ∧ b.SameCode b'

variable {g : Function} {s : Builder} {ctx : Context} {program : Program} {f : Function}
  {s' : Builder}

theorem Function.SameCode.grows (h : f.SameCode g) : Grows f g where
  size := by rw [h.registers]
  registers := fun r info hr => by rw [h.registers]; exact hr
  cells := fun n c hc => by rw [h.cells]; exact hc
  newCells := fun n c hc => .inl (by rw [h.cells] at hc; exact hc)
  blocks := by
    intro id b hb
    obtain ⟨b', hb', hcode⟩ := h.blocks id b hb
    refine ⟨b', hb', ⟨by rw [hcode.instrs], fun hfinished => ?_⟩⟩
    exact ⟨hcode.instrs, hcode.terminator, hcode.finished.trans hfinished⟩
  blockCount := h.size.ge
  exit := h.exit

theorem Function.SameCode.cellsPlaced (h : f.SameCode g) (hf : f.CellsPlaced) : g.CellsPlaced := by
  refine ⟨fun n c hc => ?_, ?_⟩
  · rw [h.cells] at hc
    exact h.grows.registerType? (hf.type n c hc)
  · rw [h.cells]
    exact hf.distinct

theorem Function.sameCode_of_rebuildEdges (h : f.rebuildEdges = .ok g) : f.SameCode g := by
  obtain ⟨edges, -, rfl⟩ := Except.bind_pure_eq_ok.mp h
  refine ⟨⟨rfl, rfl⟩, rfl, rfl, rfl, rfl, ?_, fun id b hb => ?_⟩
  · rw [size_foldl_link, Table.size_map]
  · have hclear : (f.blocks.map Block.clearEdges).get? id = some b.clearEdges := by simp [hb]
    obtain ⟨b', hb', hcode, -, -⟩ := get?_foldl_link edges hclear
    exact ⟨b', hb', hcode.label, hcode.instrs, hcode.terminator, hcode.finished⟩

theorem logged_cases {α : Type} {step : Logged α} {a : α} (h : logged step s = .ok a s') :
    ∃ log, step s.log = .ok a log ∧ s' = { s with log } := by
  simp only [logged] at h
  split at h
  · rename_i a' log hstep
    injection h with ha hs'
    subst ha hs'
    exact ⟨log, hstep, rfl⟩
  · cases h

theorem finishBody_cases (h : finishBody s = .ok g s') :
    (∃ layout, { s.function with layout }.rebuildEdges = .ok g) ∧
      s'.strings = s.strings ∧ s'.nextLabel = s.nextLabel := by
  obtain ⟨s0, s1, hget, h⟩ := EStateM.bind_eq_ok.mp h
  obtain ⟨h0, h1⟩ := get_eq_ok hget
  rw [h0, h1] at h
  obtain ⟨f, s2, hprune, _, s3, hcheck, h⟩ := EStateM.bind2_eq_ok.mp h
  obtain ⟨_, hnote, rfl⟩ := EStateM.bind_pure_eq_ok.mp h
  obtain ⟨log, hpruned, rfl⟩ := logged_cases hprune
  obtain ⟨-, rfl⟩ := EStateM.ofExcept_eq_ok.mp hcheck
  obtain ⟨log', -, rfl⟩ := logged_cases hnote
  refine ⟨?_, rfl, rfl⟩
  obtain ⟨kept, hkept, hrest⟩ := EStateM.ofExcept_bind_eq_ok.mp hpruned
  have hedges : kept.rebuildEdges = .ok f := by
    split at hrest
    · exact (EStateM.ofExcept_eq_ok.mp hrest).1
    · obtain ⟨_, _, -, hedges⟩ := EStateM.bind_eq_ok.mp hrest
      exact (EStateM.ofExcept_eq_ok.mp hedges).1
  simp only [Function.dropUnreachable] at hkept
  split at hkept
  · cases hkept
    exact ⟨_, hedges⟩
  · cases hkept

theorem sameCode_of_finishBody (h : finishBody s = .ok g s') : s.function.SameCode g := by
  obtain ⟨⟨layout, hedges⟩, -⟩ := finishBody_cases h
  have hcode := Function.sameCode_of_rebuildEdges hedges
  exact ⟨⟨hcode.head.name, hcode.head.entry⟩, hcode.parameters, hcode.registers, hcode.cells,
    hcode.exit, hcode.size, hcode.blocks⟩

/-! ## Globals -/

def Global.variable (g : Global) : String × Ty :=
  (g.name, g.ty)

def Placed.place (placed : Placed) (d : Source.Ty × Declarator) : Except Error Placed :=
  placed.add (.ofSource d.1) d.2

theorem placeGlobals_eq (p : Source.Program) :
    placeGlobals p = p.declarators.foldlM Placed.place {} := by
  have hfold (placed : Placed) :
      p.foldlM Placed.addDefinition placed = p.declarators.foldlM Placed.place placed := by
    induction p generalizing placed with
    | nil => rfl
    | cons d rest ih =>
      rw [List.foldlM_cons, Source.Program.declarators, List.flatMap_cons, List.foldlM_append]
      cases d with
      | globals vars =>
        simp only [List.foldlM_map]
        exact bind_congr ih
      | _ => exact ih placed
  exact hfold {}

/-- **What placing a global does.**  A literal is its initial value, and any other value is
deferred. -/
theorem Placed.place_cases (h : placed.place d = .ok placed') :
    ¬ placed.globals.any (fun g => g.name == d.2.name) ∧
      ∃ initial, placed'.globals =
          placed.globals ++ [{ name := d.2.name, ty := .ofSource d.1, initial }] ∧
        ((∃ ty value, d.2.initial = some (.literal ty value) ∧
            placeLiteral placed.strings value = (initial, placed'.strings) ∧
            placed'.deferred = placed.deferred) ∨
          (∀ ty value, d.2.initial ≠ some (.literal ty value)) ∧
            (∃ c, initial = .constant c) ∧ placed'.strings = placed.strings ∧
            placed'.deferred = placed.deferred ++ d.2.initial.toList.map (d.2.name, ·)) := by
  unfold place Placed.add at h
  split at h
  · cases h
  rename_i hname
  refine ⟨hname, ?_⟩
  split at h <;> rename_i hinitial <;> cases h
  · exact ⟨_, rfl, .inl ⟨_, _, hinitial, rfl, rfl⟩⟩
  · rename_i hother
    exact ⟨_, rfl, .inr ⟨fun ty value heq => hother ty value (Option.some.inj (hinitial ▸ heq)),
      ⟨_, rfl⟩, rfl, by simp [hinitial]⟩⟩
  · exact ⟨_, rfl, .inr ⟨by simp [hinitial], ⟨_, rfl⟩, rfl, by simp [hinitial]⟩⟩

def placedTexts (d : Declarator) : List String :=
  match d.initial with
  | some (.literal _ value) => value.texts
  | _ => []

def deferredTexts (d : Declarator) : List String :=
  match d.initial with
  | some (.literal _ _) => []
  | initial => Source.textsOf? initial

structure Placed.Adds (placed placed' : Placed) (ds : List (Source.Ty × Declarator)) : Prop where
  globals : placed'.globals.map Global.variable =
    placed.globals.map Global.variable ++ ds.map fun d => (d.2.name, .ofSource d.1)
  strings : placed'.strings = placed.strings.internAll (ds.flatMap fun d => placedTexts d.2)
  deferred : placed'.deferred.flatMap (·.2.texts) =
    placed.deferred.flatMap (·.2.texts) ++ ds.flatMap fun d => deferredTexts d.2

theorem Placed.adds_foldlM (h : ds.foldlM Placed.place placed = .ok placed') :
    placed.Adds placed' ds := by
  induction ds generalizing placed with
  | nil =>
    cases h
    exact ⟨by simp, rfl, by simp⟩
  | cons d rest ih =>
    rw [List.foldlM_cons] at h
    obtain ⟨placed1, h1, hrest⟩ := Except.bind_eq_ok.mp h
    obtain ⟨-, initial, hglobals, hcases⟩ := place_cases h1
    obtain ⟨hglobals', hstrings', hdeferred'⟩ := ih hrest
    have hadds : placed1.strings = placed.strings.internAll (placedTexts d.2) ∧
        placed1.deferred.flatMap (·.2.texts) =
          placed.deferred.flatMap (·.2.texts) ++ deferredTexts d.2 := by
      rcases hcases with ⟨ty, value, hinitial, hplace, hdeferred⟩ |
        ⟨hinitial, -, hstrings, hdeferred⟩
      · rw [placedTexts, deferredTexts, hinitial, hdeferred, ← (Prod.mk.inj hplace).2]
        cases value <;> exact ⟨rfl, by simp⟩
      · have htexts : placedTexts d.2 = [] ∧ deferredTexts d.2 = Source.textsOf? d.2.initial := by
          unfold placedTexts deferredTexts
          split <;> simp_all
        rw [htexts.1, htexts.2, hstrings, hdeferred]
        refine ⟨rfl, ?_⟩
        cases d.2.initial <;> simp [Source.textsOf?]
    refine ⟨by simp [hglobals', hglobals, Global.variable], ?_, ?_⟩
    · rw [hstrings', hadds.1, List.flatMap_cons, StringPool.internAll_append]
    · rw [hdeferred', hadds.2, List.flatMap_cons, List.append_assoc]

theorem adds_placeGlobals (h : placeGlobals p = .ok placed) :
    Placed.Adds {} placed p.declarators :=
  Placed.adds_foldlM (placeGlobals_eq p ▸ h)

theorem variables_placeGlobals (h : placeGlobals p = .ok placed) :
    placed.globals.map Global.variable =
      p.globalVariables.map fun v => (v.1, Ty.ofSource v.2) := by
  rw [(adds_placeGlobals h).globals, Source.Program.globalVariables_eq, List.map_map]
  rfl

/-- What is known of the globals of a program that are placed so far: no two have the same
name, each starts out as a constant, and what is computed later is the initial value of
one of them. -/
structure Placed.Records (placed : Placed) (p : Source.Program) : Prop where
  nodup : (placed.globals.map Global.name).Nodup
  initial : ∀ v ∈ placed.globals, (∃ c, v.initial = .constant c) ∨ ∃ id, v.initial = .string id
  deferred : ∀ x ∈ placed.deferred, ∃ d ∈ p.declarators, d.2.initial = some x.2 ∧
    (x.1, Ty.ofSource d.1) ∈ placed.globals.map Global.variable

theorem placeLiteral_cases (strings : StringPool) (value : Source.Literal) :
    (∃ c, (placeLiteral strings value).1 = .constant c) ∨
      ∃ id, (placeLiteral strings value).1 = .string id := by
  cases value with
  | text value => exact .inr ⟨_, rfl⟩
  | _ => exact .inl ⟨_, rfl⟩

theorem Placed.Records.place (h : placed.Records p) (hd : d ∈ p.declarators)
    (hplace : placed.place d = .ok placed') : placed'.Records p := by
  obtain ⟨hname, initial, hglobals, hcases⟩ := place_cases hplace
  refine ⟨?_, ?_, ?_⟩
  · rw [hglobals, List.map_append, List.nodup_append]
    refine ⟨h.nodup, by simp, fun a ha b hb => ?_⟩
    rintro rfl
    obtain ⟨g, hg, hga⟩ := List.mem_map.mp ha
    refine hname (List.any_eq_true.mpr ⟨g, hg, ?_⟩)
    simpa [hga] using hb
  · intro v hv
    rw [hglobals] at hv
    rcases List.mem_append.mp hv with hv | hv
    · exact h.initial v hv
    · rw [List.mem_singleton.mp hv]
      rcases hcases with ⟨ty, value, -, hliteral, -⟩ | ⟨-, hconstant, -⟩
      · exact (Prod.mk.inj hliteral).1 ▸ placeLiteral_cases _ _
      · exact .inl hconstant
  · intro x hx
    rw [hglobals, List.map_append]
    have hold : x ∈ placed.deferred ∨ (d.2.initial = some x.2 ∧ x.1 = d.2.name) := by
      rcases hcases with ⟨-, -, -, -, hdeferred⟩ | ⟨-, -, -, hdeferred⟩
      · exact .inl (hdeferred ▸ hx)
      · rw [hdeferred] at hx
        refine (List.mem_append.mp hx).imp_right fun hx => ?_
        obtain ⟨e, he, rfl⟩ := List.mem_map.mp hx
        exact ⟨Option.mem_toList.mp he, rfl⟩
    rcases hold with hold | ⟨hinitial, hname⟩
    · obtain ⟨d, hd, hsome, hmem⟩ := h.deferred x hold
      exact ⟨d, hd, hsome, List.mem_append_left _ hmem⟩
    · exact ⟨d, hd, hinitial, List.mem_append_right _ (by simp [hname, Global.variable])⟩

theorem invariant_of_placeGlobals {P : Placed → Prop} (hstart : P {})
    (hplace : ∀ placed, ∀ d ∈ p.declarators, ∀ placed', P placed → placed.place d = .ok placed' →
      P placed') (h : placeGlobals p = .ok placed) : P placed := by
  rw [placeGlobals_eq] at h
  generalize p.declarators = ds at hplace h
  generalize ({} : Placed) = start at hstart h
  induction ds generalizing start with
  | nil =>
    cases h
    exact hstart
  | cons d rest ih =>
    rw [List.foldlM_cons] at h
    obtain ⟨placed1, h1, hrest⟩ := Except.bind_eq_ok.mp h
    exact ih (fun placed d hd => hplace placed d (.tail _ hd)) placed1
      (hplace start d (.head _) placed1 hstart h1) hrest

theorem records_placeGlobals (h : placeGlobals p = .ok placed) : placed.Records p :=
  invariant_of_placeGlobals (P := fun placed => placed.Records p) ⟨by simp, by simp, by simp⟩
    (fun _ _ hd _ hplaced hplace => hplaced.place hd hplace) h

theorem find?_placeGlobals {placed : Placed} (h : placeGlobals p = .ok placed) (name : String) :
    (placed.globals.find? fun g => g.name == name).map Global.ty =
      (p.globalTyping name).map Ty.ofSource := by
  have hvariables := variables_placeGlobals h
  have hfind := congrArg (fun vars : List (String × Ty) =>
    (vars.find? fun v => v.1 == name).map Prod.snd) hvariables
  simp only [List.find?_map, Option.map_map] at hfind
  rw [Source.Program.globalTyping, Option.map_map]
  exact hfind

/-! ## Bodies -/

/-- The statements of a function, after the call that computes the globals. -/
def Context.lowerBody (ctx : Context) (callInitializer : Bool) (body : List Source.Stmt) :
    Build Unit := do
  if callInitializer then
    callVoid Linkage.globalInitializer []
  ctx.lowerStmts body

theorem runBody_eq_ok {statements : Context → Build Unit}
    (h : runBody ctx source statements unit = .ok g unit') :
    ∃ s s', s.function = { name := source.name, returnType := source.returnType } ∧
      s.scopes = {} ∧ buildBody ctx source statements s = .ok g s' := by
  simp only [runBody, EStateM.run] at h
  split at h
  · rename_i f s' hbuild
    cases h
    exact ⟨_, s', rfl, rfl, hbuild⟩
  · cases h

theorem Program.ofSource_eq_ok (h : Program.ofSource p symbols log = .ok program log') :
    ∃ unit, lowerUnit p symbols { log } = .ok program unit := by
  simp only [Program.ofSource, EStateM.run] at h
  split at h
  · rename_i program' unit hunit
    cases h
    exact ⟨unit, hunit⟩
  · cases h

def Program.context (program : Program) (symbols : Symbols) : Context :=
  { symbols, structs := program.structs, globals := program.globals, function := "" }

theorem lowerUnit_eq_ok (h : lowerUnit p symbols unit = .ok program unit') :
    ∃ placed functions, placeGlobals p = .ok placed ∧ program.globals = placed.globals ∧
      program.structs = structsOf symbols ∧ program.functions = functions.flatten ∧
      (∃ unit unit', lowerInitializer (program.context symbols) placed.deferred unit =
        .ok program.initializer unit') ∧
      List.Forall₂ (fun d fs => ∃ unit unit',
        lowerDefinition (program.context symbols) program.initializer.isSome d unit = .ok fs unit')
        p functions := by
  obtain ⟨placed, hplaced, hrest⟩ := EStateM.ofExcept_bind_eq_ok.mp h
  obtain ⟨_, unit1, -, initializer, unit2, hinit, hrest⟩ := EStateM.bind2_eq_ok.mp hrest
  obtain ⟨functions, unit3, hfuns, _, unit4, -, hpure⟩ := EStateM.bind2_eq_ok.mp hrest
  obtain ⟨rfl, -⟩ := EStateM.pure_eq_ok.mp hpure
  exact ⟨placed, functions, hplaced, rfl, rfl, rfl, ⟨unit1, unit2, hinit⟩,
    EStateM.forall₂_of_mapM_eq_ok hfuns⟩

/-- The functions and methods of a class; its constructor is one that gives nothing back. -/
def classBodies (c : Source.ClassDef) : List FunctionDef :=
  (c.constructor.toList.map fun body =>
    { name := c.name, returnType := .void, parameters := [], body }) ++ c.methods

def definitionBodies : Definition → List (Option String × FunctionDef)
  | .function f => [(none, f)]
  | .object c => (classBodies c).map fun f => (some c.name, f)
  | .globals _ => []

def bodySource (owner : Option String) (f : FunctionDef) : BodySource where
  name := match owner with
    | some className => Linkage.methodSymbol className f.name
    | none => f.name
  returnType := .ofSource f.returnType
  parameters := f.parameters
  owner := owner

def Function.IsBuilt (g : Function) (ctx : Context) (source : BodySource)
    (statements : Context → Build Unit) : Prop :=
  ∃ s s', s.function = { name := source.name, returnType := source.returnType } ∧
    s.scopes = {} ∧ buildBody ctx source statements s = .ok g s'

theorem lowerFunctionDef_eq_ok {f : FunctionDef}
    (h : lowerFunctionDef ctx owner callInitializer f unit = .ok g unit') :
    g.IsBuilt ctx (bodySource owner f) fun ctx => ctx.lowerBody callInitializer f.body := by
  obtain ⟨_, unit1, -, hbody⟩ := EStateM.bind_eq_ok.mp h
  exact runBody_eq_ok hbody

theorem isBuilt_of_lowerDefinition (h : lowerDefinition ctx hasInitializer d unit = .ok fs unit')
    (hg : g ∈ fs) :
    ∃ owner f callInitializer, (owner, f) ∈ definitionBodies d ∧
      g.IsBuilt ctx (bodySource owner f) fun ctx => ctx.lowerBody callInitializer f.body := by
  cases d with
  | function f =>
    obtain ⟨g', unit1, hfun, hpure⟩ := EStateM.bind_eq_ok.mp h
    obtain ⟨rfl, -⟩ := EStateM.pure_eq_ok.mp hpure
    rw [List.mem_singleton.mp hg]
    exact ⟨none, f, _, List.mem_singleton_self _, lowerFunctionDef_eq_ok hfun⟩
  | object c =>
    obtain ⟨constructor, unit1, hctor, methods, unit2, hmethods, hpure⟩ :=
      EStateM.bind2_eq_ok.mp h
    obtain ⟨rfl, -⟩ := EStateM.pure_eq_ok.mp hpure
    rcases List.mem_append.mp hg with hg | hg
    · obtain ⟨body, hbody, unit3, unit4, hlower⟩ :=
        (EStateM.forall₂_of_mapM_eq_ok hctor).exists_of_mem_right hg
      refine ⟨some c.name, { name := c.name, returnType := .void, parameters := [], body }, false,
        ?_, lowerFunctionDef_eq_ok hlower⟩
      refine List.mem_map.mpr ⟨_, List.mem_append_left _ ?_, rfl⟩
      exact List.mem_map.mpr ⟨body, hbody, rfl⟩
    · obtain ⟨f, hf, unit3, unit4, hlower⟩ :=
        (EStateM.forall₂_of_mapM_eq_ok hmethods).exists_of_mem_right hg
      refine ⟨some c.name, f, false, ?_, lowerFunctionDef_eq_ok hlower⟩
      exact List.mem_map.mpr ⟨f, List.mem_append_right _ hf, rfl⟩
  | globals vars =>
    obtain ⟨rfl, -⟩ := EStateM.pure_eq_ok.mp h
    simp at hg

def Context.lowerDeferred (ctx : Context) (deferred : List (String × Expr)) : Build Unit :=
  deferred.forM fun (name, e) => do store (← ctx.lowerStored e) (.global name)

theorem isBuilt_of_lowerUnit (h : lowerUnit p symbols unit = .ok program unit') :
    ∃ placed, placeGlobals p = .ok placed ∧ program.globals = placed.globals ∧
      program.structs = structsOf symbols ∧
      ∀ g ∈ program.allFunctions,
        (∃ owner f callInitializer, (owner, f) ∈ p.flatMap definitionBodies ∧
          g.IsBuilt (program.context symbols) (bodySource owner f)
            fun ctx => ctx.lowerBody callInitializer f.body) ∨
        g.IsBuilt (program.context symbols)
          { name := Linkage.globalInitializer, returnType := .void }
          fun ctx => ctx.lowerDeferred placed.deferred := by
  obtain ⟨placed, functions, hplaced, hglobals, hstrs, hfuns, hinit, hlow⟩ :=
    lowerUnit_eq_ok h
  refine ⟨placed, hplaced, hglobals, hstrs, fun g hg => ?_⟩
  rcases List.mem_append.mp hg with hg | hg
  · obtain ⟨unit1, unit2, hinit⟩ := hinit
    unfold lowerInitializer at hinit
    split at hinit
    · obtain ⟨hnone, -⟩ := EStateM.pure_eq_ok.mp hinit
      simp [← hnone] at hg
    · obtain ⟨g', hbody, hsome⟩ := EStateM.map_eq_ok.mp hinit
      obtain rfl : g = g' := by simpa [← hsome] using hg
      exact .inr (runBody_eq_ok hbody)
  · rw [hfuns] at hg
    obtain ⟨fs, hfs, hg⟩ := List.mem_flatten.mp hg
    obtain ⟨d, hd, unit1, unit2, hdef⟩ := hlow.exists_of_mem_right hfs
    obtain ⟨owner, f, callInitializer, hmem, hbuilt⟩ := isBuilt_of_lowerDefinition hdef hg
    exact .inl ⟨owner, f, callInitializer, List.mem_flatMap.mpr ⟨d, hd, hmem⟩, hbuilt⟩

theorem mem_variableTypes_of_mem_bodies (hb : b ∈ p.flatMap definitionBodies)
    (hty : ty ∈ b.2.variableTypes) : ty ∈ p.variableTypes := by
  obtain ⟨d, hd, hb⟩ := List.mem_flatMap.mp hb
  refine List.mem_flatMap.mpr ⟨d, hd, ?_⟩
  cases d with
  | function f =>
    obtain rfl := List.mem_singleton.mp hb
    exact hty
  | object c =>
    obtain ⟨f, hf, rfl⟩ := List.mem_map.mp hb
    rcases List.mem_append.mp hf with hf | hf
    · obtain ⟨body, hbody, rfl⟩ := List.mem_map.mp hf
      exact List.mem_append_left _ (List.mem_flatMap.mpr ⟨body, hbody, hty⟩)
    · exact List.mem_append_right _ (List.mem_flatMap.mpr ⟨f, hf, hty⟩)
  | globals vars => simp [definitionBodies] at hb

theorem isWellTyped_of_mem_bodies (h : p.isWellTyped symbols = true) {f : FunctionDef}
    (hf : (owner, f) ∈ p.flatMap definitionBodies) :
    f.isWellTyped symbols owner (symbols.outerTyping owner p.globalTyping) = true := by
  obtain ⟨d, hd, hf⟩ := List.mem_flatMap.mp hf
  have hdef := List.all_eq_true.mp h d hd
  cases d with
  | function f' =>
    obtain ⟨rfl, rfl⟩ := Prod.mk.inj (List.mem_singleton.mp hf)
    exact hdef
  | object c =>
    obtain ⟨f', hf', heq⟩ := List.mem_map.mp hf
    obtain ⟨rfl, rfl⟩ := Prod.mk.inj heq
    simp only [Definition.isWellTyped, Bool.and_eq_true, List.all_eq_true] at hdef
    rcases List.mem_append.mp hf' with hf' | hf'
    · obtain ⟨body, hbody, rfl⟩ := List.mem_map.mp hf'
      have hctor := hdef.1
      rw [Option.mem_toList.mp hbody] at hctor
      exact hctor
    · exact hdef.2 f' hf'
  | globals vars => simp [definitionBodies] at hf

theorem Placed.Records.find?_eq {placed : Placed} (h : placed.Records p) (hv : v ∈ placed.globals) :
    (placed.globals.find? fun g => g.name == v.name) = some v := by
  cases hfind : placed.globals.find? fun g => g.name == v.name with
  | none => exact absurd (beq_self_eq_true v.name) (List.find?_eq_none.mp hfind v hv)
  | some w =>
    have hname : w.name = v.name := by simpa using List.find?_some hfind
    rw [List.inj_on_of_nodup_map h.nodup (List.mem_of_find?_eq_some hfind) hv hname]

theorem Placed.Records.suits {placed : Placed} (h : placed.Records p) (hx : x ∈ placed.deferred) :
    ∃ ty, (∃ v ∈ placed.globals.find? fun g => g.name == x.1, v.ty = Ty.ofSource ty) ∧
      (p.isWellTyped symbols = true →
        x.2.suits symbols none (symbols.outerTyping none p.globalTyping) ty = true) := by
  obtain ⟨d, hd, hinitial, hmem⟩ := h.deferred x hx
  refine ⟨d.1, ?_, fun htyped => ?_⟩
  · obtain ⟨v, hv, heq⟩ := List.mem_map.mp hmem
    obtain ⟨hname, hty⟩ := Prod.mk.inj heq
    exact ⟨v, hname ▸ h.find?_eq hv, hty⟩
  · obtain ⟨vars, hvars, hty, hdeclarator⟩ := Source.Program.mem_declarators hd
    have hdef := List.all_eq_true.mp htyped _ hvars
    have hsuits := List.all_eq_true.mp hdef d.2 hdeclarator
    rw [hinitial, hty] at hsuits
    exact hsuits

end MxStar.Flow
