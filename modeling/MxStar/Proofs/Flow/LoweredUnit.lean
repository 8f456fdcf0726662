import MxStar.Proofs.Flow.MovesUnit

/-!
# Units of finished functions

Every body of a unit is built by moves to a finished function that is typed right, and
no step fails over the shape of a graph.  With that, `Program.ofSource` gives
well-formed graphs for every program and symbol table, well-typed or not.
-/

namespace MxStar.Flow

open Build
open Source (Symbols Definition FunctionDef ClassDef Expr Stmt)

/-! ## Bodies -/

variable {f : Function} {P : Plan} {e : Error} {log log' : Log}

theorem Function.Complete.pruneNoted {A : BlockId → Set RegisterId} (h : f.Complete A) (log : Log) :
    ∃ g log', f.pruneNoted log = .ok g log' ∧ g.Sound A := by
  obtain ⟨g, hg, hsound⟩ := h.exists_rebuildEdges
  simp only [Function.pruneNoted, h.targetsExist.dropUnreachable]
  by_cases hlen : f.kept.length = f.layout.length
  · refine ⟨g, log, ?_, hsound⟩
    simp [bind, EStateM.bind, ofExcept, pure, EStateM.pure, hlen, hg]
  · refine ⟨g, log.push (.prunedBlocks (f.layout.length - f.kept.length) f.name), ?_, hsound⟩
    simp [bind, EStateM.bind, ofExcept, pure, EStateM.pure, hlen, hg, note, modify, modifyGet,
      MonadStateOf.modifyGet, EStateM.modifyGet]

theorem Checking.Holds.of_sameCode {C : Checking} {g : Function} (h : C.Holds f)
    (hcode : f.SameCode g) : C.Holds g := by
  have hblock : ∀ id b, g.blocks.get? id = some b → ∃ b0, f.blocks.get? id = some b0 ∧
      b.instrs = b0.instrs ∧ b.terminator = b0.terminator := by
    intro id b hb
    have hlt := Table.lt_size_of_get? hb
    rw [hcode.size] at hlt
    obtain ⟨b0, hb0⟩ := Table.exists_get? hlt
    obtain ⟨b', hb', hsame⟩ := hcode.blocks id b0 hb0
    obtain rfl := Option.mem_unique hb hb'
    exact ⟨b0, hb0, hsame.instrs, hsame.terminator⟩
  refine ⟨hcode.cells ▸ h.cells, fun r ty hr => h.flat r ty ?_, fun id b hb => ?_,
    fun id b hb => ?_⟩
  · rw [Function.registerType, ← hcode.registers]
    exact hr
  · obtain ⟨b0, hb0, hinstrs, -⟩ := hblock id b hb
    rw [hinstrs]
    exact h.instrs id b0 hb0
  · obtain ⟨b0, hb0, -, hterm⟩ := hblock id b hb
    rw [hterm]
    exact h.terminators id b0 hb0

structure UnitPlan.Finishes (U : UnitPlan) (f : Function) : Prop where
  sound : ∃ A, f.Sound A
  holds : (U.checking f).Holds f

theorem drafts_finishBody {closed : Builder} (h : P.Completes ∅ closed) :
    Drafts (· = closed) finishBody fun f s => P.Finishes f ∧
      (∃ layout, { closed.function with layout }.rebuildEdges = .ok f) ∧
      s.strings = closed.strings ∧ s.nextLabel = closed.nextLabel := by
  obtain ⟨A, hcomplete, -⟩ := h.complete
  have hfinish : Drafts (· = closed) finishBody fun f _ => f.Sound A := by
    refine Drafts.get fun s hs => ?_
    obtain ⟨g, log, hprune, hsound⟩ := hs ▸ hcomplete.pruneNoted closed.log
    have hlogged : Drafts (· = s) (logged s.function.pruneNoted) fun f _ => f = g := by
      rintro s' rfl
      simp only [logged, hprune]
    refine hlogged.bind fun f => ?_
    have hcheck : Drafts (fun _ => f = g) (ofExcept f.check : Build Unit) fun _ _ => f = g := by
      rintro s' rfl
      rw [hsound.wellFormed.check]
      rfl
    refine hcheck.bind fun _ => ?_
    have hnote : Drafts (fun _ => f = g)
        (logged (note (.loweredFunction f.name f.layout.length f.registers.size)))
        fun _ _ => f = g := fun _ h => h
    exact hnote.bind fun _ => Drafts.pure fun _ h => h ▸ hsound
  rintro s rfl
  have hsound := hfinish s rfl
  cases hstep : finishBody s with
  | ok f s' =>
    rw [hstep] at hsound
    have hcode := sameCode_of_finishBody hstep
    refine ⟨⟨⟨A, hsound⟩, ?_⟩, finishBody_cases hstep⟩
    refine (h.holds f fun r info hr => ?_).of_sameCode hcode
    rw [hcode.registers]
    exact hr
  | error e s' =>
    rw [hstep] at hsound
    exact hsound

theorem buildBody_eq (ctx : Context) (source : BodySource) (statements : Context → Build Unit) :
    buildBody ctx source statements =
      openBlocks >>= fun _ => bodySteps ctx source statements >>= fun _ => finishBody := by
  simp only [buildBody, bodySteps, bind_assoc]

/-! ## Texts -/

def Interns {α : Type} (texts : List String) (step : Build α) : Prop :=
  ∀ ⦃s a s'⦄, step s = .ok a s' → s'.strings = s.strings.internAll texts

theorem Builds.interns {α : Type} {step : Build α} {texts : List String} {Q : α → Prop}
    (h : Builds True outerView 0 step texts Q) : Interns texts step :=
  fun _ _ _ hstep => (h hstep (Nat.zero_le _)).2.2.1 True.intro

theorem Interns.pure {α : Type} {a : α} : Interns [] (pure a) :=
  Builds.interns (Q := fun _ => True) (.pure True.intro)

theorem Interns.bind {α β : Type} {x : Build α} {k : α → Build β} {texts more : List String}
    (hx : Interns texts x) (hk : ∀ a, Interns more (k a)) : Interns (texts ++ more) (x >>= k) := by
  intro s b s' h
  obtain ⟨a, s1, h1, h2⟩ := EStateM.bind_eq_ok.mp h
  rw [hk a h2, hx h1, StringPool.internAll_append]

theorem interns_modifyFunction (change : Function → Function) :
    Interns [] (modifyFunction change) := by
  intro s a s' h
  injection h with _ hs'
  subst hs'
  rfl

theorem builds_openReturnCell {P : Prop} (ty : Ty) (bound : Nat) :
    Builds P outerView bound (openReturnCell ty) := by
  unfold openReturnCell
  split
  · exact .pure trivial
  · exact .bind (builds_createCell _ _) fun _ _ => .bind (builds_emit _) fun _ _ => .pure trivial

theorem builds_closeBody {τ : Type} {P : Prop} {view : ScopeStack → τ} (ty : Ty)
    (cell : Option RegisterId) : Builds P view 0 (closeBody ty cell) := by
  refine .bind .get fun s _ => .bind (builds_switchTo (Nat.zero_le _)) fun _ _ => ?_
  split
  · exact .bind (builds_define _ _) fun _ _ => builds_terminate _
  · exact builds_terminate _

theorem builds_lowerBody {P : Prop} (ctx : Context) (callInitializer : Bool) (body : List Stmt)
    (bound : Nat) :
    Builds P outerView bound (ctx.lowerBody callInitializer body) (Source.textsIn body) := by
  unfold Context.lowerBody
  split
  · exact .bind (builds_emit _) fun _ _ => builds_lowerStmts ctx body
  · exact builds_lowerStmts ctx body

theorem interns_buildBody {ctx : Context} {source : BodySource} {statements : Context → Build Unit}
    {texts : List String} (h : ∀ ctx, Interns texts (statements ctx)) :
    Interns texts (buildBody ctx source statements) := by
  have hopen : Interns [] openBlocks := by
    intro s a s' h
    injection h with _ hs'
    subst hs'
    rfl
  have hparam (ty : Ty) (name : String) {β : Type} {k : RegisterId → Build β}
      (hk : ∀ r, Interns [] (k r)) : Interns [] (do
        let register ← createRegister ty (some name)
        modifyFunction fun f => { f with parameters := f.parameters ++ [register] }
        k register) :=
    (builds_createRegister _ _).interns.bind fun r => (interns_modifyFunction _).bind fun _ => hk r
  have hrecv : Interns [] (openReceiver source.owner) := by
    cases source.owner with
    | none => exact .pure
    | some className => exact hparam _ _ fun _ => .pure
  have hparams : Interns [] (source.parameters.forM declareParameter) := by
    induction source.parameters with
    | nil => exact .pure
    | cons p rest ih =>
      have hdeclare : Interns [] (declareParameter p) := hparam _ _ fun _ => Builds.interns
        (.bind (builds_createCell _ _) fun _ _ => .bind (builds_emit _) fun _ _ =>
          builds_declare _ _ _)
      exact hdeclare.bind fun _ => ih
  rw [← List.append_nil texts]
  exact hopen.bind fun _ => hrecv.bind fun _ => (builds_openReturnCell _ 0).interns.bind fun _ =>
    hparams.bind fun _ => (h _).bind fun _ => (builds_closeBody _ _).interns.bind fun _ =>
      fun _ _ _ h => (finishBody_cases h).2.1

/-! ## Units -/

/-- From `unit` a step leads to what `post` says, or fails for a reason other than the
shape of a graph. -/
def Produces {α : Type} (unit : UnitState) (step : UnitBuild α) (post : α → UnitState → Prop) :
    Prop :=
  match step unit with
  | .ok a unit' => post a unit'
  | .error e _ => e.isStructural = false

namespace Produces

variable {α β : Type} {unit : UnitState} {post : α → UnitState → Prop}
  {post' : β → UnitState → Prop}

theorem pure (h : post a unit) : Produces unit (pure a) post := h

theorem bind {k : α → UnitBuild β} (hx : Produces unit x post)
    (hk : ∀ a unit', post a unit' → Produces unit' (k a) post') :
    Produces unit (x >>= k) post' := by
  unfold Produces at hx ⊢
  simp only [Bind.bind, EStateM.bind]
  cases h : x unit with
  | ok a unit' =>
    rw [h] at hx
    exact hk a unit' hx
  | error e unit' =>
    rw [h] at hx
    exact hx

theorem mono {post'' : α → UnitState → Prop} (h : Produces unit step post)
    (himp : ∀ a unit', post a unit' → post'' a unit') : Produces unit step post'' := by
  unfold Produces at h ⊢
  cases hstep : step unit with
  | ok a unit' =>
    rw [hstep] at h
    exact himp a unit' h
  | error e unit' =>
    rw [hstep] at h
    exact h

theorem ofExcept {x : Except Error α} (he : ∀ e, x = .error e → e.isStructural = false) :
    Produces unit (ofExcept x) fun a unit' => x = .ok a ∧ unit' = unit := by
  cases x with
  | ok a => exact ⟨rfl, rfl⟩
  | error e => exact he e rfl

end Produces

/-- Functions that are built in turn from bodies with these texts, all of them finished. -/
structure UnitPlan.Lowers (U : UnitPlan) (unit : UnitState) (sources : List BodySource)
    (texts : List String) (fs : List Function) (unit' : UnitState) : Prop where
  bodies : Bodies U.vocabulary unit sources fs unit'
  finishes : ∀ f ∈ fs, U.Finishes f
  strings : unit'.strings = unit.strings.internAll texts

namespace UnitPlan.Lowers

variable {U : UnitPlan} {unit unit1 unit' : UnitState} {sources sources' : List BodySource}
  {texts texts' : List String} {fs fs' : List Function}

theorem nil : U.Lowers unit [] [] [] unit := ⟨.nil rfl rfl, by simp, rfl⟩

theorem append (h : U.Lowers unit sources texts fs unit1)
    (h' : U.Lowers unit1 sources' texts' fs' unit') :
    U.Lowers unit (sources ++ sources') (texts ++ texts') (fs ++ fs') unit' where
  bodies := h.bodies.append h'.bodies
  finishes := List.forall_mem_append.mpr ⟨h.finishes, h'.finishes⟩
  strings := by rw [h'.strings, h.strings, StringPool.internAll_append]

end UnitPlan.Lowers

section

variable {U : UnitPlan} {ctx : Context}

theorem produces_mapM {α β : Type} {step : α → UnitBuild β} (sources : α → List BodySource)
    (texts : α → List String) (functions : β → List Function) (as : List α)
    (hstep : ∀ a ∈ as, ∀ unit, Produces unit (step a) fun b unit' =>
      U.Lowers unit (sources a) (texts a) (functions b) unit') (unit : UnitState) :
    Produces unit (as.mapM step) fun bs unit' =>
      U.Lowers unit (as.flatMap sources) (as.flatMap texts) (bs.flatMap functions) unit' := by
  induction as generalizing unit with
  | nil => exact .pure .nil
  | cons a rest ih =>
    rw [List.mapM_cons]
    refine .bind (hstep a (.head _) unit) fun b unit1 hb => ?_
    refine .bind (ih (fun a ha => hstep a (.tail _ ha)) unit1) fun bs unit2 hbs =>
      .pure ?_
    rw [List.flatMap_cons, List.flatMap_cons]
    exact hb.append hbs

theorem produces_runBody (source : BodySource) {returnType : Source.Ty}
    (statements : Context → Build Unit) (htexts : ∀ ctx, Interns texts (statements ctx))
    (hctx : ctx.Shares U) (hreturn : source.returnType = .ofSource returnType)
    (hsized : U.sized → ∀ p ∈ source.parameters, p.ty ≠ .void)
    (hstatements : ∀ origin ctx κ, ctx.Suits ⟨U, source.owner, returnType, origin⟩ κ →
      Proceeds ⟨U, source.owner, returnType, origin⟩ κ
      (parameterTyping source.parameters (U.symbols.outerTyping source.owner U.globals))
      (statements ctx) fun _ => True)
    (unit : UnitState) :
    Produces unit (runBody ctx source statements) fun f unit' =>
      U.Lowers unit [source] texts [f] unit' := by
  let start : Builder := { function := { name := source.name, returnType := source.returnType },
                           strings := unit.strings, nextLabel := unit.nextLabel, log := unit.log }
  obtain ⟨opened, hopen⟩ : ∃ opened, openBlocks start = .ok () opened := ⟨_, rfl⟩
  obtain ⟨hblocks, hstrings, hlabel, -, hname⟩ := openBlocks_cases rfl hopen
  let P : Plan := ⟨U, source.owner, returnType, opened⟩
  let isOpened := At P .start (some (.jump ⟨1⟩)) [waitingExit] ([], none)
    (U.symbols.outerTyping source.owner U.globals)
  have hsteps : Drafts isOpened (bodySteps ctx source statements) fun _ => P.Completes ∅ :=
    drafts_bodySteps hctx rfl hreturn hsized fun ctx κ hsuits =>
      (hstatements opened ctx κ hsuits).buries
  have hbody : Drafts (· = start) (buildBody ctx source statements) fun f s =>
      U.Finishes f ∧ Body U.vocabulary unit ⟨s.strings, s.nextLabel, s.log⟩ source f := by
    have hstart : Drafts (· = start) openBlocks fun _ => isOpened := by
      rintro s rfl
      rw [hopen]
      exact at_openBlocks rfl rfl hopen rfl
    rw [buildBody_eq]
    refine hstart.bind fun _ => hsteps.bind fun _ closed hclosed => ?_
    refine (drafts_finishBody hclosed).mono (fun _ h => h) ?_ closed rfl
    rintro f s ⟨hfinishes, ⟨layout, hedges⟩, hstrings', hlabel'⟩
    refine ⟨hfinishes, ?_, opened, closed, hblocks, hstrings, hlabel, hclosed.moves,
      ⟨layout, hedges⟩, hstrings', hlabel'⟩
    exact (Function.sameCode_of_rebuildEdges hedges).head.name.trans
      (hclosed.moves.name.trans hname)
  have hrun := hbody start rfl
  simp only [Produces, runBody, EStateM.run]
  split at hrun
  · rename_i f s hstep
    rw [hstep]
    exact ⟨hrun.2.single, by simpa using hrun.1, interns_buildBody htexts hstep⟩
  · rename_i e s hstep
    rw [hstep]
    exact hrun

theorem proceeds_lowerBody (hctx : ctx.Suits P κ)
    (hcall : callInitializer = true → P.vocabulary.calls Linkage.globalInitializer)
    (body : List Stmt) (hsized : P.sized → ∀ ty ∈ Stmt.allVariableTypes body, ty ≠ .void)
    (htyped : P.typed → Source.Stmt.areWellTyped P.symbols P.owner P.returnType N body = true) :
    Proceeds P κ N (ctx.lowerBody callInitializer body) fun _ => True := by
  unfold Context.lowerBody
  split
  · refine .bind (.of_offers (Q := fun _ _ => True) fun _ _ _ _ _ => ?_)
      (proceeds_lowerStmts hctx body hsized htyped)
    exact yields_callVoid (hcall ‹_›) (by simp)
  · exact proceeds_lowerStmts hctx body hsized htyped

theorem produces_lowerFunctionDef (hctx : ctx.Shares U) {owner : Option String}
    (hcall : callInitializer = true → U.vocabulary.calls Linkage.globalInitializer)
    {f : FunctionDef} (hsized : U.sized → ∀ ty ∈ f.variableTypes, ty ≠ .void)
    (htyped : U.typed → f.isWellTyped U.symbols owner
      (U.symbols.outerTyping owner U.globals) = true)
    (unit : UnitState) :
    Produces unit (lowerFunctionDef ctx owner callInitializer f) fun g unit' =>
      U.Lowers unit [bodySource owner f] (Source.textsIn f.body) [g] unit' := by
  have hbody := produces_runBody (bodySource owner f)
    (fun ctx => ctx.lowerBody callInitializer f.body)
    (fun ctx => (builds_lowerBody ctx _ f.body 0).interns) hctx rfl
    (fun h p hp => hsized h _ (List.mem_append_left _ (List.mem_map_of_mem hp)))
    (fun _ _ _ hsuits => proceeds_lowerBody hsuits hcall f.body
      (fun h ty hty => hsized h ty (List.mem_append_right _ hty)) htyped)
    { unit with log := unit.log.push (.loweringFunction (bodySource owner f).name) }
  exact hbody.mono fun g unit' h => ⟨h.bodies.of_shared rfl rfl, h.finishes, h.strings⟩

theorem produces_lowerClass (hctx : ctx.Shares U)
    (hsized : U.sized → ∀ f ∈ classBodies c, ∀ ty ∈ f.variableTypes, ty ≠ .void)
    (htyped : ∀ f ∈ classBodies c, U.typed → f.isWellTyped U.symbols (some c.name)
      (U.symbols.outerTyping (some c.name) U.globals) = true)
    (unit : UnitState) :
    Produces unit (lowerClass ctx c) fun fs unit' =>
      U.Lowers unit ((classBodies c).map (bodySource (some c.name)))
        ((classBodies c).flatMap fun f => Source.textsIn f.body) fs unit' := by
  refine .bind (produces_mapM (U := U)
    (fun body => [bodySource (some c.name) (constructorDef c body)]) Source.textsIn (fun g => [g]) _
    (fun body hbody unit => ?_) unit) fun constructor unit1 hctor => ?_
  · have hmem : constructorDef c body ∈ classBodies c :=
      List.mem_append_left _ (List.mem_map.mpr ⟨body, hbody, rfl⟩)
    exact produces_lowerFunctionDef (f := constructorDef c body) hctx (by simp)
      (fun h => hsized h _ hmem) (htyped _ hmem) unit
  refine .bind (produces_mapM (U := U) (fun f => [bodySource (some c.name) f])
    (fun f => Source.textsIn f.body) (fun g => [g]) _ (fun f hf unit => ?_) unit1)
    fun methods unit2 hmethods => .pure ?_
  · exact produces_lowerFunctionDef hctx (by simp)
      (fun h => hsized h f (List.mem_append_right _ hf))
        (htyped f (List.mem_append_right _ hf)) unit
  rw [← List.map_eq_flatMap, ← List.map_eq_flatMap, List.map_id'] at hctor hmethods
  rw [classBodies, List.map_append, List.map_map, List.flatMap_append, List.flatMap_map]
  exact hctor.append hmethods

theorem produces_lowerDefinition (hctx : ctx.Shares U)
    (hcall : hasInitializer = true → U.vocabulary.calls Linkage.globalInitializer)
    (hsized : U.sized → ∀ b ∈ definitionBodies d, ∀ ty ∈ b.2.variableTypes, ty ≠ .void)
    (htyped : ∀ b ∈ definitionBodies d, U.typed → b.2.isWellTyped U.symbols b.1
      (U.symbols.outerTyping b.1 U.globals) = true)
    (unit : UnitState) :
    Produces unit (lowerDefinition ctx hasInitializer d) fun fs unit' =>
      U.Lowers unit ((definitionBodies d).map fun b => bodySource b.1 b.2)
        ((definitionBodies d).flatMap fun b => Source.textsIn b.2.body) fs unit' := by
  cases d with
  | function f =>
    rw [definitionBodies, List.flatMap_singleton]
    refine .bind (produces_lowerFunctionDef hctx (fun hboth => ?_)
      (fun h => hsized h (none, f) (.head _)) (htyped (none, f) (.head _)) unit)
        fun g unit1 hg => .pure hg
    exact hcall (Bool.and_eq_true_iff.mp hboth).1
  | object c =>
    rw [definitionBodies, List.map_map, List.flatMap_map]
    exact produces_lowerClass hctx
      (fun h f hf => hsized h (some c.name, f) (List.mem_map.mpr ⟨f, hf, rfl⟩))
      (fun f hf => htyped (some c.name, f) (List.mem_map.mpr ⟨f, hf, rfl⟩)) unit
  | globals vars => exact .pure .nil

theorem proceeds_lowerDeferred (hctx : ctx.Suits P κ)
    (hdeferred : ∀ x ∈ deferred, ∃ ty, (∃ v ∈ P.vocabulary.globals.find? fun g => g.name == x.1,
      v.ty = Ty.ofSource ty) ∧ (P.typed → x.2.suits P.symbols P.owner N ty = true)) :
    Proceeds P κ N (ctx.lowerDeferred deferred) (· = N) := by
  unfold Context.lowerDeferred
  induction deferred with
  | nil => exact .nothing
  | cons x rest ih =>
    obtain ⟨ty, ⟨v, hv, hty⟩, htyped⟩ := hdeferred x (.head _)
    refine .bind ?_ (ih fun y hy => hdeferred y (.tail _ hy))
    refine .of_value (offers_lowerStored hctx htyped) fun value κ1 h1 hvalue => ?_
    refine .of_offers (Q := fun _ _ => True) fun κ2 h2 T W O => ?_
    refine yields_store (hvalue.mono h2) ⟨⟨_, by simp, ⟨v, ?_, ?_⟩, fun _ _ => rfl⟩,
      Ty.isKept_ofSource ty, fun _ _ => ⟨v, hv, hty⟩, fun _ => rfl⟩
    · exact List.mem_of_find?_eq_some hv
    · simpa using List.find?_some hv

theorem interns_lowerDeferred (ctx : Context) (deferred : List (String × Expr)) :
    Interns (deferred.flatMap (·.2.texts)) (ctx.lowerDeferred deferred) := by
  unfold Context.lowerDeferred
  induction deferred with
  | nil => exact .pure
  | cons x rest ih =>
    exact (Builds.interns (.last (builds_lowerStored ctx x.2) fun _ _ => builds_emit _)).bind
      fun _ => ih

theorem produces_lowerInitializer (hctx : ctx.Shares U)
    (hdeferred : ∀ x ∈ deferred, ∃ ty, (∃ v ∈ U.vocabulary.globals.find? fun g => g.name == x.1,
      v.ty = Ty.ofSource ty) ∧
      (U.typed → x.2.suits U.symbols none (U.symbols.outerTyping none U.globals) ty = true))
    (unit : UnitState) :
    Produces unit (lowerInitializer ctx deferred) fun initializer unit' =>
      initializer.isSome = !deferred.isEmpty ∧
        U.Lowers unit (initializerSources deferred) (deferred.flatMap (·.2.texts))
          initializer.toList unit' := by
  unfold lowerInitializer initializerSources
  split
  · rename_i hempty
    rw [List.isEmpty_iff.mp hempty]
    exact .pure ⟨rfl, .nil⟩
  · rename_i hempty
    have hvoid : Ty.void = .ofSource .void := rfl
    rw [map_eq_pure_bind]
    refine .bind (produces_runBody { name := Linkage.globalInitializer, returnType := .void }
      (fun ctx => ctx.lowerDeferred deferred) (fun ctx => ?_) hctx hvoid (by simp)
      (fun _ _ _ hsuits => ?_) unit) fun f unit' hf => .pure ⟨by simp [hempty], hf⟩
    · exact interns_lowerDeferred ctx deferred
    · exact (proceeds_lowerDeferred hsuits hdeferred).anywhere

end

theorem isStructural_of_foldlM {α β : Type} {step : β → α → Except Error β}
    (hstep : ∀ b a e, step b a = .error e → e.isStructural = false) {as : List α} {b : β}
    (h : as.foldlM step b = .error e) : e.isStructural = false := by
  induction as generalizing b with
  | nil => cases h
  | cons a rest ih =>
    rw [List.foldlM_cons] at h
    cases ha : step b a with
    | ok b' =>
      rw [ha] at h
      exact ih h
    | error e' =>
      rw [ha] at h
      cases h
      exact hstep b a e ha

variable {p : Source.Program} {symbols : Symbols} {program : Program}

theorem isStructural_of_placeGlobals (h : placeGlobals p = .error e) : e.isStructural = false := by
  rw [placeGlobals_eq] at h
  refine isStructural_of_foldlM (fun placed d e h => ?_) h
  unfold Placed.place Placed.add at h
  split at h
  · cases h
    rfl
  · split at h <;> cases h

def Program.plan (program : Program) (p : Source.Program) (symbols : Symbols) : UnitPlan where
  symbols := symbols
  vocabulary := program.vocabulary symbols
  globals := p.globalTyping
  typed := p.isWellTyped symbols = true
  sized := ∀ ty ∈ p.variableTypes, ty ≠ .void

/-- The functions of a unit are built in turn: what computes the globals first, then the
bodies of the source in its order. -/
def Program.LoweredFrom (p : Source.Program) (symbols : Symbols) (unit : UnitState)
    (program : Program) (unit' : UnitState) : Prop :=
  ∃ placed unit1, placeGlobals p = .ok placed ∧ program.globals = placed.globals ∧
    program.structs = structsOf symbols ∧ program.strings = unit'.strings ∧
    (program.plan p symbols).Lowers { unit with strings := placed.strings }
      (initializerSources placed.deferred) (placed.deferred.flatMap (·.2.texts))
      program.initializer.toList unit1 ∧
    (program.plan p symbols).Lowers unit1
      ((p.flatMap definitionBodies).map fun b => bodySource b.1 b.2)
      ((p.flatMap definitionBodies).flatMap fun b => Source.textsIn b.2.body)
        program.functions unit'

theorem produces_lowerUnit (p : Source.Program) (symbols : Symbols) (unit : UnitState) :
    Produces unit (lowerUnit p symbols) (Program.LoweredFrom p symbols unit) := by
  refine .bind (.ofExcept fun _ => isStructural_of_placeGlobals) fun placed unit0 hplaced => ?_
  obtain ⟨hplaced, rfl⟩ := hplaced
  have hmodify : Produces unit0 (modify fun unit => { unit with strings := placed.strings })
    fun _ unit1 => unit1 = { unit0 with strings := placed.strings } := rfl
  refine hmodify.bind fun _ unit1 hunit1 => ?_
  subst hunit1
  -- whether there is an initializer is known before it is built
  let U (hasInitializer : Bool) : UnitPlan := {
    symbols, globals := p.globalTyping, typed := p.isWellTyped symbols = true
    sized := ∀ ty ∈ p.variableTypes, ty ≠ .void
    vocabulary := {
      structs := structsOf symbols, globals := placed.globals
      calls symbol := (symbols.function? symbol).isSome ∨
        (∃ className method, symbols.hasMethod className method = true ∧
          symbol = Linkage.methodSymbol className method) ∨
        symbol ∈ Linkage.support ∨ hasInitializer ∧ symbol = Linkage.globalInitializer } }
  have hctx : ∀ hasInitializer, Context.Shares
      { symbols, structs := structsOf symbols, globals := placed.globals, function := "" }
      (U hasInitializer) := fun hasInitializer => {
    covers := ⟨rfl, rfl, fun _ h => .inl h,
      fun className method h => .inr (.inl ⟨className, method, h, rfl⟩),
      fun _ h => .inr (.inr (.inl h))⟩
    structs := rfl
    global := find?_placeGlobals hplaced }
  refine .bind (produces_lowerInitializer (hctx (!placed.deferred.isEmpty))
    (fun x hx => (records_placeGlobals hplaced).suits hx) _)
    fun initializer unit1 hinit => ?_
  obtain ⟨hsome, hinit⟩ := hinit
  rw [← hsome] at hinit
  refine .bind (produces_mapM (fun d => (definitionBodies d).map fun b => bodySource b.1 b.2)
    (fun d => (definitionBodies d).flatMap fun b => Source.textsIn b.2.body) (fun fs => fs) p
    (fun d hd unit =>
    produces_lowerDefinition (hctx initializer.isSome) (fun h => .inr (.inr (.inr ⟨h, rfl⟩)))
      (fun hsized b hb ty hty => hsized ty ?_) (fun b hb htyped => ?_) unit) unit1)
    fun functions unit2 hfuns => ?_
  · exact mem_variableTypes_of_mem_bodies (List.mem_flatMap.mpr ⟨d, hd, hb⟩) hty
  · exact isWellTyped_of_mem_bodies htyped (List.mem_flatMap.mpr ⟨d, hd, hb⟩)
  have hget : Produces unit2 get fun s unit3 => s = unit3 ∧ unit3 = unit2 := ⟨rfl, rfl⟩
  refine hget.bind fun s unit3 hget => ?_
  obtain ⟨rfl, rfl⟩ := hget
  refine .pure ⟨placed, unit1, hplaced, rfl, rfl, rfl, hinit, ?_⟩
  rw [List.flatMap_id'] at hfuns
  rw [List.map_flatMap, List.flatMap_assoc]
  exact hfuns

theorem lowers_of_lowerUnit (h : lowerUnit p symbols unit = .ok program unit') :
    Program.LoweredFrom p symbols unit program unit' := by
  have hunit := produces_lowerUnit p symbols unit
  unfold Produces at hunit
  rw [h] at hunit
  exact hunit

/-- The texts of a program: those of the globals that are placed, of the globals that are
computed, and of the bodies. -/
def unitTexts (p : Source.Program) : List String :=
  (p.declarators.flatMap fun d => placedTexts d.2) ++
    ((p.declarators.flatMap fun d => deferredTexts d.2) ++
      (p.flatMap definitionBodies).flatMap fun b => Source.textsIn b.2.body)

/-- **The strings of a unit** are the texts of its source, interned in the order of lowering. -/
theorem strings_of_lowerUnit (h : lowerUnit p symbols unit = .ok program unit') :
    program.strings = .ofList (unitTexts p) := by
  obtain ⟨placed, unit1, hplaced, -, -, hstrings, hinit, hfuns⟩ := lowers_of_lowerUnit h
  obtain ⟨-, hplacedStrings, hdeferred⟩ := adds_placeGlobals hplaced
  rw [hstrings, hfuns.strings, hinit.strings, unitTexts, StringPool.ofList_append,
    StringPool.internAll_append, hdeferred, hplacedStrings]
  rfl

theorem names_of_lowerUnit (h : lowerUnit p symbols unit = .ok program unit') :
    program.functions.map Function.name =
        (p.flatMap definitionBodies).map (fun b => (bodySource b.1 b.2).name) ∧
      ∀ g ∈ program.initializer, g.name = Linkage.globalInitializer := by
  obtain ⟨placed, unit1, -, -, -, -, hinit, hfuns⟩ := lowers_of_lowerUnit h
  refine ⟨by rw [hfuns.bodies.names, List.map_map]; rfl, fun g hg => ?_⟩
  have hnames := hinit.bodies.names
  rw [Option.mem_def.mp hg] at hnames
  unfold initializerSources at hnames
  split at hnames
  · simp at hnames
  · simpa using hnames

theorem Program.finishes_of_ofSource (h : Program.ofSource p symbols log = .ok program log') :
    ∀ f ∈ program.allFunctions, (program.plan p symbols).Finishes f := by
  obtain ⟨unit, hunit⟩ := Program.ofSource_eq_ok h
  obtain ⟨placed, unit1, -, -, -, -, hinit, hfuns⟩ := lowers_of_lowerUnit hunit
  exact (hinit.append hfuns).finishes

theorem Program.sound_of_ofSource (h : Program.ofSource p symbols log = .ok program log') :
    ∀ f ∈ program.allFunctions, ∃ A, f.Sound A :=
  fun f hf => (Program.finishes_of_ofSource h f hf).sound

theorem Program.exists_ofSource (p : Source.Program) (reads : Symbols → Program → Bool)
    (h : (match Symbols.collect p with
      | .ok symbols =>
        match Program.ofSource p symbols #[] with
        | .ok program _ => reads symbols program
        | .error _ _ => false
      | .error _ => false) = true) :
    ∃ symbols program log, Symbols.collect p = .ok symbols ∧
      Program.ofSource p symbols #[] = .ok program log ∧ reads symbols program = true := by
  split at h
  · split at h
    · exact ⟨_, _, _, ‹_›, ‹_›, h⟩
    · cases h
  · cases h

/-- Lowering never fails over the shape of a graph, and all the graphs it gives are
well-formed. -/
theorem Program.wellFormed_ofSource (p : Source.Program) (symbols : Symbols) (log : Log) :
    match Program.ofSource p symbols log with
    | .ok program _ => ∀ f ∈ program.allFunctions, f.WellFormed
    | .error e _ => (∀ function label, e ≠ .missingTerminator function label) ∧
        ∀ function label, e ≠ .inconsistentEdges function label := by
  cases h : Program.ofSource p symbols log with
  | ok program log' =>
    intro f hf
    obtain ⟨A, hsound⟩ := Program.sound_of_ofSource h f hf
    exact hsound.wellFormed
  | error e log' =>
    have hunit := produces_lowerUnit p symbols { log }
    unfold Produces at hunit
    unfold Program.ofSource at h
    simp only [EStateM.run] at h
    split at h
    · cases h
    · rename_i e' unit hstep
      rw [hstep] at hunit
      cases h
      constructor <;> rintro function label rfl <;> cases hunit

end MxStar.Flow
