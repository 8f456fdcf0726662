import MxStar.Proofs.Flow.LoweredStmt
import MxStar.Proofs.Flow.LoweredUnit

/-!
# Functions keep their meaning

The code of a function of the scalar language does what the evaluation of its source
says.  Around its statements there is code that the source does not show: the cell for
the result is cleared, each parameter is moved to its cell, and the exit gives back
what the cell for the result holds.
-/

namespace MxStar.Flow

open Build
open Source (Symbols Typing Parameter Stmt FunctionDef)

section

variable {World : Type} {fs : State World} {r : RegisterId} {arguments : List Word}

/-! ## The start of a run -/

theorem State.assignAll_eq (fs : State World) (pairs : List (RegisterId × Word)) :
    ∃ registers, fs.assignAll pairs = { fs with registers } := by
  induction pairs generalizing fs with
  | nil => exact ⟨fs.registers, rfl⟩
  | cons p rest ih =>
    obtain ⟨registers, h⟩ := ih (fs.assign p.1 p.2)
    exact ⟨registers, h⟩

variable {returnType : Source.Ty} {scopes : ScopeStack}

theorem State.registers_assignAll_of_not_mem (h : r ∉ pairs.map Prod.fst) :
    (fs.assignAll pairs).registers r = fs.registers r := by
  induction pairs generalizing fs with
  | nil => rfl
  | cons p rest ih =>
    simp only [List.map_cons, List.mem_cons, not_or] at h
    refine (ih h.2).trans ?_
    simp [State.assign, h.1]

theorem State.registers_assignAll_of_mem (hnodup : (pairs.map Prod.fst).Nodup)
    (h : (r, w) ∈ pairs) : (fs.assignAll pairs).registers r = some w := by
  induction pairs generalizing fs with
  | nil => simp at h
  | cons p rest ih =>
    obtain ⟨hnew, hrest⟩ := List.nodup_cons.mp hnodup
    rcases List.mem_cons.mp h with rfl | h
    · refine (State.registers_assignAll_of_not_mem hnew).trans ?_
      simp [State.assign]
    · exact ih hrest h

namespace Function

variable {f : Function} (E : Environment World) (memory : Memory) (world : World)

theorem registers_start_cell (hnodup : f.given.Nodup) (arguments : List Word)
    (hc : f.cells[n]? = some c) :
    (f.start E arguments memory world).registers c.register = some (E.cell n) := by
  obtain ⟨-, hcells, hapart⟩ := List.nodup_append.mp hnodup
  have hmem : c ∈ f.cells.toList := by
    rw [← Array.getElem?_toList] at hc
    exact List.mem_of_getElem? hc
  have hkeys : (f.cellValues E).map Prod.fst = f.cells.toList.map Cell.register := by
    rw [cellValues, List.map_map]
    conv_rhs => rw [← List.zipIdx_map_fst 0 f.cells.toList, List.map_map]
    rfl
  refine (State.registers_assignAll_of_not_mem fun hr => ?_).trans
    (State.registers_assignAll_of_mem (hkeys ▸ hcells) ?_)
  · obtain ⟨p, hp, heq⟩ := List.mem_map.mp hr
    have hparam := (List.of_mem_zip hp).1
    exact hapart p.1 hparam c.register (List.mem_map_of_mem hmem) heq
  · refine List.mem_map.mpr ⟨(c, n), List.mk_mem_zipIdx_iff_getElem?.mpr ?_, rfl⟩
    rw [Array.getElem?_toList]
    exact hc

theorem registers_start_parameters (hnodup : f.given.Nodup)
    (hlen : f.parameters.length = arguments.length) :
    List.Forall₂ (fun r w => (f.start E arguments memory world).registers r = some w) f.parameters
      arguments := by
  obtain ⟨hparams, -, -⟩ := List.nodup_append.mp hnodup
  refine List.forall₂_iff_zip.mpr ⟨hlen, fun h => State.registers_assignAll_of_mem ?_ h⟩
  rw [List.map_fst_zip hlen.le]
  exact hparams

end Function

/-! ## The code around the statements -/

namespace Setting

variable {X : Setting World} {symbols : Symbols} {globals known : Typing} {s s' s1 s2 : Builder}
  {t : Option Terminator} {y : Position} {fs : State World} {st : Source.State World} {fuel : Nat}
  {u : Unit}

/-- A cell was created and has got its first value. -/
structure Initialized (X : Setting World) (s s' : Builder) (t : Option Terminator)
    (r : RegisterId) (ty : Ty) (w : Word) (st : Source.State World) (y : Position)
    (fs fs' : State World) : Prop where
  stands : s'.Stands t y
  ready : X.Ready s'
  scopes : s'.scopes = s.scopes
  agrees : X.Agrees s.scopes st fs'
  registers : fs'.registers = fs.registers
  spare : X.Spare s.scopes r
  cell : ∃ (n : Nat) (c : Cell), s'.function.cells[n]? = some c ∧ c.register = r ∧ c.ty = ty ∧
    fs'.memory.read ty.width (X.environment.cell n) = w

theorem goes_initialize (hX : X.Sound symbols globals) (hscalar : ty.IsScalar)
    {name : Option String} (hcreate : createCell ty name s = .ok r s1)
    (hstore : store o (.register r) s1 = .ok u s2) (hready : X.Ready s) (hstands : s.Stands t x)
    (hG : Grows s2.function X.function) (hagrees : X.Agrees s.scopes st fs)
    (hvalue : fs.value? X.environment o = some w) (hadmits : ty.Admits w) :
    ∃ y fs', X.Goes 0 x fs y fs' ∧ X.Initialized s s2 t r ty w st y fs fs' := by
  have hlater1 : s.Later s1 := (builds_createCell ty name).later hcreate
  have hlater2 : s1.Later s2 := (builds_emit _).later hstore
  have hown := ownCell_createCell hcreate hready (hlater2.grows.trans hG) fs
  obtain ⟨n, c, hc, hcX, rfl, rfl⟩ := hown.cell (hlater2.grows.trans hG)
  obtain ⟨y, hstands2, hgoes, -⟩ := stands_emit hstore (stands_createCell hcreate hstands) hG
  have hspare : X.Spare s.scopes c.register := hlater1.scopes ▸ hown.1
  refine ⟨y, _, hgoes fs _ (exec_storeCell hX.placed hagrees hcX hscalar hvalue), hstands2,
    (hready.later hlater1).later hlater2, hlater2.scopes.trans hlater1.scopes,
    hagrees.store_spare hX.shelters hcX hspare w, rfl, hspare, n, c,
      hlater2.grows.cells n c hc, rfl,
    rfl, ?_⟩
  exact hscalar.read_write _ _ hadmits

theorem declareParameter_eq_ok (h : declareParameter p s = .ok u s') :
    ∃ r cell s1 s2 s3, s1 = { s with function := { s.function with
        registers := s.function.registers.push { ty := .ofSource p.ty, name := some p.name }
        parameters := s.function.parameters ++ [r] } } ∧
      createCell (.ofSource p.ty) (some p.name) s1 = .ok cell s2 ∧
      store (.register r) (.register cell) s2 = .ok () s3 ∧
      s' = { s3 with scopes := s3.scopes.declare p.name (.cell cell) (.ofSource p.ty) } := by
  obtain ⟨r, s0, hreg, _, s1, hmodify, hrest⟩ := EStateM.bind2_eq_ok.mp h
  obtain ⟨cell, s2, hcell, _, s3, hstore, hdeclare⟩ := EStateM.bind2_eq_ok.mp hrest
  obtain ⟨-, rfl⟩ := createRegister_eq_ok hreg
  injection hmodify with _ hs1
  exact ⟨r, cell, s1, s2, s3, hs1.symm, hcell, hstore, modifyScopes_eq_ok hdeclare⟩

theorem later_addParameter (info : RegisterInfo) (r : RegisterId) :
    Grows s.function { s.function with
      registers := s.function.registers.push info
      parameters := s.function.parameters ++ [r] } := by
  have hedit : Edit 0 (s.function, s.current)
      ({ s.function with registers := s.function.registers.push info }, s.current) :=
    .register _ _ _
  have hgrows := hedit.grows
  exact ⟨hgrows.size, hgrows.registers, hgrows.cells, hgrows.newCells, hgrows.blocks,
    hgrows.blockCount, hgrows.exit⟩

theorem Ready.addParameter (h : X.Ready s) (info : RegisterInfo) (r : RegisterId) :
    X.Ready { s with function := { s.function with
      registers := s.function.registers.push info
      parameters := s.function.parameters ++ [r] } } where
  cells := ⟨fun n c hc => (later_addParameter info r).registerType? (h.cells.type n c hc),
    h.cells.distinct⟩
  placed := h.placed.mono fun _ _ hc => hc
  result := h.result

end Setting

/-- What the code in front of the statements leaves alone. -/
structure Builder.Opens (s s' : Builder) : Prop where
  grows : Grows s.function s'.function
  waits : ∀ {id t}, s.Waits id t → s'.Waits id t
  cells : s.function.CellsPlaced → s'.function.CellsPlaced
  scopes : s'.scopes.outer = s.scopes.outer
  head : s.function.SameHead s'.function

namespace Builder.Opens

variable {s s' s'' : Builder}

theorem refl (s : Builder) : s.Opens s := ⟨.refl _, fun h => h, fun h => h, rfl, rfl, rfl⟩

theorem trans (h : s.Opens s') (h' : s'.Opens s'') : s.Opens s'' :=
  ⟨h.grows.trans h'.grows, fun hw => h'.waits (h.waits hw), fun hc => h'.cells (h.cells hc),
    h'.scopes.trans h.scopes, h.head.trans h'.head⟩

theorem of_builds {α : Type} {step : Build α} {texts : List String} {a : α}
    (h : ∀ bound, Builds False outerView bound step texts) (hstep : step s = .ok a s') :
    s.Opens s' := by
  obtain ⟨hedits, hscopes, -⟩ := h 0 hstep (Nat.zero_le _)
  exact ⟨hedits.grows, fun hwaits => (h _).waits hstep hwaits, hedits.cellsPlaced, hscopes,
    hedits.head⟩

end Builder.Opens

namespace Setting

variable {X : Setting World} {symbols : Symbols} {globals known : Typing}
  {s s' s1 s2 : Builder} {t : Option Terminator} {x y : Position} {fs : State World}
  {st : Source.State World} {fuel : Nat} {u : Unit}

theorem opens_declareParameter {p : Parameter} (h : declareParameter p s = .ok u s') :
    s.Opens s' ∧ ∃ r, s'.function.parameters = s.function.parameters ++ [r] := by
  obtain ⟨r, cell, s1, s2, s3, rfl, hcreate, hstore, rfl⟩ := declareParameter_eq_ok h
  have hgrows := later_addParameter (s := s) { ty := .ofSource p.ty, name := some p.name } r
  have hadded : s.Opens { s with function := { s.function with
      registers := s.function.registers.push { ty := .ofSource p.ty, name := some p.name }
      parameters := s.function.parameters ++ [r] } } :=
    ⟨hgrows, fun h => h, fun hcells => ⟨fun n c hc => hgrows.registerType? (hcells.type n c hc),
      hcells.distinct⟩, rfl, rfl, rfl⟩
  have hopens2 := Builder.Opens.of_builds (fun _ => builds_createCell _ _) hcreate
  have hopens3 : s2.Opens s3 := .of_builds (fun _ => builds_emit _) hstore
  have hdecl : s3.Opens
      { s3 with scopes := s3.scopes.declare p.name (.cell cell) (.ofSource p.ty) } :=
    .of_builds (fun _ => builds_declare p.name (.cell cell) (.ofSource p.ty)) rfl
  refine ⟨hadded.trans (hopens2.trans (hopens3.trans hdecl)), r, ?_⟩
  have hlater2 := (builds_createCell _ _).later hcreate
  have hlater3 : s2.Later s3 := (builds_emit _).later hstore
  exact hlater3.edits.parameters.trans hlater2.edits.parameters

theorem opens_declareParameters {parameters : List Parameter}
    (h : parameters.forM declareParameter s = .ok u s') : s.Opens s' := by
  induction parameters generalizing s with
  | nil =>
    obtain ⟨-, rfl⟩ := EStateM.pure_eq_ok.mp h
    exact .refl _
  | cons p rest ih =>
    obtain ⟨_, s1, h1, hrest⟩ := EStateM.bind_eq_ok.mp h
    exact (opens_declareParameter h1).1.trans (ih hrest)

theorem goes_declareParameter (hX : X.Sound symbols globals) (hscalar : p.ty.isScalar = true)
    (h : declareParameter p s = .ok u s')
    (hparams : s'.function.parameters = s.function.parameters ++ [r]) (hr : fs.registers r = some w)
    (hadmits : p.ty.Admits w) (hready : X.Ready s) (hknows : X.Knows known s.scopes)
    (hstands : s.Stands t x) (hG : Grows s'.function X.function) (hagrees : X.Agrees s.scopes st fs)
    {frame : Source.Frame} {outer : List Source.Frame} (hframes : st.frames = frame :: outer) :
    ∃ y fs', X.Goes 0 x fs y fs' ∧ fs'.registers = fs.registers ∧
      X.Arrived (known.declare p.name p.ty) s' t
        { st with frames := frame.set p.name (some w) :: outer } y fs' := by
  obtain ⟨r', cell, s1, s2, s3, rfl, hcreate, hstore, rfl⟩ := declareParameter_eq_ok h
  obtain rfl : r' = r := by
    have hlater2 := (builds_createCell _ _).later hcreate
    have hlater3 : s2.Later s3 := (builds_emit _).later hstore
    have hsame := hlater3.edits.parameters.trans hlater2.edits.parameters
    simpa using List.append_cancel_left (hsame.symm.trans hparams)
  have hkept := Ty.isScalar_ofSource hscalar
  obtain ⟨y, fs', hgoes, hinit⟩ := goes_initialize hX hkept hcreate hstore
    (hready.addParameter _ r') hstands hG hagrees hr (Ty.admits_ofSource.mpr hadmits)
  obtain ⟨n, c, hc, rfl, hty, hread⟩ := hinit.cell
  have hspare : X.Spare s3.scopes c.register := hinit.scopes ▸ hinit.spare
  refine ⟨y, fs', hgoes, hinit.registers, hinit.stands, ?_, ?_, ?_⟩
  · rw [← hty]
    exact hinit.ready.declare hc hspare p.name
  · rw [hinit.scopes]
    exact hknows.declare p.name c.register p.ty
  · rw [← hty, hinit.scopes]
    refine hinit.agrees.declare (hG.cells n c hc) (hty ▸ hkept) (fun v hv => ?_) hframes p.name
    cases hv
    rw [hty]
    exact ⟨Ty.admits_ofSource.mpr hadmits, hread⟩

def setAll (frame : Source.Frame) (pairs : List (Parameter × Word)) : Source.Frame :=
  pairs.foldl (fun frame p => frame.set p.1.name (some p.2)) frame

theorem goes_declareParameters (hX : X.Sound symbols globals) {parameters : List Parameter}
    (hscalar : ∀ p ∈ parameters, p.ty.isScalar = true)
    (hadmits : List.Forall₂ (fun (p : Parameter) w => p.ty.Admits w) parameters arguments)
    (h : parameters.forM declareParameter s = .ok u s') :
    ∃ registers, s'.function.parameters = s.function.parameters ++ registers ∧
      registers.length = arguments.length ∧
      ∀ {known t x fs st frame outer}, X.Ready s → X.Knows known s.scopes → s.Stands t x →
        Grows s'.function X.function → X.Agrees s.scopes st fs → st.frames = frame :: outer →
        List.Forall₂ (fun r w => fs.registers r = some w) registers arguments →
        ∃ y fs', X.Goes 0 x fs y fs' ∧ fs'.registers = fs.registers ∧
          X.Arrived (parameters.foldl (fun known p => known.declare p.name p.ty) known) s' t
            { st with frames := setAll frame (parameters.zip arguments) :: outer } y fs' := by
  induction hadmits generalizing s with
  | nil =>
    obtain ⟨-, rfl⟩ := EStateM.pure_eq_ok.mp h
    refine ⟨[], by simp, rfl, ?_⟩
    intro known t x fs st frame outer hready hknows hstands _ hagrees hframes _
    refine ⟨x, fs, .refl, rfl, hstands, hready, hknows, ?_⟩
    rw [List.zip_nil_left, setAll, List.foldl_nil, ← hframes]
    exact hagrees
  | @cons p w parameters arguments hw _ ih =>
    obtain ⟨_, s1, h1, hrest⟩ := EStateM.bind_eq_ok.mp h
    obtain ⟨-, r, hr⟩ := opens_declareParameter h1
    have hopens := opens_declareParameters hrest
    obtain ⟨registers, hregs, hlen, hgoes⟩ := ih (fun p hp => hscalar p (.tail _ hp)) hrest
    refine ⟨r :: registers, by rw [hregs, hr]; simp, by simp [hlen], ?_⟩
    intro known t x fs st frame outer hready hknows hstands hG hagrees hframes hvalues
    obtain ⟨hvalue, hvalues⟩ := List.forall₂_cons.mp hvalues
    obtain ⟨y1, fs1, hgoes1, hkeeps1, harrived⟩ := goes_declareParameter hX
      (hscalar p (.head _)) h1 hr hvalue hw hready hknows hstands (hopens.grows.trans hG)
      hagrees hframes
    rw [← hkeeps1] at hvalues
    obtain ⟨y2, fs2, hgoes2, hkeeps2, harrived2⟩ := hgoes harrived.ready harrived.knows
      harrived.stands hG harrived.agrees rfl hvalues
    exact ⟨y2, fs2, hgoes1.trans hgoes2, hkeeps2.trans hkeeps1, harrived2⟩

theorem vars_withResult {scopes : List Scope} {frames : List Source.Frame}
    (h : List.Forall₂ (X.ScopeAgrees m) scopes frames) (result : Option RegisterId) :
    List.Forall₂ (ScopeAgrees { X with result } m) scopes frames := by
  refine h.imp fun scope frame hagrees name => ?_
  have hentry := hagrees name
  generalize scope.names[name]? = entry at hentry
  generalize frame name = value at hentry
  cases hentry with
  | absent => exact .absent
  | present n c v hc hscalar hvalue => exact .present n c v hc hscalar hvalue

theorem Initialized.withResult (h : X.Initialized s s' t r ty 0 st y fs fs')
    (hX : X.Sound symbols globals) (hG : Grows s'.function X.function) :
    Ready { X with result := some r } s' ∧ Agrees { X with result := some r } s'.scopes st fs' := by
  obtain ⟨n, c, hc, rfl, rfl, hread⟩ := h.cell
  refine ⟨⟨h.ready.cells, h.ready.placed, ?_⟩, ?_⟩
  · intro r hr
    cases hr
    rw [h.scopes]
    exact ⟨⟨n, c, hc, rfl⟩, h.spare.unused⟩
  · rw [h.scopes]
    refine ⟨⟨h.agrees.memory, h.agrees.world, h.agrees.calls⟩, h.agrees.cells, h.agrees.truth,
      vars_withResult h.agrees.vars _, ?_⟩
    intro m d hd hr
    obtain rfl := hX.placed.distinct m n d c hd (hG.cells n c hc) (Option.some.inj hr).symm
    obtain rfl := Option.some.inj (hd.symm.trans (hG.cells _ c hc))
    exact hread

variable {cell : Option RegisterId}

theorem goes_openReturnCell (hX : X.Sound symbols globals) (hresult : X.result = none)
    (hty : returnType.isScalar = true ∨ returnType = .void)
    (h : openReturnCell (.ofSource returnType) s = .ok cell s') (hready : X.Ready s)
    (hstands : s.Stands t x) (hG : Grows s'.function X.function)
    (hagrees : X.Agrees s.scopes st fs) :
    ∃ y fs', X.Goes 0 x fs y fs' ∧ s'.Stands t y ∧ fs'.registers = fs.registers ∧
      s'.scopes = s.scopes ∧ Ready { X with result := cell } s' ∧
      Agrees { X with result := cell } s'.scopes st fs' ∧
      Returns { X with result := cell } returnType := by
  rcases hty with hscalar | rfl
  · have hkept := Ty.isScalar_ofSource hscalar
    have hvoid : Ty.ofSource returnType ≠ .void := by
      rcases hkept with h | h <;> simp [h]
    rw [openReturnCell, if_neg hvoid] at h
    obtain ⟨r, s1, hcreate, _, hstore, rfl⟩ := EStateM.bind2_pure_eq_ok.mp h
    obtain ⟨y, fs', hgoes, hinit⟩ := goes_initialize hX hkept hcreate hstore hready hstands hG
      hagrees rfl hkept.admits_zero
    rw [hkept.bits_zero] at hinit
    obtain ⟨hready', hagrees'⟩ := hinit.withResult hX hG
    obtain ⟨n, c, hc, rfl, hcell, -⟩ := hinit.cell
    exact ⟨y, fs', hgoes, hinit.stands, hinit.registers, hinit.scopes, hready', hagrees',
      .inr ⟨hscalar, n, c, hG.cells n c hc, rfl, hcell⟩⟩
  · have hvoid : Ty.ofSource .void = .void := rfl
    rw [openReturnCell, if_pos hvoid] at h
    obtain ⟨rfl, rfl⟩ := EStateM.pure_eq_ok.mp h
    obtain ⟨E, p, f, result⟩ := X
    obtain rfl : result = none := hresult
    exact ⟨x, fs, .refl, hstands, rfl, rfl, hready, hagrees, .inl ⟨rfl, rfl⟩⟩

theorem get?_closeBody {returnType : Ty} (h : closeBody returnType cell s = .ok u s') {id : BlockId}
    (hne : id ≠ s.function.exit) : s'.function.blocks.get? id = s.function.blocks.get? id := by
  obtain ⟨s0, s1, hget, hrest⟩ := EStateM.bind_eq_ok.mp h
  obtain ⟨h0, h1⟩ := get_eq_ok hget
  rw [h0, h1] at hrest
  obtain ⟨_, s2, hswitch, hrest⟩ := EStateM.bind_eq_ok.mp hrest
  obtain ⟨hcur, -, hf⟩ := switchTo_eq_ok hswitch
  have hblocks : s2.function.blocks = s.function.blocks := by rw [hf]
  have hend : ∀ {s3 s4 : Builder} {term u}, terminate term s3 = .ok u s4 →
      s3.current = s.function.exit → s4.function.blocks.get? id = s3.function.blocks.get? id := by
    intro s3 s4 term u hterminate hcur
    obtain ⟨b, -, -, -, ⟨-, hf⟩ | ⟨-, hf⟩⟩ := terminate_eq_ok hterminate
    · rw [hf]
    · rw [hf, Table.get?_modify, if_neg (hcur ▸ Ne.symm hne)]
  cases cell with
  | none => rw [hend hrest hcur, hblocks]
  | some cell =>
    obtain ⟨o, s3, hload, hterminate⟩ := EStateM.bind_eq_ok.mp hrest
    obtain ⟨d, s4, hcreate, _, hemit, -⟩ := EStateM.bind2_pure_eq_ok.mp hload
    obtain ⟨-, rfl⟩ := createRegister_eq_ok hcreate
    obtain ⟨b, -, hcur5, -, ⟨-, hf5⟩ | ⟨-, hf5⟩⟩ := emit_eq_ok hemit
    · rw [hend hterminate (hcur5.trans hcur), hf5]
      exact congrArg (fun t => Table.get? t id) hblocks
    · rw [hend hterminate (hcur5.trans hcur), hf5, Table.get?_modify,
        if_neg (hcur ▸ Ne.symm hne)]
      exact congrArg (fun t => Table.get? t id) hblocks

theorem returns_closeBody (hX : X.Sound symbols globals) (hreturns : X.Returns returnType)
    (h : closeBody (.ofSource returnType) X.result s = .ok u s')
    (hwaits : s.Waits s.function.exit t) (hG : Grows s'.function X.function) {value : Option Word}
    (hseen : X.Seen st fs) (hgives : X.Gives fs value) :
    ∃ fs', (∀ count, X.proceed (count + 1) (.start X.function.exit) fs = .returned value fs') ∧
      X.Seen st fs' := by
  obtain ⟨s0, s1, hget, hrest⟩ := EStateM.bind_eq_ok.mp h
  obtain ⟨h0, h1⟩ := get_eq_ok hget
  rw [h0, h1] at hrest
  obtain ⟨_, s2, hswitch, hrest⟩ := EStateM.bind_eq_ok.mp hrest
  have hlater2 : s.Later s2 := (builds_switchTo (Nat.zero_le _)).later hswitch
  have hstands2 := stands_switchTo hswitch hwaits
  cases hresult : X.result with
  | none =>
    rw [hresult] at hrest
    have hlater3 : s2.Later s' := (builds_terminate _).later hrest
    have hgrows := hlater2.grows.trans (hlater3.grows.trans hG)
    have henter : X.Goes 1 (.start s.function.exit) fs (.inside s.function.exit 0) fs :=
      goes_enter hwaits hgrows
    obtain rfl : value = none := by
      cases value with
      | none => rfl
      | some w =>
        obtain ⟨n, c, -, hr, -⟩ := hgives
        simp [hresult] at hr
    refine ⟨fs, fun count => ?_, hseen⟩
    rw [hgrows.exit, henter count, stands_terminate hrest hstands2 hG]
    rfl
  | some cell =>
    rw [hresult] at hrest
    obtain ⟨hscalar, n, c, hc, hr, hcell⟩ : returnType.isScalar = true ∧ ∃ (n : Nat) (c : Cell),
        X.function.cells[n]? = some c ∧ X.result = some c.register ∧
          c.ty = .ofSource returnType := by
      rcases hreturns with ⟨-, hnone⟩ | hsome
      · simp [hresult] at hnone
      · exact hsome
    obtain rfl := Option.mem_unique hresult hr
    obtain ⟨o, s3, hload, hterminate⟩ := EStateM.bind_eq_ok.mp hrest
    obtain ⟨d, s4, hcreate, _, hemit, rfl⟩ := EStateM.bind2_pure_eq_ok.mp hload
    have hlater4 : s2.Later s4 := (builds_createRegister _ _).later hcreate
    have hlater5 : s4.Later s3 := (builds_emit _).later hemit
    have hlater6 : s3.Later s' := (builds_terminate _).later hterminate
    have hG5 := hlater6.grows.trans hG
    have hG4 := hlater5.grows.trans hG5
    have hgrows := hlater2.grows.trans (hlater4.grows.trans hG4)
    obtain ⟨hd, rfl⟩ := createRegister_eq_ok hcreate
    have hstands4 : Builder.Stands _ t (.inside s.function.exit 0) := hstands2
    obtain ⟨y, hstands5, hgoes, -⟩ := stands_emit hemit hstands4 hG5
    have henter : X.Goes 1 (.start s.function.exit) fs (.inside s.function.exit 0) fs :=
      goes_enter hwaits hgrows
    obtain ⟨w, rfl⟩ : ∃ w, value = some w := by
      cases value with
      | none =>
        have hnone : X.result = none := hgives
        simp [hresult] at hnone
      | some w => exact ⟨w, rfl⟩
    obtain ⟨m, c', hc', hr', haddr, hread⟩ := hgives
    have hsame : c'.register = c.register := Option.mem_unique hr' hresult
    obtain rfl := hX.placed.distinct m n c' c hc' hc hsame
    obtain rfl := Option.mem_unique hc hc'
    have htype : X.function.registerType? d = some (.ofSource returnType) := by
      refine hG4.registerType? ?_
      simp [Function.registerType?, Table.get?_push, hd]
    have hexec : (Instr.load d (.register c.register)).exec X.environment X.program X.function fs =
        .next (fs.load d (Ty.ofSource returnType).width (X.environment.cell m)) := by
      have haddr' : fs.value? X.environment (.register c.register) =
          some (X.environment.cell m) := haddr
      simp [Instr.exec, htype, (Ty.isScalar_ofSource hscalar).width?, haddr', Step.ofOption]
    refine ⟨fs.load d (Ty.ofSource returnType).width (X.environment.cell m), fun count => ?_,
      hseen.memory, hseen.world, hseen.calls⟩
    rw [hcell] at hread
    have hload : X.proceed count (.inside s.function.exit 0) fs = X.proceed count y _ :=
      hgoes fs _ hexec count
    rw [hgrows.exit, henter count, hload, stands_terminate hterminate hstands5 hG]
    simp [Terminator.exec, State.value?, State.load, State.assign, hread]

theorem openBlocks_eq_ok {name : String} {returnType : Ty}
    (hfun : s.function = { name, returnType }) (hscopes : s.scopes = {})
    (h : openBlocks s = .ok u s') :
    s'.Stands (some (.jump ⟨1⟩)) (.inside ⟨0⟩ 0) ∧ s'.Waits ⟨1⟩ none ∧
      s'.function.name = name ∧ s'.function.entry = ⟨0⟩ ∧ s'.function.exit = ⟨1⟩ ∧
      s'.function.cells = #[] ∧ s'.function.parameters = [] ∧ s'.scopes = ⟨[{}]⟩ := by
  obtain ⟨function, current, scopes, strings, nextLabel, log⟩ := s
  simp only at hfun hscopes
  subst hfun hscopes
  injection h with _ hs'
  subst hs'
  refine ⟨⟨_, rfl, rfl, rfl, rfl⟩, ⟨⟨_, rfl⟩, ?_⟩, rfl, rfl, rfl, rfl, rfl, rfl⟩
  exact fun h => absurd (Index.mk.inj h) Nat.zero_ne_one

theorem goes_fallOff (hstands : s.Stands (some (.jump s.function.exit)) x)
    (hwaits : s.Waits s.function.exit t) (h : closeBody ty cell s = .ok u s')
    (hcode : s'.function.SameCode X.function) : X.Goes 0 x fs (.start s.function.exit) fs := by
  obtain ⟨b, hb, -, ht, rfl⟩ := hstands
  have hb' := (get?_closeBody h hwaits.2).trans hb
  obtain ⟨g, hg, hsame⟩ := hcode.blocks _ _ hb'
  intro count
  have hend := proceed_terminator (s := fs) hg (hsame.terminator.trans ht) count
  rw [hsame.instrs] at hend
  exact hend

theorem agrees_start (hresult : X.result = none) (hgiven : X.function.given.Nodup)
    {memory : Memory} (htruth : X.environment.Truthful X.program memory) (arguments : List Word)
    (world : World) :
    X.Agrees ⟨[{}]⟩ { frames := [fun _ => none], memory, world, calls := [] }
      (X.function.start X.environment arguments memory world) := by
  have hstart : ∃ registers, X.function.start X.environment arguments memory world =
      { registers, memory, world, trace := [] } := by
    obtain ⟨_, h1⟩ := State.assignAll_eq { registers := fun _ => none, memory, world, trace := [] }
      (X.function.cellValues X.environment)
    obtain ⟨registers, h2⟩ := State.assignAll_eq _ (X.function.parameters.zip arguments)
    exact ⟨registers, by rw [Function.start, h2, h1]⟩
  have hcells := fun (n : Nat) c hc => Function.registers_start_cell X.environment memory world
    hgiven arguments (n := n) (c := c) hc
  obtain ⟨registers, hstart⟩ := hstart
  rw [hstart] at hcells ⊢
  refine ⟨⟨fun _ _ => rfl, rfl, rfl⟩, hcells, htruth, .cons (fun name => ?_) .nil, ?_⟩
  · simpa using VarAgrees.absent
  · simp [hresult]

end Setting

/-! ## Whole functions -/

/-- A run of a function does what an evaluation of its source comes to: it gives back
the same value after the same calls and leaves the same in memory, apart from the stack
cells, and it goes on where the evaluation does.  Where the evaluation has no meaning,
nothing is said. -/
def Function.RunsLike (g : Function) (E : Environment World) (p : Program) (arguments : List Word)
    (memory : Memory) (world : World) (fuel : Nat) : Source.Result World (Option Word) → Prop
  | .done value st => ∃ n s,
      (∀ count ≥ n, g.run E p arguments memory world count = .returned value s) ∧
        Setting.Seen ⟨E, p, g, none⟩ st s
  | .hung st => ∃ n s, (∀ count ≥ n, g.run E p arguments memory world count = .hung s) ∧
      Setting.Seen ⟨E, p, g, none⟩ st s
  | .outOfFuel st => ∃ n ≥ fuel, ∃ b s, g.run E p arguments memory world n = .at b s ∧
      Setting.Seen ⟨E, p, g, none⟩ st s
  | .undefined => True

namespace Setting

variable {X : Setting World} {symbols : Symbols} {globals known : Typing}
  {ctx : Context} {fuel : Nat}

theorem performs_lowerBody (hX : X.Sound symbols globals) (hctx : ctx.Fits X symbols)
    (hreturns : X.Returns returnType) (fuel : Nat) (callInitializer : Bool) (body : List Stmt)
    (h : Source.Stmt.areScalar symbols returnType false known body = true) :
    ∃ after, X.Performs fuel known after (ctx.lowerBody callInitializer body) (do
        if callInitializer then
          let _ ← Source.call X.environment Linkage.globalInitializer []
        Source.execStmts X.environment globals fuel body) := by
  obtain ⟨after, hbody⟩ : ∃ after, X.Performs fuel known after _ _ :=
    performs_lowerStmts hX hctx hreturns body h
  refine ⟨after, ?_⟩
  unfold Context.lowerBody
  cases callInitializer with
  | false => exact hbody
  | true =>
    have hcall : X.Follows known (fun _ _ => True) (callVoid Linkage.globalInitializer [])
        (do let _ ← Source.call X.environment Linkage.globalInitializer [])
          fun _ _ _ _ => True := by
      rw [← bind_pure (callVoid _ _)]
      refine Follows.bind ((follows_callVoid hX).mono (fun _ _ _ => .nil) fun _ _ _ _ h => h)
        fun _ _ => .pure fun _ _ h => h
    have hdeclares : X.Declares known known _ _ := .of_follows hcall
    simpa using hdeclares.andThen hbody

theorem Agrees.gives {f : FunctionDef} {st : Source.State World} (h : X.Agrees scopes st fs)
    (hreturns : X.Returns f.returnType) :
    X.Gives fs (if f.returnType = .void then none else some 0) := by
  rcases hreturns with ⟨hvoid, hresult⟩ | ⟨hscalar, n, c, hc, hresult, -⟩
  · rw [if_pos hvoid]
    exact hresult
  · rw [if_neg fun hvoid => by rw [hvoid] at hscalar; cases hscalar]
    exact ⟨n, c, hc, hresult, h.cells n c hc, h.result n c hc hresult⟩

theorem Ended.gives {scopes' : ScopeStack} {f : FunctionDef}
    {behind : Source.State World → Position → State World → Prop} {signal : Source.Signal}
    {st : Source.State World} {y : Position} (h : X.Ended scopes behind signal st y fs)
    (hloop : scopes.innermostLoop? = none) (hreturns : X.Returns f.returnType)
    (hbehind : ∀ st y fs, behind st y fs → X.Goes 0 y fs (.start X.function.exit) fs ∧
      X.Agrees scopes' st fs) :
    X.Goes 0 y fs (.start X.function.exit) fs ∧ X.Seen st fs ∧ X.Gives fs (f.result signal) := by
  cases h with
  | normal st y fs h =>
    obtain ⟨hgoes, hagrees⟩ := hbehind st y fs h
    exact ⟨hgoes, hagrees.toSeen, hagrees.gives hreturns⟩
  | leave st fs targets htargets => simp [hloop] at htargets
  | next st fs targets htargets => simp [hloop] at htargets
  | giveBack st fs value hseen hgives =>
    refine ⟨.refl, hseen, ?_⟩
    cases value with
    | some w => exact hgives
    | none =>
      rcases hreturns with ⟨hvoid, -⟩ | ⟨-, n, c, -, hresult, -⟩
      · simpa [Source.FunctionDef.result, hvoid] using hgives
      · rw [Gives, hresult] at hgives
        simp at hgives

theorem runsLike_of_leads {result : Option RegisterId} {memory : Memory} {world : World}
    {r : Source.Result World (Option Word)}
    (h : Leads ⟨E, p, g, result⟩ fuel (.start g.entry) (g.start E arguments memory world) r
      fun value st y fs => y = .start g.exit ∧ Seen ⟨E, p, g, result⟩ st fs ∧
      Gives ⟨E, p, g, result⟩ fs value)
    (hexit : ∀ value st fs, Seen ⟨E, p, g, result⟩ st fs → Gives ⟨E, p, g, result⟩ fs value →
      ∃ fs', (∀ count, proceed ⟨E, p, g, result⟩ (count + 1) (.start g.exit) fs =
      .returned value fs') ∧ Seen ⟨E, p, g, result⟩ st fs') :
    g.RunsLike E p arguments memory world fuel r := by
  cases r with
  | done value st =>
    obtain ⟨n, y, fs, hgoes, rfl, hseen, hgives⟩ := h
    obtain ⟨fs', hreturned, hseen'⟩ := hexit value st fs hseen hgives
    refine ⟨n + 1, fs', fun count hcount => ?_, hseen'.memory, hseen'.world, hseen'.calls⟩
    obtain ⟨k, rfl⟩ : ∃ k, count = k + 1 + n := ⟨count - (n + 1), by omega⟩
    exact (hgoes (k + 1)).trans (hreturned k)
  | hung st =>
    obtain ⟨n, fs, hhung, hseen⟩ := h
    refine ⟨n, fs, fun count hcount => ?_, hseen.memory, hseen.world, hseen.calls⟩
    obtain ⟨k, rfl⟩ : ∃ k, count = k + n := ⟨count - n, by omega⟩
    exact hhung k
  | outOfFuel st =>
    obtain ⟨n, hn, b, fs, hgoes, hseen⟩ := h
    refine ⟨n, hn, b, fs, ?_, hseen.memory, hseen.world, hseen.calls⟩
    have hrun := hgoes 0
    rw [Nat.zero_add] at hrun
    exact hrun
  | undefined => trivial

end Setting

theorem eval_eq (E : Environment World) (globals : Typing) (f : FunctionDef)
    (computeGlobals : Bool) (arguments : List Word) (memory : Memory) (world : World) (fuel : Nat) :
    f.eval E globals computeGlobals arguments memory world fuel = ((do
        if computeGlobals then
          let _ ← Source.call E Linkage.globalInitializer []
        Source.execStmts E globals fuel f.body) >>= fun signal => pure (f.result signal) :
          Source.Eval World (Option Word))
        { frames := [Setting.setAll (fun _ => none) (f.parameters.zip arguments)]
          memory, world, calls := [] } := by
  cases computeGlobals <;> simp [Source.FunctionDef.eval, Setting.setAll]

/-- How the body of a function was built, stage by stage. -/
structure Stages (ctx : Context) (f : FunctionDef) (callInitializer : Bool) (g : Function)
    where
  /-- The cell for the result -/
  cell : Option RegisterId
  /-- After the entry and the exit, the cell, the parameters, the statements and the
  end were built -/
  (opened prepared declared built closed : Builder)
  stands : opened.Stands (some (.jump ⟨1⟩)) (.inside ⟨0⟩ 0)
  waits : opened.Waits ⟨1⟩ none
  name : opened.function.name = f.name
  entry : opened.function.entry = ⟨0⟩
  exit : opened.function.exit = ⟨1⟩
  cells : opened.function.cells = #[]
  parameters : opened.function.parameters = []
  scopes : opened.scopes = ⟨[{}]⟩
  prepare : openReturnCell (.ofSource f.returnType) opened = .ok cell prepared
  declare : f.parameters.forM declareParameter prepared = .ok () declared
  build : Context.lowerBody { ctx with function := f.name, receiver := none, returnCell := cell }
    callInitializer f.body declared = .ok () built
  close : closeBody (.ofSource f.returnType) cell built = .ok () closed
  code : closed.function.SameCode g

theorem exists_stages (hfun : s.function = { name := f.name, returnType := .ofSource f.returnType })
    (hscopes : s.scopes = {})
    (h : buildBody ctx
      { name := f.name, returnType := .ofSource f.returnType, parameters := f.parameters }
      (fun ctx => ctx.lowerBody callInitializer f.body) s = .ok g s') :
    Nonempty (Stages ctx f callInitializer g) := by
  obtain ⟨_, s1, h1, receiver, s2, h2, hrest⟩ := EStateM.bind2_eq_ok.mp h
  obtain ⟨rfl, rfl⟩ := EStateM.pure_eq_ok.mp h2
  obtain ⟨cell, s3, h3, _, s4, h4, hrest⟩ := EStateM.bind2_eq_ok.mp hrest
  obtain ⟨_, s5, h5, _, s6, h6, h7⟩ := EStateM.bind2_eq_ok.mp hrest
  obtain ⟨hstands, hwaits, hname, hentry, hexit, hcells, hparams, hscopes⟩ :=
    Setting.openBlocks_eq_ok hfun hscopes h1
  exact ⟨{ cell, opened := s1, prepared := s3, declared := s4, built := s5, closed := s6
           stands := hstands, waits := hwaits, name := hname, entry := hentry, exit := hexit
           cells := hcells, parameters := hparams, scopes := hscopes, prepare := h3
           declare := h4, build := h5, close := h6, code := sameCode_of_finishBody h7 }⟩

namespace Stages

variable {ctx : Context} {f : FunctionDef} {callInitializer : Bool} {g : Function}
  (S : Stages ctx f callInitializer g)

theorem opens_prepared : S.opened.Opens S.prepared :=
  .of_builds (builds_openReturnCell _) S.prepare

theorem opens_declared : S.prepared.Opens S.declared := Setting.opens_declareParameters S.declare

theorem opens_built : S.declared.Opens S.built :=
  .of_builds (builds_lowerBody _ _ _) S.build

theorem opens : S.opened.Opens S.built :=
  S.opens_prepared.trans (S.opens_declared.trans S.opens_built)

theorem later_closed : S.built.Later S.closed := (builds_closeBody _ S.cell).later S.close

theorem grows_built : Grows S.built.function g := S.later_closed.grows.trans S.code.grows

theorem grows_declared : Grows S.declared.function g := S.opens_built.grows.trans S.grows_built

theorem grows_prepared : Grows S.prepared.function g :=
  S.opens_declared.grows.trans S.grows_declared

theorem head : S.opened.function.SameHead g :=
  S.opens.head.trans (S.later_closed.edits.head.trans S.code.head)

theorem exit_built : S.built.function.exit = ⟨1⟩ := S.opens.grows.exit.trans S.exit

theorem waits_built : S.built.Waits S.built.function.exit none := by
  rw [S.exit_built]
  exact S.opens.waits S.waits

theorem cellsPlaced_opened : S.opened.function.CellsPlaced := ⟨by simp [S.cells], by simp [S.cells]⟩

theorem cellsPlaced (S : Stages ctx f callInitializer g) : g.CellsPlaced :=
  S.code.cellsPlaced (S.later_closed.edits.cellsPlaced (S.opens.cells S.cellsPlaced_opened))

theorem innermostLoop?_declared : S.declared.scopes.innermostLoop? = none := by
  have houter := (S.opens_prepared.trans S.opens_declared).scopes
  rw [S.scopes] at houter
  exact congrArg Prod.snd houter

theorem parameters_eq {registers : List RegisterId}
    (h : S.declared.function.parameters = S.prepared.function.parameters ++ registers) :
    g.parameters = registers := by
  have hprepared := (builds_openReturnCell (P := False) _ 0 S.prepare (Nat.zero_le _)).1.parameters
  have hbuilt := (builds_lowerBody (P := False) _ _ _ 0 S.build (Nat.zero_le _)).1.parameters
  calc g.parameters = S.closed.function.parameters := S.code.parameters
    _ = S.built.function.parameters := S.later_closed.edits.parameters
    _ = S.declared.function.parameters := hbuilt
    _ = S.prepared.function.parameters ++ registers := h
    _ = S.opened.function.parameters ++ registers := congrArg (· ++ registers) hprepared
    _ = registers := by rw [S.parameters, List.nil_append]

variable {E : Environment World} {p : Program} {symbols : Symbols} {globals : Typing}

theorem ready_opened : Setting.Ready ⟨E, p, g, none⟩ S.opened := by
  refine ⟨S.cellsPlaced_opened, ?_, by simp⟩
  rw [S.scopes]
  refine ⟨?_, ?_, List.pairwise_singleton _ _⟩ <;>
    · intro scope hscope
      obtain rfl := List.mem_singleton.mp hscope
      simp

theorem knows_globals (hscopes : scopes = ⟨[{}]⟩)
    (htypes : Setting.KnowsGlobals ⟨E, p, g, none⟩ globals) :
    Setting.Knows ⟨E, p, g, S.cell⟩ globals scopes := by
  intro name ty hname _
  have hglobal := htypes name
  rw [hname] at hglobal
  obtain ⟨global, hfound, hty⟩ := Option.map_eq_some_iff.mp hglobal
  rw [← hty, hscopes]
  exact ⟨_, .global global (by simp [ScopeStack.resolve?]) hfound⟩

theorem goes_enter : Setting.Goes ⟨E, p, g, S.cell⟩ 1 (.start g.entry) fs (.inside ⟨0⟩ 0) fs := by
  obtain ⟨b, hb, -, -, hinside⟩ := S.stands
  obtain ⟨b', hb', -⟩ := (S.opens_prepared.grows.trans S.grows_prepared).blocks _ _ hb
  have hcur : S.opened.current = ⟨0⟩ := (Position.inside.inj hinside).1.symm
  rw [S.head.entry, S.entry, ← hcur]
  exact Setting.goes_start hb'

theorem goes_behind {after : Typing}
    (h : Setting.Arrived ⟨E, p, g, S.cell⟩ after S.built (some (.jump ⟨1⟩)) st y fs) :
    Setting.Goes ⟨E, p, g, S.cell⟩ 0 y fs (.start g.exit) fs ∧
      Setting.Agrees ⟨E, p, g, S.cell⟩ S.built.scopes st fs := by
  have hfall : Setting.Goes ⟨E, p, g, S.cell⟩ 0 y fs (.start S.built.function.exit) fs :=
    Setting.goes_fallOff (S.exit_built ▸ h.stands) S.waits_built S.close S.code
  rw [← S.grows_built.exit] at hfall
  exact ⟨hfall, h.agrees⟩

theorem exists_goes_declared
    (htypes : Setting.KnowsGlobals ⟨E, p, g, none⟩ globals) (hshelters : E.Shelters symbols p g)
    (hgiven : g.given.Nodup) (hreturnType : f.returnType.isScalar = true ∨ f.returnType = .void)
    (hparams : ∀ p ∈ f.parameters, p.ty.isScalar = true)
    (hadmits : List.Forall₂ (fun (p : Parameter) w => p.ty.Admits w) f.parameters arguments)
    {memory : Memory} (htruth : E.Truthful p memory) (world : World) :
    Setting.Returns ⟨E, p, g, S.cell⟩ f.returnType ∧ ∃ y fs,
      Setting.Goes ⟨E, p, g, S.cell⟩ 1 (.start g.entry) (g.start E arguments memory world) y fs ∧
      Setting.Arrived ⟨E, p, g, S.cell⟩ (f.typing globals) S.declared (some (.jump ⟨1⟩))
        { frames := [Setting.setAll (fun _ => none) (f.parameters.zip arguments)]
          memory, world, calls := [] } y fs := by
  have hX0 : Setting.Sound ⟨E, p, g, none⟩ symbols globals := ⟨hshelters, S.cellsPlaced, htypes⟩
  have hX : Setting.Sound ⟨E, p, g, S.cell⟩ symbols globals := ⟨hshelters, S.cellsPlaced, htypes⟩
  have hagrees := Setting.agrees_start (X := ⟨E, p, g, none⟩) rfl hgiven htruth arguments world
  rw [← S.scopes] at hagrees
  obtain ⟨y1, fs1, hgoes1, hstands1, hregs1, hscopes1, hready1, hagrees1, hreturns⟩ :=
    Setting.goes_openReturnCell hX0 rfl hreturnType S.prepare S.ready_opened S.stands
      S.grows_prepared hagrees
  have hknows1 := S.knows_globals (hscopes1.trans S.scopes) htypes
  obtain ⟨registers, hregs, hlen, hgoes⟩ :=
    Setting.goes_declareParameters hX hparams hadmits S.declare
  have hgparameters := S.parameters_eq hregs
  have hvalues : List.Forall₂ (fun r w => fs1.registers r = some w) registers arguments := by
    rw [hregs1, ← hgparameters]
    exact Function.registers_start_parameters E memory world hgiven (hgparameters ▸ hlen)
  obtain ⟨y2, fs2, hgoes2, -, harrived2⟩ :=
    hgoes hready1 hknows1 hstands1 S.grows_declared hagrees1 rfl hvalues
  have hcell : Setting.Goes ⟨E, p, g, S.cell⟩ 0 (.inside ⟨0⟩ 0) (g.start E arguments memory world)
      y1 fs1 := hgoes1
  exact ⟨hreturns, y2, fs2, S.goes_enter.trans (hcell.trans hgoes2), harrived2⟩

theorem runsLike (S : Stages ctx f callInitializer g) (hsyms : ctx.symbols = symbols)
    (hglobals : ctx.globals = p.globals)
    (hgiven : g.given.Nodup) (hscalar : f.isScalar symbols globals = true)
    (htypes : Setting.KnowsGlobals ⟨E, p, g, none⟩ globals) (hshelters : E.Shelters symbols p g)
    (hadmits : List.Forall₂ (fun (p : Parameter) w => p.ty.Admits w) f.parameters arguments)
    {memory : Memory} (htruth : E.Truthful p memory) (world : World) (fuel : Nat) :
    g.RunsLike E p arguments memory world fuel
      (f.eval E globals callInitializer arguments memory world fuel) := by
  simp only [Source.FunctionDef.isScalar, Bool.and_eq_true, Bool.or_eq_true, List.all_eq_true,
    decide_eq_true_eq] at hscalar
  obtain ⟨⟨hreturnType, hparams⟩, hbody⟩ := hscalar
  obtain ⟨hreturns, y, fs, hgoes, harrived⟩ := S.exists_goes_declared htypes hshelters hgiven
    hreturnType hparams hadmits htruth world
  have hX : Setting.Sound ⟨E, p, g, S.cell⟩ symbols globals := ⟨hshelters, S.cellsPlaced, htypes⟩
  have hfits : Context.Fits { ctx with function := f.name, receiver := none, returnCell := S.cell }
      (⟨E, p, g, S.cell⟩ : Setting World) symbols := ⟨hsyms, hglobals, rfl, rfl⟩
  obtain ⟨after, hperforms⟩ :=
    Setting.performs_lowerBody hX hfits hreturns fuel callInitializer f.body hbody
  have hleads := hperforms.leads S.build harrived.ready harrived.knows harrived.stands
    S.grows_built harrived.agrees
  rw [eval_eq]
  refine Setting.runsLike_of_leads (.prepend hgoes (hleads.bind ?_)) fun value st fs hseen hgives =>
    Setting.returns_closeBody hX hreturns S.close S.waits_built S.code.grows hseen hgives
  intro signal st y fs _ hended
  obtain ⟨hexit, hseen, hgives⟩ := hended.gives S.innermostLoop?_declared hreturns
    fun st y fs => S.goes_behind
  exact ⟨0, _, fs, hexit, rfl, hseen, hgives⟩

end Stages

end

end MxStar.Flow
