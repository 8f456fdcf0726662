import MxStar.Proofs.Flow.LoweredExpr
import MxStar.Proofs.Flow.Performing

/-!
# The code of a statement executes it

Each form of statement of the scalar language has a rule, and `performs_lowerStmt`
puts the rules together by induction over the statement.

A declaration is where the two sides differ most: the source adds a variable to the
innermost frame, while the code only starts to use the cell that was created for it.
A `return` is the one statement after which the cell for the result does not hold
zero any more.
-/

namespace MxStar.Flow

open Build
open Source (Typing Expr Declarator Stmt)

/-- A declaration uses its own cell and no other new one. -/
theorem ScopeStack.uses_of_declare {scopes : ScopeStack}
    (hscope : scope ∈ (scopes.declare name (.cell r) ty).scopes) (huses : scope.Uses r') :
    r' = r ∨ ∃ scope ∈ scopes.scopes, scope.Uses r' := by
  obtain ⟨other, ty', hother⟩ := huses
  rcases scopes with ⟨_ | ⟨first, outer⟩⟩
  · obtain rfl := List.mem_singleton.mp hscope
    simp only [Std.ExtTreeMap.getElem?_insert, Std.compare_eq_iff_eq] at hother
    split at hother
    · obtain ⟨hr, -⟩ := Prod.mk.inj (Option.some.inj hother)
      exact .inl (Storage.cell.inj hr).symm
    · simp at hother
  · rcases List.mem_cons.mp hscope with rfl | hscope
    · rw [Scope.getElem?_insert] at hother
      split at hother
      · obtain ⟨hr, -⟩ := Prod.mk.inj (Option.some.inj hother)
        exact .inl (Storage.cell.inj hr).symm
      · exact .inr ⟨first, .head _, other, ty', hother⟩
    · exact .inr ⟨scope, .tail _ hscope, other, ty', hother⟩

section

variable {World β : Type}

namespace Setting

variable {X : Setting World} {symbols : Source.Symbols} {globals known after : Typing}
  {ctx : Context} {s s' : Builder} {t : Option Terminator} {x : Position} {fs : State World}
  {fuel : Nat}

/-! ## Declarations -/

/-- A spare cell may be declared. -/
theorem Ready.declare (h : X.Ready s) {n : Nat} {c : Cell} (hc : s.function.cells[n]? = some c)
    (hspare : X.Spare s.scopes c.register) (name : String) :
    X.Ready { s with scopes := s.scopes.declare name (.cell c.register) c.ty } where
  cells := h.cells
  placed := h.placed.declare hc hspare.unused name
  result := by
    intro r hr
    obtain ⟨hcell, hunused⟩ := h.result r hr
    refine ⟨hcell, fun scope hscope huses => ?_⟩
    rcases ScopeStack.uses_of_declare hscope huses with rfl | ⟨scope', hscope', huses'⟩
    · exact hspare.result hr
    · exact hunused scope' hscope' huses'

/-- The declared name is known with its type. -/
theorem Knows.declare {scopes : ScopeStack} (h : X.Knows known scopes) (name : String)
    (r : RegisterId) (ty : Source.Ty) :
    X.Knows (known.declare name ty) (scopes.declare name (.cell r) (.ofSource ty)) := by
  intro other ty' hother hscalar
  have hresolve := scopes.resolve?_declare name other (.cell r) (.ofSource ty)
  simp only [Source.Typing.declare] at hother
  by_cases heq : other = name
  · rw [if_pos heq] at hother
    rw [if_pos heq.symm] at hresolve
    obtain rfl := Option.some.inj hother
    exact ⟨_, .var r _ hresolve⟩
  · rw [if_neg heq] at hother
    rw [if_neg (Ne.symm heq)] at hresolve
    obtain ⟨address, hnames⟩ := h other ty' hother hscalar
    refine ⟨address, ?_⟩
    generalize Ty.ofSource ty' = ty1 at hnames
    cases hnames with
    | var r' ty1 hvar => exact .var r' ty1 (hresolve.trans hvar)
    | global g hnone hg => exact .global g (hresolve.trans hnone) hg

/-- An own cell is a cell of the finished function. -/
theorem OwnCell.cell (h : X.OwnCell r ty s fs) (hG : Grows s.function X.function) :
    ∃ (n : Nat) (c : Cell), s.function.cells[n]? = some c ∧ X.function.cells[n]? = some c ∧
      c.register = r ∧ c.ty = ty := by
  obtain ⟨-, hlt, n, c, hc, rfl, rfl⟩ := h
  rcases hG.newCells n c hc with hold | hnew
  · exact ⟨n, c, hold, hc, rfl, rfl⟩
  · exact absurd hlt (Nat.not_lt.mpr hnew)

variable {ty : Source.Ty} {e : Expr}

/-- A name is declared for the cell that a step has filled. -/
theorem declares_declare (hX : X.Sound symbols globals) (hscalar : ty.isScalar = true)
    {step : Build RegisterId} {ev : Source.Eval World β} {value : β → Option Word}
    (h : X.Follows known (fun _ _ => True) step ev fun s fs r b =>
      X.OwnCell r (.ofSource ty) s fs ∧ ∀ w, value b = some w → X.CellHolds r ty fs w)
    (name : String) :
    X.Declares known (known.declare name ty) (do
        let r ← step
        modifyScopes (·.declare name (.cell r) (.ofSource ty)))
      (do Source.Eval.declare name (value (← ev))) := by
  refine ⟨fun bound => .bind (h.builds bound).outer fun _ _ => builds_declare _ _ _, ?_⟩
  intro s u s' t x fs st fuel hstep hready hknows hstands hG hagrees
  obtain ⟨r, s1, h1, hmodify⟩ := EStateM.bind_eq_ok.mp hstep
  obtain rfl := modifyScopes_eq_ok hmodify
  have hlater := (h.builds 0).later h1
  refine (h.leads h1 hready hknows hstands hG hagrees trivial).bind ?_
  rintro b st1 y fs1 - ⟨hreached, hown, hvalue⟩
  obtain ⟨n, c, hc, hcX, rfl, hty⟩ := hown.cell hG
  simp only [Source.Eval.declare]
  cases hframes : st1.frames with
  | nil => exact trivial
  | cons frame outer =>
    rw [← hty]
    refine .done ⟨hreached.stands, (hready.later hlater).declare hc hown.1 name, ?_, ?_⟩
    · rw [hty, hlater.scopes]
      exact hknows.declare name c.register ty
    · refine hreached.agrees.declare hcX (hty ▸ Ty.isScalar_ofSource hscalar) (fun w hw => ?_)
        hframes name
      obtain ⟨hadmits, m, d, hd, hr, hty', hread⟩ := hvalue w hw
      obtain rfl := hX.placed.distinct m n d c hd hcX hr
      exact ⟨hty ▸ Ty.admits_ofSource.mpr hadmits, hty ▸ hread⟩

/-- One name of a declaration, with or without an initial value. -/
theorem declares_declarator (hX : X.Sound symbols globals) (hctx : ctx.Fits X symbols)
    (hscalar : ty.isScalar = true) (d : Declarator)
    (hinitial : ∀ e ∈ d.initial, e.isScalar symbols known = true ∧ e.ty = ty) :
    X.Declares known (known.declare d.name ty) (do
        let cell ← createCell (.ofSource ty) (some d.name)
        if let some initial := d.initial then
          store (← ctx.lowerStored initial) (.register cell)
        modifyScopes (·.declare d.name (.cell cell) (.ofSource ty)))
      (match d.initial with
        | some e => do
          Source.Eval.declare d.name (some (← Source.evalValue X.environment globals e))
        | none => Source.Eval.declare d.name none) := by
  cases hd : d.initial with
  | none =>
    have hcell : X.Follows known (fun _ _ => True) (createCell (.ofSource ty) (some d.name))
        (pure ()) fun s fs r _ => X.OwnCell r (.ofSource ty) s fs ∧
          ∀ w, none = some w → X.CellHolds r ty fs w :=
      (follows_createCell _ _).mono (fun _ _ h => h) fun s fs r _ h => ⟨h, by simp⟩
    have hdeclares := declares_declare hX hscalar hcell d.name
    simpa using hdeclares
  | some e =>
    obtain ⟨he, hty⟩ := hinitial e hd
    have hvalue : X.Follows known (fun _ _ => True) (do
          let cell ← createCell (.ofSource ty) (some d.name)
          store (← ctx.lowerStored e) (.register cell)
          return cell)
        (Source.evalValue X.environment globals e)
        fun s fs r w => X.OwnCell r (.ofSource ty) s fs ∧
          ∀ w', some w = some w' → X.CellHolds r ty fs w' := by
      refine (follows_createCell _ _).andThen fun cell => ?_
      have hcell := X.stable_ownCell cell (.ofSource ty)
      have hexpr := follows_lowerExpr hX hctx e he
      rw [hty] at hexpr
      have hstored : X.Follows known (fun _ _ => True) (ctx.lowerStored e)
          (Source.evalValue X.environment globals e) (X.HoldsTyped ty) :=
        hexpr.bind fun _ _ => follows_toStorage hX hscalar e
      refine (hstored.keep hcell fun _ _ _ => trivial).adapt fun o w => ?_
      have hboth := (X.stable_holdsTyped ty o w).and hcell
      refine ((follows_storeCell hX hscalar).keep hboth fun _ _ h => h).andThen fun _ => ?_
      refine .pure fun s fs h => ⟨h.2.2, fun w' hw' => ?_⟩
      obtain rfl := Option.some.inj hw'
      exact h.1
    have hdeclares := declares_declare hX hscalar hvalue d.name
    simpa using hdeclares

theorem execDeclarators_cons (E : Environment World) (d : Declarator) (rest : List Declarator) :
    Source.execDeclarators E globals (d :: rest) = (do
      (match d.initial with
        | some e => do Source.Eval.declare d.name (some (← Source.evalValue E globals e))
        | none => Source.Eval.declare d.name none)
      Source.execDeclarators E globals rest) := by
  cases hd : d.initial <;> simp [Source.execDeclarators, hd]

section

variable (hX : X.Sound symbols globals) (hctx : ctx.Fits X symbols)
include hX hctx

/-- The names of a declaration, one after the other. -/
theorem declares_declarators (declarators : List Declarator)
    (h : Source.declarationTyping symbols known ty declarators = some after) :
    X.Declares known after (declarators.forM fun d => do
        let cell ← createCell (.ofSource ty) (some d.name)
        if let some initial := d.initial then
          store (← ctx.lowerStored initial) (.register cell)
        modifyScopes (·.declare d.name (.cell cell) (.ofSource ty)))
      (Source.execDeclarators X.environment globals declarators) := by
  induction declarators generalizing known with
  | nil =>
    obtain rfl : known = after := by simpa [Source.declarationTyping] using h
    refine ⟨fun _ => .pure trivial, ?_⟩
    intro s u s' t x fs st fuel hstep hready hknows hstands _ hagrees
    obtain ⟨-, rfl⟩ := EStateM.pure_eq_ok.mp hstep
    exact .done ⟨hstands, hready, hknows, hagrees⟩
  | cons d rest ih =>
    simp only [Source.declarationTyping] at h
    split at h
    · rename_i hd
      simp only [Bool.and_eq_true, Option.all_eq_true, decide_eq_true_eq] at hd
      rw [execDeclarators_cons]
      exact (declares_declarator hX hctx hd.1 d hd.2).seq (ih h)
    · simp at h

theorem declares_declareLocals (vars : Source.VariableDef)
    (h : Source.declarationTyping symbols known vars.ty vars.declarators = some after) :
    X.Declares known after (ctx.declareLocals vars)
      (Source.execDeclarators X.environment globals vars.declarators) :=
  declares_declarators hX hctx vars.declarators h

/-- An expression that is evaluated for its effect. -/
theorem follows_runExpr (h : e.isScalar symbols known = true) :
    X.Follows known (fun _ _ => True) (ctx.runExpr e)
      (do let _ ← Source.evalExpr X.environment globals e) fun _ _ _ _ => True := by
  have hexpr := (follows_lowerExpr hX hctx e h).mono (fun _ _ h => h) fun _ _ _ _ _ => trivial
  exact Follows.map hexpr

/-- The first part of a `for` may declare names. -/
theorem declares_lowerStart (start : Option Source.ForStart)
    (h : Source.startTyping symbols known start = some after) :
    X.Declares known after (ctx.lowerStart start)
      (Source.execStart X.environment globals start) := by
  cases start with
  | none =>
    obtain rfl : known = after := by simpa [Source.startTyping] using h
    exact .of_follows (.pure fun _ _ _ => trivial)
  | some start =>
    cases start with
    | declare vars => exact declares_declareLocals hX hctx vars h
    | evaluate e =>
      simp only [Source.startTyping] at h
      split at h
      · obtain rfl := Option.some.inj h
        exact .of_follows (follows_runExpr hX hctx ‹_›)
      · simp at h

end

/-! ## Jumps -/

/-- The result has a cell of the return type, unless that is `void`. -/
def Returns (X : Setting World) (ty : Source.Ty) : Prop :=
  ty = .void ∧ X.result = none ∨ ty.isScalar = true ∧ ∃ (n : Nat) (c : Cell),
    X.function.cells[n]? = some c ∧ X.result = some c.register ∧ c.ty = .ofSource ty

/-- A jump to the exit changes nothing. -/
theorem goes_exit (h : (do jump (← get).function.exit : Build Unit) s = .ok u s')
    (hstands : s.Stands t x) (hG : Grows s'.function X.function) :
    X.Goes 0 x fs (.start X.function.exit) fs := by
  obtain ⟨s0, s1, hget, hjump⟩ := EStateM.bind_eq_ok.mp h
  obtain ⟨h0, h1⟩ := get_eq_ok hget
  rw [h0, h1] at hjump
  have hgrows : Grows s.function s'.function :=
    Builds.grows (builds_jump _ : Builds False outerView _ _ _) hjump
  rw [(hgrows.trans hG).exit]
  exact goes_jump hjump hstands hG

section

variable (hX : X.Sound symbols globals)
include hX

theorem follows_lowerStored (hctx : ctx.Fits X symbols) (h : e.isScalar symbols known = true)
    (hscalar : e.ty.isScalar = true) :
    X.Follows known (fun _ _ => True) (ctx.lowerStored e)
      (Source.evalValue X.environment globals e) (X.HoldsTyped e.ty) :=
  (follows_lowerExpr hX hctx e h).bind fun _ _ => follows_toStorage hX hscalar e

/-- The result is stored before the jump to the exit. -/
theorem leads_storeResult (hscalar : ty.isScalar = true) {n : Nat} {c : Cell}
    (hc : X.function.cells[n]? = some c) (hresult : X.result = some c.register)
    (hty : c.ty = .ofSource ty) {st : Source.State World} {o : Operand} {w : Word} {u : Unit}
    (h : (do store o (.register c.register); jump (← get).function.exit : Build Unit) s = .ok u s')
    (hstands : s.Stands t x) (hG : Grows s'.function X.function) (hagrees : X.Agrees s.scopes st fs)
    (hholds : X.HoldsTyped ty s fs o w) :
    ∃ m fs', X.Goes m x fs (.start X.function.exit) fs' ∧ X.Seen st fs' ∧ X.Gives fs' (some w) := by
  obtain ⟨_, s1, hstore, hjump⟩ := EStateM.bind_eq_ok.mp h
  have hkept := Ty.isScalar_ofSource hscalar
  rw [← hty] at hkept
  have hbuilds : Builds False outerView s1.function.blocks.size
      (do jump (← get).function.exit) := .bind .get fun _ _ => builds_jump _
  obtain ⟨y, hstands1, hgoes, -⟩ := stands_emit hstore hstands ((hbuilds.grows hjump).trans hG)
  have hstep := hgoes fs _ (exec_storeCell hX.placed hagrees hc hkept hholds.1.value)
  refine ⟨0, _, hstep.trans (goes_exit hjump hstands1 hG), hagrees.toSeen.store_cell hc w, n, c, hc,
    hresult, hagrees.cells n c hc, ?_⟩
  refine hkept.read_write _ _ ?_
  rw [hty]
  exact Ty.admits_ofSource.mpr hholds.2

/-- **A return** gives back its value and leaves the function. -/
theorem performs_lowerReturn (hctx : ctx.Fits X symbols) (hreturns : X.Returns returnType)
    (value : Option Expr) {inLoop : Bool}
    (h : (Source.Stmt.giveBack value).typing symbols returnType inLoop known = some after) :
    X.Performs fuel known after (ctx.lowerReturn value)
      (Source.execStmt X.environment globals fuel (.giveBack value)) := by
  refine ⟨fun bound => (builds_lowerReturn ctx value).unnamed, ?_⟩
  intro s u s' t x fs st hstep hready hknows hstands hG hagrees
  cases value with
  | none =>
    have hvoid : returnType = .void := by
      simp only [Source.Stmt.typing] at h
      split at h
      · assumption
      · simp at h
    have hnone : X.result = none := by
      rcases hreturns with ⟨-, hnone⟩ | ⟨hscalar, -⟩
      · exact hnone
      · exact absurd hvoid (ne_void_of_isScalar hscalar)
    rw [Source.execStmt]
    exact ⟨0, _, fs, goes_exit hstep hstands hG, .giveBack _ _ none hagrees.toSeen hnone⟩
  | some e =>
    obtain ⟨he, hty⟩ : e.isScalar symbols known = true ∧ e.ty = returnType := by
      simp only [Source.Stmt.typing] at h
      split at h
      · rename_i hparts
        simpa using hparts
      · simp at h
    simp only [Context.lowerReturn] at hstep
    rw [Source.execStmt]
    rcases hreturns with ⟨rfl, hnone⟩ | ⟨hscalar, n, c, hc, hresult, hcell⟩
    · rw [if_pos (isVoid_iff.mpr hty)] at hstep
      rw [if_pos hty]
      obtain ⟨_, s1, h1, hjump⟩ := EStateM.bind_eq_ok.mp hstep
      have hbuilds : Builds False outerView s1.function.blocks.size
          (do jump (← get).function.exit) := .bind .get fun _ _ => builds_jump _
      have hrun := (follows_lowerExpr hX hctx e he)
      obtain ⟨lowered, h1, -⟩ := EStateM.map_eq_ok.mp h1
      refine (hrun.leads h1 hready hknows hstands ((hbuilds.grows hjump).trans hG) hagrees
        trivial).bind ?_
      rintro answer st1 y fs1 - ⟨hreached, -⟩
      exact ⟨0, _, fs1, goes_exit hjump hreached.stands hG,
        .giveBack _ _ none hreached.agrees.toSeen hnone⟩
    · rw [← hty] at hscalar hcell
      have hvoid := ne_void_of_isScalar hscalar
      rw [if_neg (by simp [isVoid_iff, hvoid]), hctx.returnCell, hresult] at hstep
      rw [if_neg hvoid]
      obtain ⟨o, s1, h1, hstore⟩ := EStateM.bind_eq_ok.mp hstep
      have hbuilds : Builds False outerView s1.function.blocks.size
          (do store o (.register c.register); jump (← get).function.exit) :=
        .bind (builds_emit _) fun _ _ => .bind .get fun _ _ => builds_jump _
      refine ((follows_lowerStored hX hctx he hscalar).leads h1 hready hknows hstands
        ((hbuilds.grows hstore).trans hG) hagrees trivial).bind ?_
      rintro w st1 y fs1 - ⟨hreached, hholds⟩
      obtain ⟨m, fs2, hgoes, hseen, hgives⟩ := leads_storeResult hX hscalar hc hresult hcell hstore
        hreached.stands hG hreached.agrees hholds
      exact ⟨m, _, fs2, hgoes, .giveBack _ _ (some w) hseen hgives⟩

end

/-- `break` and `continue` jump to a target of the innermost loop. -/
theorem performs_loopJump {target : LoopTargets → BlockId}
    (hended : ∀ scopes st fs targets behind, scopes.innermostLoop? = some targets →
      X.Agrees scopes.pop { st with frames := st.frames.tail } fs →
      X.Ended scopes behind signal st (.start (target targets)) fs) :
    X.Performs fuel known known (do jump (target (← ctx.loopTargets statement))) (pure signal) := by
  refine ⟨fun bound => .bind (builds_loopTargets ctx _) fun _ _ => builds_jump _, ?_⟩
  intro s u s' t x fs st hstep hready hknows hstands hG hagrees
  obtain ⟨targets, s1, htargets, hjump⟩ := EStateM.bind_eq_ok.mp hstep
  obtain ⟨s0, s2, hget, hmatch⟩ := EStateM.bind_eq_ok.mp htargets
  obtain ⟨h0, h2⟩ := get_eq_ok hget
  rw [h0, h2] at hmatch
  cases hfound : s.scopes.innermostLoop? with
  | some found =>
    simp only [hfound] at hmatch
    obtain ⟨rfl, rfl⟩ := EStateM.pure_eq_ok.mp hmatch
    exact ⟨0, _, fs, goes_jump hjump hstands hG, hended _ _ _ _ _ hfound hagrees.pop⟩
  | none =>
    simp only [hfound] at hmatch
    exact absurd hmatch EStateM.throw_ne_ok

/-! ## All statements -/

theorem follows_lowerCondition (hX : X.Sound symbols globals) (hctx : ctx.Fits X symbols)
    (h : e.isCondition symbols known = true) :
    X.Follows known (fun _ _ => True) (ctx.lowerCondition e)
      (Source.evalValue X.environment globals e) (X.HoldsTyped .bool) := by
  simp only [Source.Expr.isCondition, Bool.and_eq_true, decide_eq_true_eq] at h
  have hexpr := follows_lowerExpr hX hctx e h.1
  rw [h.2] at hexpr
  exact hexpr.bind fun _ _ => follows_toCondition hX e

mutual

/-- **The code of a statement executes it**, however often its loops go around. -/
theorem performs_lowerStmt (hX : X.Sound symbols globals) (hctx : ctx.Fits X symbols)
    (hreturns : X.Returns returnType) {known after : Typing} (stmt : Stmt)
    (h : stmt.typing symbols returnType inLoop known = some after) :
    X.Performs fuel known after (ctx.lowerStmt stmt)
      (Source.execStmt X.environment globals fuel stmt) := by
  cases stmt with
  | block body =>
    simp only [Source.Stmt.typing] at h
    split at h
    · rename_i hbody
      obtain rfl := Option.some.inj h
      obtain ⟨inner, hperforms⟩ := performs_lowerStmts hX hctx hreturns body hbody
      rw [Context.lowerStmt, Source.execStmt]
      exact hperforms.inScope
    · simp at h
  | declare vars =>
    rw [Context.lowerStmt, Source.execStmt]
    exact (declares_declareLocals hX hctx vars (by simpa [Source.Stmt.typing] using h)).performs
  | ifElse condition positive negative =>
    simp only [Source.Stmt.typing] at h
    split at h
    · rename_i hparts
      simp only [Bool.and_eq_true] at hparts
      obtain rfl := Option.some.inj h
      obtain ⟨_, hpositive⟩ := performs_lowerStmts hX hctx hreturns positive hparts.1.2
      obtain ⟨_, hnegative⟩ := performs_lowerStmts hX hctx hreturns negative hparts.2
      have hcondition := follows_lowerCondition hX hctx hparts.1.1
      rw [Context.lowerStmt, Source.execStmt]
      split
      · rename_i hempty
        obtain rfl := List.isEmpty_iff.mp hempty
        have hnothing : Source.Eval.inFrame (Source.execStmts X.environment globals fuel []) =
            pure .normal := by
          rw [Source.execStmts]
          rfl
        rw [hnothing]
        exact performs_branchOn_none hcondition hpositive.inScope hpositive.builds
      · exact performs_branchOn_some hcondition hpositive.inScope hpositive.builds hnegative.inScope
          hnegative.builds
    · simp at h
  | whileLoop condition body =>
    simp only [Source.Stmt.typing] at h
    split at h
    · rename_i hparts
      simp only [Bool.and_eq_true] at hparts
      obtain rfl := Option.some.inj h
      obtain ⟨_, hbody⟩ := performs_lowerStmts hX hctx hreturns body hparts.2
      rw [Context.lowerStmt, Source.execStmt]
      exact performs_loopWhile (follows_lowerCondition hX hctx hparts.1) hbody
    · simp at h
  | forLoop start condition step body =>
    simp only [Source.Stmt.typing] at h
    split at h
    · rename_i inner hinner
      split at h
      · rename_i hparts
        simp only [Bool.and_eq_true, Option.all_eq_true] at hparts
        obtain rfl := Option.some.inj h
        obtain ⟨_, hbody⟩ := performs_lowerStmts hX hctx hreturns body hparts.2
        rw [Context.lowerStmt, Source.execStmt]
        refine performs_loopFor (declares_lowerStart hX hctx start hinner) ?_ ?_ hbody
        · cases condition with
          | none => rfl
          | some e => exact follows_lowerCondition hX hctx (hparts.1.1 e rfl)
        · cases step with
          | none => exact .pure fun _ _ _ => trivial
          | some e => exact follows_runExpr hX hctx (hparts.1.2 e rfl)
      · simp at h
    · simp at h
  | breakLoop =>
    simp only [Source.Stmt.typing] at h
    split at h
    · obtain rfl := Option.some.inj h
      rw [Context.lowerStmt, Source.execStmt]
      exact performs_loopJump fun _ st fs targets _ htargets hagrees =>
        .leave st fs targets htargets hagrees
    · simp at h
  | continueLoop =>
    simp only [Source.Stmt.typing] at h
    split at h
    · obtain rfl := Option.some.inj h
      rw [Context.lowerStmt, Source.execStmt]
      exact performs_loopJump fun _ st fs targets _ htargets hagrees =>
        .next st fs targets htargets hagrees
    · simp at h
  | giveBack value =>
    rw [Context.lowerStmt]
    exact performs_lowerReturn hX hctx hreturns value h
  | evaluate e =>
    simp only [Source.Stmt.typing] at h
    split at h
    · rename_i he
      obtain rfl := Option.some.inj h
      rw [Context.lowerStmt, Source.execStmt]
      have hrun : X.Declares known known _ _ := .of_follows (follows_runExpr hX hctx he)
      simpa using hrun.performs
    · simp at h
  | empty =>
    obtain rfl : known = after := by simpa [Source.Stmt.typing] using h
    rw [Context.lowerStmt, Source.execStmt]
    exact .nothing

/-- A list of statements goes on only behind one that ends normally. -/
theorem performs_lowerStmts (hX : X.Sound symbols globals) (hctx : ctx.Fits X symbols)
    (hreturns : X.Returns returnType) {known : Typing} (body : List Stmt)
    (h : Source.Stmt.areScalar symbols returnType inLoop known body = true) :
    ∃ after, X.Performs fuel known after (ctx.lowerStmts body)
      (Source.execStmts X.environment globals fuel body) := by
  cases body with
  | nil =>
    rw [Context.lowerStmts, Source.execStmts]
    exact ⟨known, .nothing⟩
  | cons stmt rest =>
    simp only [Source.Stmt.areScalar] at h
    split at h
    · rename_i inner hstmt
      obtain ⟨after, hrest⟩ := performs_lowerStmts hX hctx hreturns rest h
      rw [Context.lowerStmts, Source.execStmts]
      exact ⟨after, (performs_lowerStmt hX hctx hreturns stmt hstmt).seq hrest⟩
    · simp at h

end

end Setting

end

end MxStar.Flow
