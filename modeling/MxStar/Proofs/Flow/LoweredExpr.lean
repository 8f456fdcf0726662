import MxStar.Proofs.Flow.LoweredChoice

/-!
# The code of an expression computes its value

The code that is built for an expression of the scalar language follows its
evaluation (`follows_lowerExpr`).  Each form of expression has a rule of its own,
and the induction over the expression only puts the rules together.
-/

namespace MxStar.Flow

open Build
open Source (Symbols Typing Expr)

/-- The context of a function that is no method, in its program. -/
structure Context.Fits {World : Type} (ctx : Context) (X : Setting World)
    (symbols : Symbols) : Prop where
  symbols : ctx.symbols = symbols
  globals : ctx.globals = X.program.globals
  receiver : ctx.receiver = none
  returnCell : ctx.returnCell = X.result

theorem isScalar_of_resultType? {op : Source.BinaryOp} {left right ty : Source.Ty}
    (h : op.resultType? left right = some ty) : ty.isScalar = true := by
  simp only [Source.BinaryOp.resultType?] at h
  split at h <;> split at h <;> simp_all [Source.Ty.isScalar]

theorem isScalar_ty_or (e : Expr) (h : e.isScalar symbols known = true) :
    e.ty.isScalar = true ∨ e.ty = .void := by
  cases e with
  | literal ty value =>
    cases value <;> simp_all [Source.Expr.isScalar, Source.Expr.ty, Source.Ty.isScalar]
  | ident ty name =>
    simp only [Source.Expr.isScalar, Bool.and_eq_true] at h
    exact .inl h.2
  | binary ty op lhs rhs =>
    simp only [Source.Expr.isScalar, Bool.and_eq_true, decide_eq_true_eq] at h
    exact .inl (isScalar_of_resultType? h.2)
  | unary ty op operand =>
    simp only [Source.Expr.isScalar, Bool.and_eq_true, decide_eq_true_eq] at h
    obtain rfl : ty = op.operandType := h.1.2
    cases op <;> exact .inl rfl
  | assign ty target value =>
    simp only [Source.Expr.isScalar, Bool.and_eq_true, decide_eq_true_eq] at h
    have hvalue := isScalar_ty_or value h.1.1.1.2
    rw [h.2] at hvalue
    exact hvalue
  | choice ty condition positive negative =>
    simp only [Source.Expr.isScalar, Bool.and_eq_true, decide_eq_true_eq] at h
    have hneg := isScalar_ty_or negative h.1.1.1.2
    rw [h.2] at hneg
    exact hneg
  | call ty function arguments =>
    simp only [Source.Expr.isScalar, Bool.and_eq_true, Bool.or_eq_true, decide_eq_true_eq] at h
    exact h.1.2
  | _ => simp [Source.Expr.isScalar] at h

theorem isScalar_of_isPlace {symbols : Symbols} {known : Typing} {e : Expr}
    (h : e.isScalar symbols known = true) (hplace : e.isPlace = true) : e.ty.isScalar = true := by
  cases e with
  | ident ty name =>
    simp only [Source.Expr.isScalar, Bool.and_eq_true] at h
    exact h.2
  | assign ty target value =>
    simp only [Source.Expr.isScalar, Bool.and_eq_true, decide_eq_true_eq] at h
    have htarget := isScalar_of_isPlace h.1.1.1.1 h.1.1.2
    rw [h.1.2] at htarget
    exact htarget
  | unary ty op operand =>
    simp only [Source.Expr.isScalar, Bool.and_eq_true, decide_eq_true_eq] at h
    obtain rfl : ty = op.operandType := h.1.2
    cases op <;> rfl
  | _ => simp [Source.Expr.isPlace] at hplace

section

variable {World : Type}

namespace Setting

variable {X : Setting World} {symbols : Symbols} {globals known : Typing}
  {ctx : Context} {pre : Builder → State World → Prop}

/-! ## Names -/

variable {s : Builder} {ty : Source.Ty} {os : List Operand} {ws : List Word} {function : String}
  {op : Source.BinaryOp}

theorem resolve_of_names (hctx : ctx.Fits X symbols) {ty : Ty}
    (h : X.Names s.scopes name address ty) : ctx.resolve name s = .ok (address, ty) s := by
  cases h with
  | var r ty hname =>
    simp [Context.resolve, hname, Storage.address, bind, EStateM.bind, get, getThe,
      MonadStateOf.get,
      EStateM.get, pure, EStateM.pure]
  | global g hnone hg =>
    simp only [Program.global?, ← hctx.globals] at hg
    simp [Context.resolve, hnone, Context.receiverWith?, hctx.receiver, hg, bind, EStateM.bind, get,
      getThe, MonadStateOf.get, EStateM.get, pure, EStateM.pure, ofExcept, Except.pure]

theorem follows_resolve (hctx : ctx.Fits X symbols) (hknown : known name = some ty)
    (hscalar : ty.isScalar = true) :
    X.Follows known (fun _ _ => True) (do
        let (address, ty) ← ctx.resolve name
        return .place address ty)
      (pure (.place name)) (X.Denotes ty) := by
  refine ⟨fun _ => .bind (builds_resolve ctx name) fun _ _ => .pure trivial, ?_⟩
  intro s lowered s' t x fs st fuel hstep hready hknows hstands hG hagrees _
  obtain ⟨address, hname⟩ := hknows name ty hknown hscalar
  obtain ⟨place, s1, hresolve, hpure⟩ := EStateM.bind_eq_ok.mp hstep
  rw [resolve_of_names hctx hname] at hresolve
  injection hresolve with hplace hs
  subst hplace hs
  obtain ⟨rfl, rfl⟩ := EStateM.pure_eq_ok.mp hpure
  exact .done ⟨⟨hstands, hagrees, fun _ _ => rfl⟩, .place address name hname⟩

/-! ## Calls -/

def HoldEach (X : Setting World) (s : Builder) (fs : State World) (os : List Operand)
    (ws : List Word) : Prop :=
  List.Forall₂ (X.Holds s fs) os ws

theorem mapM_value? (h : X.HoldEach s fs os ws) : os.mapM (fs.value? X.environment) = some ws := by
  induction h with
  | nil => rfl
  | cons hhead _ ih => simp [hhead.value, ih]

section

variable (hX : X.Sound symbols globals)
include hX

theorem executes_call (hagrees : X.Agrees s.scopes st fs) (hold : X.HoldEach s fs os ws)
    (destination : Option RegisterId) :
    X.Executes s.scopes fs (Source.call X.environment function ws st)
      ((Instr.call destination function os).exec X.environment X.program X.function fs)
      (fun w noted => match destination with
        | some d => noted.assign d w
        | none => noted)
      fun w _ => ∀ signature, symbols.signature? function = some signature →
        signature.returnType.Admits w := by
  have hvalues := mapM_value? hold
  simp only [Source.call]
  cases hcall : X.environment.call st.world function ws st.memory with
  | none =>
    obtain ⟨hcall', hseen⟩ := hagrees.call_none hX.shelters hcall
    exact ⟨_, by simp [Instr.exec, hvalues, State.call, hcall'], hseen⟩
  | some answer =>
    obtain ⟨world, memory, result⟩ := answer
    obtain ⟨memory', hcall', hagrees'⟩ := hagrees.call hX.shelters hcall
    refine ⟨{ fs with trace := .call function ws :: fs.trace, world, memory := memory' }, ?_, rfl,
      hagrees', ?_⟩
    · cases destination <;> simp [Instr.exec, hvalues, State.call, hcall']
    · exact fun signature => hX.shelters.results _ _ _ _ _ _ _ signature hcall

theorem follows_callVoid :
    X.Follows known (fun s fs => X.HoldEach s fs os ws) (callVoid function os)
      (Source.call X.environment function ws) fun _ _ _ _ => True :=
  (follows_emit fun _ _ _ _ _ hagrees hold => executes_call hX hagrees hold none).mono
    (fun _ _ h => h) fun _ _ _ _ _ => trivial

theorem follows_callValue (hsignature : symbols.signature? function = some signature) {ty : Ty} :
    X.Follows known (fun s fs => X.HoldEach s fs os ws) (callValue function os ty)
      (Source.call X.environment function ws) (X.HoldsTyped signature.returnType) :=
  (follows_define fun _ _ _ d _ _ hagrees hold _ => executes_call hX hagrees hold (some d)).mono
    (fun _ _ h => h) fun _ _ _ _ h => ⟨h.1, h.2 signature hsignature⟩

theorem follows_callResult (hty : ty.isScalar = true ∨ ty = .void)
    (hsignature : symbols.signature? function = some { returnType := ty, parameters }) :
    X.Follows known (fun s fs => X.HoldEach s fs os ws) (Context.callResult function os ty)
      ((fun w => if ty = .void then .nothing else .value w) <$>
        Source.call X.environment function ws) (X.Denotes ty) := by
  simp only [Context.callResult]
  rcases hty with hscalar | rfl
  · have hty := Ty.isScalar_ofSource hscalar
    have hvoid : Ty.ofSource ty ≠ .void := by
      rcases hty with h | h <;> simp [h]
    simp only [if_neg hvoid, if_neg (ne_void_of_isScalar hscalar)]
    exact .map ((follows_callValue hX hsignature).mono (fun _ _ h => h)
      fun s fs o w h => .value o w h)
  · exact (follows_callVoid hX).bind fun _ _ => .pure fun _ _ _ => .nothing

end

theorem functionSymbol_of_signature? (hctx : ctx.Fits X symbols)
    (h : symbols.signature? function = some signature) :
    ctx.functionSymbol function = .ok function := by
  simp only [Context.functionSymbol, hctx.symbols]
  split
  · rfl
  · rename_i hnone
    have hfun : symbols.function? function = none := by simpa using hnone
    have hbuiltin : function ∈ Linkage.builtins := by
      simp only [Source.Symbols.signature?, hfun, Option.none_or,
        Source.builtinSignature?] at h
      split at h
      · rename_i hname
        rcases hname with rfl | rfl <;> decide
      · split at h
        · rename_i hname
          obtain rfl := hname
          decide
        · simp at h
    simp [Linkage.builtin?, hbuiltin]

/-! ## The forms of expressions -/

theorem follows_assign (hX : X.Sound symbols globals) (hscalar : ty.isScalar = true)
    {evalValue : Source.Eval World Source.Answer}
    (hvalue : X.Follows known (fun _ _ => True) lowerValue evalValue (X.Denotes ty))
    (htarget : X.Follows known (fun _ _ => True) lowerTarget evalTarget (X.Denotes ty)) :
    X.Follows known (fun _ _ => True) (do
        let assigned ← (← lowerValue).toValue value
        let (address, ty) ← (← lowerTarget).toPlace target
        store (← asStorage assigned) address
        return .place address ty)
      (do
        let assigned ← (← evalValue).toValue X.environment globals
        let name ← (← evalTarget).toPlace
        Source.write X.environment globals name assigned
        return .place name)
      (X.Denotes ty) := by
  refine hvalue.bind fun lowered answer => (follows_toValue hX hscalar value).bind fun o w => ?_
  have hold := X.stable_holdsTyped ty o w
  refine (htarget.keep hold fun _ _ _ => trivial).bind fun lowered' answer' => ?_
  refine ((follows_toPlace target).frame hold).bind fun place name => ?_
  obtain ⟨address, ty'⟩ := place
  refine .of_pre (fun _ => ?_) fun s fs h => ?_
  · exact .bind (builds_asStorage _) fun _ _ => .bind (builds_emit _) fun _ _ => .pure trivial
  obtain rfl : ty' = .ofSource ty := h.1.1
  have hname := X.stable_names name address (.ofSource ty)
  refine ((follows_asStorage.keep (hold.and hname) fun s fs h => h.1).mono
    (fun s fs h => ⟨h.2, h.1.2⟩) fun _ _ _ _ h => h).andThen fun o' => ?_
  have hstored := (X.stable_holdsTyped ty o' w).and hname
  refine (((follows_store hX hscalar).keep hstored fun s fs h => h).mono
    (fun s fs h => ⟨h.1, h.2.2⟩) fun _ _ _ _ h => h).bind fun _ _ => ?_
  exact .pure fun s fs h => .place address name h.2.2

theorem evalExpr_binary (E : Environment World)
    (hop : ∀ isAnd, Operation.ofSource op ≠ .shortCircuit isAnd) (ty : Source.Ty)
    (lhs rhs : Expr) :
    Source.evalExpr E globals (.binary ty op lhs rhs) = (do
      let left ← (← Source.evalExpr E globals lhs).toValue E globals
      let right ← (← Source.evalExpr E globals rhs).toValue E globals
      return .value (op.apply left right)) := by
  cases op with
  | logicalAnd => exact absurd rfl (hop true)
  | logicalOr => exact absurd rfl (hop false)
  | _ => rw [Source.evalExpr] <;> simp

theorem evalExpr_shortCircuit (E : Environment World)
    (hop : Operation.ofSource op = .shortCircuit isAnd) (ty : Source.Ty) (lhs rhs : Expr) :
    Source.evalExpr E globals (.binary ty op lhs rhs) = Source.Answer.value <$> (do
        let left ← (do (← Source.evalExpr E globals lhs).toValue E globals)
        if decide (left = 0) == isAnd then pure (Word.ofBool !isAnd)
        else (do (← Source.evalExpr E globals rhs).toValue E globals)) := by
  cases op <;> cases hop
  all_goals
    rw [Source.evalExpr]
    simp only [map_eq_pure_bind, bind_assoc]
    refine congrArg _ (funext fun answer => congrArg _ (funext fun w => ?_))
    by_cases hw : w = 0#32 <;> simp [hw, Word.ofBool]

theorem follows_binaryValue (hX : X.Sound symbols globals) (hlhs : lhs.ty.isScalar = true)
    (hrhs : rhs.ty.isScalar = true)
    (hleft : X.Follows known (fun _ _ => True) left evalLeft (X.Denotes lhs.ty))
    (hright : X.Follows known (fun _ _ => True) right evalRight (X.Denotes rhs.ty))
    {code : Operand → Operand → Build Operand}
    (hcode : ∀ o o' a b, X.Follows known (fun s fs => X.HoldsTyped lhs.ty s fs o a ∧
      X.HoldsTyped rhs.ty s fs o' b) (code o o') (pure (op.apply a b)) (X.HoldsTyped ty)) :
    X.Follows known (fun _ _ => True) (do
        let o ← (← left).toValue lhs
        let o' ← (← right).toValue rhs
        .value <$> operate op lhs.ty rhs.ty code o o')
      (do
        let a ← (← evalLeft).toValue X.environment globals
        let b ← (← evalRight).toValue X.environment globals
        return .value (op.apply a b))
      (X.Denotes ty) := by
  refine follows_operands hX hlhs hrhs hleft hright fun o o' a b => ?_
  simp only [operate, isString_of_isScalar hlhs, Bool.false_and, Bool.false_eq_true, if_false]
  exact .map_pure ((hcode o o' a b).mono (fun _ _ h => h) fun s fs o w h => .value o w h)

mutual

theorem follows_lowerExpr (hX : X.Sound symbols globals) (hctx : ctx.Fits X symbols)
    (e : Expr) (h : e.isScalar symbols known = true) :
    X.Follows known (fun _ _ => True) (ctx.lowerExpr e)
      (Source.evalExpr X.environment globals e) (X.Denotes e.ty) := by
  have hscalar := isScalar_ty_or e h
  cases e with
  | literal ty value =>
    cases value with
    | integer w =>
      rw [Context.lowerExpr, Source.evalExpr, lowerLiteral, map_pure]
      refine .pure fun s fs _ => .value _ _ ⟨.constant _, ?_⟩
      obtain rfl : ty = .int := by simpa [Source.Expr.isScalar] using h
      exact admits_int w
    | boolean b =>
      rw [Context.lowerExpr, Source.evalExpr, lowerLiteral, map_pure]
      refine .pure fun s fs _ => .value _ _ ⟨.constant _, fun _ => ?_⟩
      cases b
      · exact .inl rfl
      · exact .inr rfl
    | _ => simp [Source.Expr.isScalar] at h
  | ident ty name =>
    simp only [Source.Expr.isScalar, Bool.and_eq_true, decide_eq_true_eq] at h
    rw [Context.lowerExpr, Source.evalExpr]
    exact follows_resolve hctx h.1 h.2
  | binary ty op lhs rhs =>
    simp only [Source.Expr.isScalar, Bool.and_eq_true, decide_eq_true_eq] at h
    obtain ⟨⟨hlhs, hrhs⟩, hty⟩ := h
    have hleft := follows_lowerExpr hX hctx lhs hlhs
    have hright := follows_lowerExpr hX hctx rhs hrhs
    rw [Context.lowerExpr]
    cases hop : Operation.ofSource op with
    | arithmetic o =>
      obtain ⟨happly, hl, hr, rfl⟩ := arithmetic_of_ofSource hop hty
      rw [evalExpr_binary X.environment (by simp [hop])]
      refine follows_binaryValue hX (by rw [hl]; rfl) (by rw [hr]; rfl) hleft hright ?_
      intro left right a b
      rw [happly]
      exact (follows_arith (admits_int _)).mono (fun s fs h => ⟨h.1.1, h.2.1⟩) fun _ _ _ _ h => h
    | comparison condition =>
      obtain ⟨happly, hl, hr, rfl⟩ := comparison_of_ofSource hop hty
      rw [evalExpr_binary X.environment (by simp [hop])]
      refine follows_binaryValue hX hl (by rw [hr]; exact hl) hleft hright ?_
      intro left right a b
      rw [happly, hr]
      exact follows_compareValues
    | shortCircuit isAnd =>
      obtain ⟨hl, hr, rfl⟩ := shortCircuit_of_ofSource hop hty
      rw [hl] at hleft
      rw [hr] at hright
      rw [evalExpr_shortCircuit X.environment hop]
      refine Follows.map ((follows_shortCircuit hX isAnd ?_ ?_).mono (fun _ _ h => h)
        fun s fs o w h => .value o w h)
      · exact hleft.bind fun _ _ => follows_toCondition hX lhs
      · exact hright.bind fun _ _ => follows_toStorage hX rfl rhs
  | unary ty op operand =>
    simp only [Source.Expr.isScalar, Bool.and_eq_true, decide_eq_true_eq] at h
    obtain ⟨⟨⟨hoperand, hty⟩, rfl⟩, -⟩ := h
    have hfollows := follows_lowerExpr hX hctx operand hoperand
    rw [hty] at hfollows
    rw [Context.lowerExpr, Source.evalExpr]
    exact hfollows.bind fun _ _ => follows_lowerUnary hX op operand
  | assign ty target value =>
    simp only [Source.Expr.isScalar, Bool.and_eq_true, decide_eq_true_eq] at h
    obtain ⟨⟨⟨⟨htarget, hvalue⟩, hplace⟩, hty⟩, hty'⟩ := h
    have hfollows := follows_lowerExpr hX hctx target htarget
    have hfollows' := follows_lowerExpr hX hctx value hvalue
    rw [hty] at hfollows
    rw [hty'] at hfollows'
    have hassign := isScalar_of_isPlace htarget hplace
    rw [hty] at hassign
    rw [Context.lowerExpr, Source.evalExpr]
    exact follows_assign hX hassign hfollows' hfollows
  | choice ty condition positive negative =>
    simp only [Source.Expr.isScalar, Bool.and_eq_true, decide_eq_true_eq] at h
    obtain ⟨⟨⟨⟨⟨hcond, hpos⟩, hneg⟩, hbool⟩, hty⟩, hty'⟩ := h
    have hfollows := follows_lowerExpr hX hctx condition hcond
    have hfollows1 := follows_lowerExpr hX hctx positive hpos
    have hfollows2 := follows_lowerExpr hX hctx negative hneg
    rw [hbool] at hfollows
    rw [hty] at hfollows1
    rw [hty'] at hfollows2
    rw [Context.lowerExpr, Source.evalExpr]
    have hchosen := hfollows.bind fun _ _ => follows_toCondition hX condition
    have hchoose := follows_choose hchosen hfollows1 hfollows2 positive negative hX hscalar
    rw [bind_assoc] at hchoose
    exact hchoose
  | call ty function arguments =>
    simp only [Source.Expr.isScalar, Bool.and_eq_true, decide_eq_true_eq] at h
    obtain ⟨⟨hargs, -⟩, hsignature⟩ := h
    rw [Context.lowerExpr, Source.evalExpr, functionSymbol_of_signature? hctx hsignature]
    have hcall := (follows_lowerEach hX hctx arguments hargs).bind fun _ _ =>
      follows_callResult hX hscalar hsignature
    simp only [map_eq_pure_bind] at hcall
    exact hcall
  | _ => simp [Source.Expr.isScalar] at h

theorem follows_lowerEach (hX : X.Sound symbols globals) (hctx : ctx.Fits X symbols)
    (es : List Expr) (h : Source.Expr.areScalar symbols known es = true) :
    X.Follows known (fun _ _ => True) (ctx.lowerEach asStorage es)
      (Source.evalEach X.environment globals es) X.HoldEach := by
  cases es with
  | nil =>
    rw [Context.lowerEach, Source.evalEach]
    exact .pure fun _ _ _ => .nil
  | cons e rest =>
    simp only [Source.Expr.areScalar, Bool.and_eq_true] at h
    obtain ⟨⟨he, hty⟩, hrest⟩ := h
    rw [Context.lowerEach, Source.evalEach]
    refine (follows_lowerExpr hX hctx e he).bind fun lowered answer => ?_
    refine (follows_toValue hX hty e).bind fun o w => follows_asStorage.andThen fun o' => ?_
    have hold := X.stable_holdsTyped e.ty o' w
    refine ((follows_lowerEach hX hctx rest hrest).keep hold fun _ _ _ => trivial).bind
      fun os ws => .pure fun s fs h => ?_
    exact .cons h.2.1 h.1

end

end Setting

end

end MxStar.Flow
