import MxStar.Proofs.Flow.Following

/-!
# The code of operators computes their values

`Setting.Denotes` relates what is built for an expression to what the expression
stands for: an operand holds its value, or an address is that of its variable.  Each
step that turns one into the other, and each operator, follows its evaluation.

A truth value is the same word in condition form and in storage form, so changing
between the two forms changes no value.
-/

namespace MxStar.Flow

open Build
open Source (Typing Expr BinaryOp)

section

variable {World : Type}

namespace Setting

variable {X : Setting World} {symbols : Source.Symbols} {globals known : Typing}
  {pre : Builder → State World → Prop}
  {ty : Source.Ty} {answer : Source.Answer} {lowered : Lowered}

def HoldsTyped (X : Setting World) (ty : Source.Ty) (s : Builder) (fs : State World) (o : Operand)
    (w : Word) : Prop :=
  X.Holds s fs o w ∧ ty.Admits w

/-- What is built for an expression of type `ty` stands for what the expression does. -/
inductive Denotes (X : Setting World) (ty : Source.Ty) (s : Builder) (fs : State World) :
    Lowered → Source.Answer → Prop
  | value (o : Operand) (w : Word) (h : X.HoldsTyped ty s fs o w) :
    Denotes X ty s fs (.value o) (.value w)
  | place (address : Operand) (name : String)
    (hname : X.Names s.scopes name address (.ofSource ty)) :
    Denotes X ty s fs (.place address (.ofSource ty)) (.place name)
  | nothing : Denotes X ty s fs .nothing .nothing

theorem stable_holdsTyped (X : Setting World) (ty : Source.Ty) (o : Operand) (w : Word) :
    Stable fun s fs => X.HoldsTyped ty s fs o w :=
  fun _ _ _ _ _ hsize hkeeps h => ⟨h.1.mono hsize hkeeps, h.2⟩

/-! ## Values and places -/

theorem read_eq (E : Environment World) (globals : Typing) (name : String)
    (st : Source.State World) :
    Source.read E globals name st = .undefined ∨
      ∃ w, Source.read E globals name st = .done w st := by
  simp only [Source.read]
  split
  · exact .inr ⟨_, rfl⟩
  · exact .inl rfl
  · split
    · exact .inr ⟨_, rfl⟩
    · exact .inl rfl

theorem write_eq (E : Environment World) (globals : Typing) (name : String) (w : Word)
    (st : Source.State World) :
    Source.write E globals name w st = .undefined ∨
      ∃ st', Source.write E globals name w st = .done () st' := by
  simp only [Source.write]
  split
  · exact .inr ⟨_, rfl⟩
  · split
    · exact .inr ⟨_, rfl⟩
    · exact .inl rfl

variable {name : String} {address o left right : Operand} {w : Word} {condition : Condition}
  {op : Source.UnaryOp}

section

variable (hX : X.Sound symbols globals)
include hX

theorem follows_load (hscalar : ty.isScalar = true) :
    X.Follows known (fun s _ => X.Names s.scopes name address (.ofSource ty))
      (load address (.ofSource ty)) (Source.read X.environment globals name)
      (X.HoldsTyped ty) := by
  refine follows_define (Q := fun w _ => ty.Admits w)
    fun s st fs d hready hG hagrees hname htype => ?_
  have hty := Ty.isScalar_ofSource hscalar
  rcases read_eq X.environment globals name st with hread | ⟨w, hread⟩
  · rw [hread]
    exact trivial
  · rw [hread]
    obtain ⟨-, a, ha, hvalue, hadmits⟩ := hagrees.read hX hname hty hread
    refine ⟨{ fs with trace := .load (Ty.ofSource ty).width a :: fs.trace }, ?_, rfl,
      { hagrees with },
      Ty.admits_ofSource.mp hadmits⟩
    simp [Instr.exec, htype, hty.width?, ha, Step.ofOption, State.load, hvalue]

theorem storedType?_of_names {s : Builder} {st : Source.State World} {fs : State World}
    (hagrees : X.Agrees s.scopes st fs) {ty : Ty} (hname : X.Names s.scopes name address ty)
    (value : Operand) : X.function.storedType? X.program value address = some ty := by
  cases hname with
  | var r ty hname =>
    have hentry := varAgrees_lookup hagrees.vars name
    rw [show ScopeStack.resolve? ⟨s.scopes.scopes⟩ name = _ from hname] at hentry
    obtain ⟨n, c, v, hc, hr, rfl, hscalar, -⟩ := hentry.of_some
    obtain rfl := Storage.cell.inj hr
    simp [Function.storedType?, hX.placed.type n c hc, Ty.pointee?_pointerTo hscalar.isHollow]
  | global g hnone hg =>
    simp only [Program.global?] at hg
    simp [Function.storedType?, hg]

theorem follows_store (hscalar : ty.isScalar = true) {value : Operand} : X.Follows known
      (fun s fs => X.HoldsTyped ty s fs value w ∧ X.Names s.scopes name address (.ofSource ty))
      (store value address) (Source.write X.environment globals name w) fun _ _ _ _ => True := by
  refine follows_emit (Q := fun _ _ => True) fun s st fs hready hG hagrees hpre => ?_
  obtain ⟨⟨hholds, hadmits⟩, hname⟩ := hpre
  have hty := Ty.isScalar_ofSource hscalar
  rcases write_eq X.environment globals name w st with hwrite | ⟨st', hwrite⟩
  · rw [hwrite]
    exact trivial
  · rw [hwrite]
    obtain ⟨a, ha, hagrees'⟩ := hagrees.write hX (hready.placed.mono hG.cells)
      (fun r hr => (hready.result r hr).2) hname hty (Ty.admits_ofSource.mpr hadmits) hwrite
    refine ⟨fs.store (Ty.ofSource ty).width a w, ?_, rfl, hagrees', trivial⟩
    simp [Instr.exec, storedType?_of_names hX hagrees hname, hty.width?, hholds.value, ha,
      Step.ofOption]

end

theorem follows_compute {ty : Ty} {instr : RegisterId → Instr} {Q : Word → Prop}
    (hexec : ∀ s fs d, pre s fs →
      (instr d).exec X.environment X.program X.function fs = .next (fs.assign d w))
    (hQ : ∀ s fs, pre s fs → Q w) :
    X.Follows known pre (define ty instr) (pure w) fun s fs o w => X.Holds s fs o w ∧ Q w := by
  refine follows_define (Q := fun w _ => Q w) fun s st fs d hready hG hagrees hpre htype => ?_
  exact ⟨fs, hexec s fs d hpre, rfl, hagrees, hQ s fs hpre⟩

theorem follows_operandType {γ δ : Type} {k : Ty → Build γ} {ev : Source.Eval World δ}
    {post : Builder → State World → γ → δ → Prop} (hk : ∀ ty, X.Follows known pre (k ty) ev post) :
    X.Follows known pre (operandType o >>= k) ev post := by
  refine Follows.skip (Q := fun _ => True) (fun s ty s' h => ⟨(operandType_eq_ok h).1, trivial⟩)
    (fun ty => (hk ty).builds) fun ty _ => hk ty

theorem follows_asCondition :
    X.Follows known (fun s fs => X.HoldsTyped .bool s fs o w) (asCondition o) (pure w)
      (X.HoldsTyped .bool) := by
  unfold asCondition
  split
  · refine .pure fun s fs h => ⟨⟨?_, fun r hr => by simp at hr⟩, h.2⟩
    have hvalue := h.1.value
    simpa [State.value?, Constant.bits] using hvalue
  · refine follows_operandType fun ty => ?_
    split
    · refine follows_compute (fun s fs d h => ?_) fun s fs h => h.2
      have hlow : w &&& 1#32 = w := by rcases h.2 rfl with rfl | rfl <;> rfl
      simp [Instr.exec, h.1.value, Step.ofOption, hlow]
    · exact .pure fun s fs h => h

theorem follows_asStorage :
    X.Follows known (fun s fs => X.HoldsTyped ty s fs o w) (asStorage o) (pure w)
      (X.HoldsTyped ty) := by
  unfold asStorage
  split
  · refine .pure fun s fs h => ⟨⟨?_, fun r hr => by simp at hr⟩, h.2⟩
    have hvalue := h.1.value
    simpa [State.value?, Constant.bits] using hvalue
  · refine follows_operandType fun ty' => ?_
    split
    · refine follows_compute (fun s fs d h => ?_) fun s fs h => h.2
      simp [Instr.exec, h.1.value, Step.ofOption]
    · exact .pure fun s fs h => h

theorem follows_toValue (hX : X.Sound symbols globals) (hscalar : ty.isScalar = true) (e : Expr) :
    X.Follows known (fun s fs => X.Denotes ty s fs lowered answer) (lowered.toValue e)
      (answer.toValue X.environment globals) (X.HoldsTyped ty) := by
  refine .of_pre (fun _ => builds_toValue e lowered) fun s fs h => ?_
  cases h with
  | value o w h =>
    refine .pure fun s fs h => ?_
    cases h with
    | value o w h => exact h
  | place address name hname =>
    refine (follows_load hX hscalar).mono (fun s fs h => ?_) fun s fs o w h => h
    cases h with
    | place address name hname => exact hname
  | nothing => exact .throw

theorem follows_toPlace (e : Expr) :
    X.Follows known (fun s fs => X.Denotes ty s fs lowered answer) (lowered.toPlace e)
      answer.toPlace fun s _ place name =>
        place.2 = .ofSource ty ∧ X.Names s.scopes name place.1 (.ofSource ty) := by
  refine .of_pre (fun _ => builds_toPlace e lowered) fun s fs h => ?_
  cases h with
  | place address name hname =>
    refine .pure fun s fs h => ?_
    cases h with
    | place address name hname => exact ⟨rfl, hname⟩
  | _ => exact .throw

theorem follows_toStorage (hX : X.Sound symbols globals) (hscalar : ty.isScalar = true) (e : Expr) :
    X.Follows known (fun s fs => X.Denotes ty s fs lowered answer) (lowered.toStorage e)
      (answer.toValue X.environment globals) (X.HoldsTyped ty) :=
  (follows_toValue hX hscalar e).adapt fun _ _ => follows_asStorage

theorem follows_toCondition (hX : X.Sound symbols globals) (e : Expr) :
    X.Follows known (fun s fs => X.Denotes .bool s fs lowered answer) (lowered.toCondition e)
      (answer.toValue X.environment globals) (X.HoldsTyped .bool) :=
  (follows_toValue hX rfl e).adapt fun _ _ => follows_asCondition

/-! ## Operators -/

theorem follows_arith {op : ArithOp} {a b : Word} (hty : ty.Admits (op.apply a b)) :
    X.Follows known (fun s fs => X.Holds s fs left a ∧ X.Holds s fs right b) (arith op left right)
      (pure (op.apply a b)) (X.HoldsTyped ty) := by
  refine follows_operandType fun _ => follows_compute (fun s fs d h => ?_) fun _ _ _ => hty
  simp [Instr.exec, h.1.value, h.2.value, Step.ofOption]

theorem follows_compare :
    X.Follows known (fun s fs => X.Holds s fs left a ∧ X.Holds s fs right b)
      (compare condition left right) (pure (Word.ofBool (condition.holds a b)))
      (X.HoldsTyped .bool) := by
  refine follows_compute (fun s fs d h => ?_) fun _ _ _ _ => ?_
  · simp [Instr.exec, h.1.value, h.2.value, Step.ofOption]
  · cases condition.holds a b
    · exact .inl rfl
    · exact .inr rfl

theorem admits_int (w : Word) : Source.Ty.int.Admits w := fun h => absurd h (by decide)

theorem evalUnary_eq (E : Environment World) (hop : op.isStep = false) (operand : Source.Answer) :
    Source.evalUnary E globals op operand =
      (fun w => Source.Answer.value (op.apply w)) <$> operand.toValue E globals := by
  simp only [Source.evalUnary, hop]
  rfl

theorem follows_unaryValue (hX : X.Sound symbols globals) (hop : op.isStep = false)
    (hscalar : ty.isScalar = true) (e : Expr) {step : Operand → Build Operand}
    (hstep : ∀ o w, X.Follows known (fun s fs => X.HoldsTyped ty s fs o w) (step o)
      (pure (op.apply w)) (X.HoldsTyped ty)) :
    X.Follows known (fun s fs => X.Denotes ty s fs lowered answer)
      (.value <$> (lowered.toValue e >>= step)) (Source.evalUnary X.environment globals op answer)
      (X.Denotes ty) := by
  rw [evalUnary_eq X.environment hop]
  refine Follows.map ((follows_toValue hX hscalar e).adapt fun o w => ?_)
  refine ((hstep o w).const w).mono (fun _ _ h => h) fun s fs o' w' h => ?_
  obtain ⟨rfl, h⟩ := h
  exact .value o' _ h

theorem follows_negation : X.Follows known (fun s fs => X.HoldsTyped .bool s fs o w) (match o with
        | .constant (.cond value) => pure (.value (.constant (.cond !value)))
        | condition => .value <$> arith .xor condition (.constant (.cond true)))
      (pure (Source.Answer.value (Source.UnaryOp.logicalNot.apply w))) (X.Denotes .bool) := by
  have hadmits : ∀ w, Source.Ty.bool.Admits (Source.UnaryOp.logicalNot.apply w) := by
    intro w _
    simp only [Source.UnaryOp.apply]
    cases w == 0
    · exact .inl rfl
    · exact .inr rfl
  split
  · rename_i value
    refine .pure fun s fs h => .value _ _ ⟨⟨?_, fun r hr => by simp at hr⟩, hadmits w⟩
    obtain rfl : (Constant.cond value).bits = w := Option.some.inj h.1.value
    cases value <;> rfl
  · refine .of_pre (fun _ => .map (builds_arith _ _ _)) fun s fs h => ?_
    have hnot : Source.UnaryOp.logicalNot.apply w = ArithOp.xor.apply w 1 := by
      rcases h.2 rfl with rfl | rfl <;> rfl
    have htyped := hadmits w
    rw [hnot] at htyped ⊢
    refine Follows.map_pure ((follows_arith htyped).mono (fun s fs h => ⟨h.1, .constant _⟩) ?_)
    exact fun s fs o w h => .value o w h

section

variable (hX : X.Sound symbols globals)
include hX

theorem follows_stepPlace {o : ArithOp} (hop : ∀ w, op.apply w = o.apply w 1) :
    X.Follows known (fun s _ => X.Names s.scopes name address (.ofSource .int))
      (stepPlace o address (.ofSource .int)) (Source.stepVariable X.environment globals op name)
      fun s fs old w =>
        X.HoldsTyped .int s fs old w ∧ X.Names s.scopes name address (.ofSource .int) := by
  have hname := X.stable_names name address (.ofSource .int)
  refine ((follows_load hX rfl).keep hname fun s fs h => h).bind fun old w => ?_
  have hold := (X.stable_holdsTyped .int old w).and hname
  rw [hop]
  refine ((follows_arith (admits_int _)).keep hold fun s fs h => ⟨h.1.1, .constant _⟩).andThen
    fun new => ?_
  have hnew := (X.stable_holdsTyped .int new (o.apply w 1)).and hold
  refine ((follows_store hX rfl).keep hnew fun s fs h => ⟨h.1, h.2.2⟩).bind fun _ _ => ?_
  exact .pure fun s fs h => h.2.2

theorem follows_stepExpr {o : ArithOp} (hstep : op.isStep = true)
    (hop : ∀ w, op.apply w = o.apply w 1)
    (hplace : ∀ name old, Source.Answer.ofStep op name old =
      if asPlace then .place name else .value old)
    (e : Expr) :
    X.Follows known (fun s fs => X.Denotes .int s fs lowered operand) (stepExpr o asPlace e lowered)
      (Source.evalUnary X.environment globals op operand) (X.Denotes .int) := by
  rw [Source.evalUnary, if_pos hstep]
  refine (follows_toPlace e).bind fun place name => ?_
  obtain ⟨address, ty⟩ := place
  refine .of_pre (fun _ => .bind (builds_stepPlace o address ty) fun _ _ => .pure trivial)
    fun s fs h => ?_
  obtain rfl : ty = .ofSource .int := h.1
  refine ((follows_stepPlace hX hop).mono (fun s fs h => h.2) fun _ _ _ _ h => h).bind
    fun old w => .pure fun s fs h => ?_
  rw [hplace]
  cases asPlace with
  | true => exact .place address name h.2
  | false => exact .value old w h.1

theorem follows_lowerUnary (op : Source.UnaryOp) (e : Expr) :
    X.Follows known (fun s fs => X.Denotes op.operandType s fs lowered answer)
      (lowerUnary op e lowered) (Source.evalUnary X.environment globals op answer)
      (X.Denotes op.operandType) := by
  cases op with
  | plus =>
    rw [evalUnary_eq X.environment rfl]
    exact Follows.map ((follows_toValue hX rfl e).mono (fun _ _ h => h)
      fun s fs o w h => .value o w h)
  | negate =>
    refine follows_unaryValue hX rfl rfl e fun o w => ?_
    have hneg : Source.UnaryOp.negate.apply w = ArithOp.sub.apply 0 w := (BitVec.zero_sub w).symm
    rw [hneg]
    exact (follows_arith (admits_int _)).mono (fun s fs h => ⟨.constant _, h.1⟩) fun s fs o w h => h
  | bitNot =>
    refine follows_unaryValue hX rfl rfl e fun o w => ?_
    have hnot : Source.UnaryOp.bitNot.apply w = ArithOp.xor.apply w (BitVec.allOnes 32) :=
      BitVec.xor_allOnes.symm
    rw [hnot]
    exact (follows_arith (admits_int _)).mono (fun s fs h => ⟨h.1, .constant _⟩) fun s fs o w h => h
  | logicalNot =>
    rw [evalUnary_eq X.environment rfl]
    exact (follows_toCondition hX e).bind fun o w => follows_negation
  | _ => exact follows_stepExpr hX rfl (fun _ => rfl) (fun _ _ => rfl) e

end

theorem arithmetic_of_ofSource {op : BinaryOp} {o : ArithOp}
    (h : Operation.ofSource op = .arithmetic o) {left right ty : Source.Ty}
    (hty : op.resultType? left right = some ty) :
    (∀ a b, op.apply a b = o.apply a b) ∧ left = .int ∧ right = .int ∧ ty = .int := by
  cases op <;> cases h <;>
    simp_all [Source.BinaryOp.resultType?, Source.BinaryOp.operatorClass, Source.BinaryOp.apply,
      ArithOp.apply]

theorem comparison_of_ofSource {op : BinaryOp}
    (h : Operation.ofSource op = .comparison condition) {left right ty : Source.Ty}
    (hty : op.resultType? left right = some ty) :
    (∀ a b, op.apply a b = Word.ofBool (condition.holds a b)) ∧ left.isScalar = true ∧
      right = left ∧ ty = .bool := by
  cases op <;> cases h <;>
    simp only [Source.BinaryOp.resultType?, Source.BinaryOp.operatorClass, Source.BinaryOp.apply,
      Condition.holds] at hty ⊢ <;>
    grind [Source.Ty.isScalar]

theorem shortCircuit_of_ofSource {op : BinaryOp} (h : Operation.ofSource op = .shortCircuit isAnd)
    {left right ty : Source.Ty} (hty : op.resultType? left right = some ty) :
    left = .bool ∧ right = .bool ∧ ty = .bool := by
  cases op <;> cases h <;> simp_all [Source.BinaryOp.resultType?, Source.BinaryOp.operatorClass]

theorem isString_of_isScalar (h : ty.isScalar = true) : ty.isString = false := by
  simp only [Source.Ty.isScalar, Bool.or_eq_true, decide_eq_true_eq] at h
  rcases h with rfl | rfl <;> rfl

theorem follows_compareValues :
    X.Follows known (fun s fs => X.HoldsTyped ty s fs left a ∧ X.HoldsTyped ty s fs right b)
      (compareValues condition ty left right) (pure (Word.ofBool (condition.holds a b)))
      (X.HoldsTyped .bool) := by
  unfold compareValues
  split
  · have hboth := (X.stable_holdsTyped ty left a).and (X.stable_holdsTyped ty right b)
    refine (follows_asStorage.keep hboth fun s fs h => h.1).andThen fun left' => ?_
    have hleft := (X.stable_holdsTyped ty left' a).and (X.stable_holdsTyped ty right b)
    refine ((follows_asStorage.keep hleft fun s fs h => h.2).mono (fun s fs h => ⟨h.1, h.2.2⟩)
      fun _ _ _ _ h => h).andThen fun right' => ?_
    exact follows_compare.mono (fun s fs h => ⟨h.2.1.1, h.1.1⟩) fun _ _ _ _ h => h
  · exact follows_compare.mono (fun s fs h => ⟨h.1.1, h.2.1⟩) fun _ _ _ _ h => h

theorem follows_operands (hX : X.Sound symbols globals) (hlhs : lhs.ty.isScalar = true)
    (hrhs : rhs.ty.isScalar = true) {left right : Build Lowered}
    (hleft : X.Follows known (fun _ _ => True) left evalLeft (X.Denotes lhs.ty))
    (hright : X.Follows known (fun _ _ => True) right evalRight (X.Denotes rhs.ty))
    {k : Operand → Operand → Build Lowered} {k' : Word → Word → Source.Eval World Source.Answer}
    {post : Builder → State World → Lowered → Source.Answer → Prop}
    (hk : ∀ o o' a b, X.Follows known (fun s fs => X.HoldsTyped lhs.ty s fs o a ∧
      X.HoldsTyped rhs.ty s fs o' b) (k o o') (k' a b) post) :
    X.Follows known (fun _ _ => True) (do
        let o ← (← left).toValue lhs
        let o' ← (← right).toValue rhs
        k o o')
      (do
        let a ← (← evalLeft).toValue X.environment globals
        let b ← (← evalRight).toValue X.environment globals
        k' a b)
      post := by
  refine hleft.bind fun lowered answer => (follows_toValue hX hlhs lhs).bind fun o a => ?_
  have hold := X.stable_holdsTyped lhs.ty o a
  refine (hright.keep hold fun _ _ _ => trivial).bind fun lowered' answer' => ?_
  refine (((follows_toValue hX hrhs rhs).frame hold).mono (fun s fs h => h) fun _ _ _ _ h => h).bind
    fun o' b => ?_
  exact (hk o o' a b).mono (fun s fs h => ⟨h.2, h.1⟩) fun _ _ _ _ h => h

end Setting

end

end MxStar.Flow
