import MxStar.Flow.Body.Stmt
import MxStar.Proofs.Flow.Building

/-!
# Bodies are built by edits

One lemma for each step that builds a part of a body: it is made of edits, it leaves the
scopes as it found them, and it interns the texts of its source.  Only a declaration
changes the scopes, and then only the names of the innermost region.
-/

namespace MxStar.Flow

open Source (Expr Stmt)

section

variable {τ : Type} {P : Prop} {view : ScopeStack → τ} {bound : Nat} {texts more : List String}

open Build

/-! ## Arms -/

/-- Build an arm in its block.  It goes on at `next`. -/
def armAt (block next : BlockId) (arm : Build Unit) : Build Unit := do
  switchTo block
  arm
  jump next

/-- End the current block by `t` and build two arms that meet again in `next`. -/
def fork (t : Terminator) (first second next : BlockId) (firstArm secondArm : Build Unit) :
    Build Unit := do
  terminate t
  armAt first next firstArm
  armAt second next secondArm
  switchTo next

/-- Create a block to go on in and two more, which end as told, and go on with the three. -/
def withBlocks (tag firstTag secondTag : String) (firstEnd : BlockId → Option Terminator)
    (secondEnd : BlockId → BlockId → Option Terminator)
    (k : BlockId → BlockId → BlockId → Build Unit) : Build Unit := do
  let next ← createBlock tag (← inheritedTerminator)
  let first ← createBlock firstTag (firstEnd next)
  let second ← createBlock secondTag (secondEnd next first)
  k next first second

/-- Create the blocks of a fork, and go on with the one where it meets and the two arms. -/
abbrev withFork (tag firstTag secondTag : String) (k : BlockId → BlockId → BlockId → Build Unit) :
    Build Unit :=
  withBlocks tag firstTag secondTag (fun next => some (.jump next))
    (fun next _ => some (.jump next)) k

variable {result : Option RegisterId} {ty : Source.Ty} {inner : Build Operand} {array : Operand}
  {element : Ty}

theorem builds_armAt (hblock : bound ≤ block.val) (harm : Builds P view bound arm texts) :
    Builds P view bound (armAt block next arm) texts :=
  .bind (builds_switchTo hblock) fun _ _ => .last harm fun _ _ => builds_jump _

theorem builds_fork (hfirst : bound ≤ first.val) (hsecond : bound ≤ second.val)
    (hnext : bound ≤ next.val) (hfirstArm : Builds P view bound firstArm texts)
    (hsecondArm : Builds P view bound secondArm more) :
    Builds P view bound (fork branch first second next firstArm secondArm) (texts ++ more) :=
  .bind (builds_terminate _) fun _ _ => .both (builds_armAt hfirst hfirstArm) fun _ _ =>
    .last (builds_armAt hsecond hsecondArm) fun _ _ => builds_switchTo hnext

theorem builds_withBlocks {firstEnd : BlockId → Option Terminator}
    {secondEnd : BlockId → BlockId → Option Terminator}
    {k : BlockId → BlockId → BlockId → Build Unit}
    (hk : ∀ next first second, bound ≤ next.val → bound ≤ first.val → bound ≤ second.val →
      Builds P view bound (k next first second) texts) :
    Builds P view bound (withBlocks tag firstTag secondTag firstEnd secondEnd k) texts :=
  .bind builds_inheritedTerminator fun _ _ =>
    .bind (builds_createBlock _ _) fun next hnext =>
      .bind (builds_createBlock _ _) fun first hfirst =>
        .bind (builds_createBlock _ _) fun second hsecond =>
          hk next first second hnext hfirst hsecond

/-! ## Expressions -/

section

variable (e : Expr) (lowered : Lowered)
include e lowered

theorem builds_toValue : Builds P view bound (lowered.toValue e) := by
  cases lowered with
  | value operand => exact .pure trivial
  | place address ty => exact builds_define _ _
  | nothing => exact .throw

theorem builds_toPlace : Builds P view bound (lowered.toPlace e) := by
  cases lowered with
  | place address ty => exact .pure trivial
  | _ => exact .throw

theorem builds_toCondition : Builds P view bound (lowered.toCondition e) :=
  .bind (builds_toValue e lowered) fun _ _ => builds_asCondition _

theorem builds_toStorage : Builds P view bound (lowered.toStorage e) :=
  .bind (builds_toValue e lowered) fun _ _ => builds_asStorage _

end

theorem builds_memberAddress (ctx : Context) (base : Operand) (className member : String) :
    Builds P view bound (ctx.memberAddress base className member) := by
  refine .bind .ofExcept fun struct _ => ?_
  split
  · exact .bind (builds_define _ _) fun _ _ => .pure trivial
  · exact .throw

theorem builds_resolve (ctx : Context) (name : String) :
    Builds P view bound (ctx.resolve name) := by
  refine .bind .get fun s _ => ?_
  split
  · exact .pure trivial
  · refine .bind .ofExcept fun receiver _ => ?_
    split
    · exact builds_memberAddress _ _ _ _
    · split
      · exact .pure trivial
      · exact .throw

theorem builds_lowerLiteral (value : Source.Literal) :
    Builds P view bound (lowerLiteral value) value.texts := by
  cases value with
  | text value =>
    intro s a s' h _
    injection h with _ hs'
    subst hs'
    exact ⟨.refl, rfl, fun _ => rfl, trivial⟩
  | _ => exact .pure trivial

theorem shortCircuit_eq (isAnd : Bool) (left right : Build Operand) :
    shortCircuit isAnd left right = (do
      let tag := if isAnd then "and" else "or"
      let result ← createCell .bool none
      let decided ← left
      withFork (tag ++ "_end") (tag ++ "_rhs") (tag ++ "_short") fun next rest short =>
        fork (if isAnd then .branch decided rest short else .branch decided short rest) short rest
          next (store (.constant (.bool !isAnd)) (.register result))
          (do store (← right) (.register result))
      asCondition (← load (.register result) .bool)) := by
  simp only [shortCircuit, withBlocks, fork, armAt, bind_assoc]

theorem builds_shortCircuit (hleft : Builds P view bound left texts)
    (hright : Builds P view bound right more) :
    Builds P view bound (shortCircuit isAnd left right) (texts ++ more) := by
  rw [shortCircuit_eq]
  refine .bind (builds_createCell _ _) fun result _ => .both hleft fun decided _ => ?_
  refine .last (builds_withBlocks fun next rest short hnext hrest hshort => ?_) fun _ _ => ?_
  · exact builds_fork hshort hrest hnext (builds_emit _) (.last hright fun _ _ => builds_emit _)
  · exact .bind (builds_define _ _) fun _ _ => builds_asCondition _

def intoCell (result : Option RegisterId) (e : Expr) (arm : Build Lowered) : Build Unit := do
  let lowered ← arm
  match result with
  | some cell => store (← lowered.toStorage e) (.register cell)
  | none => return

theorem chooseArm_eq (block next : BlockId) (result : Option RegisterId) (arm : Build Lowered)
    (e : Expr) :
    chooseArm block next result arm e = armAt block next (intoCell result e arm) := by
  cases result <;> simp [chooseArm, armAt, intoCell]

theorem builds_intoCell (harm : Builds P view bound arm texts) :
    Builds P view bound (intoCell result e arm) texts := by
  refine .last harm fun lowered _ => ?_
  cases result with
  | none => exact .pure trivial
  | some cell => exact .bind (builds_toStorage _ _) fun _ _ => builds_emit _

def chooseInto (result : Option RegisterId) (ty : Source.Ty) (condition : Build Operand)
    (positive negative : Expr) (positiveArm negativeArm : Build Lowered) :
    Build Lowered := do
  let chosen ← condition
  let next ← createBlock "cond_end" (← inheritedTerminator)
  let positiveBlock ← createBlock "cond_true" (some (.jump next))
  let negativeBlock ← createBlock "cond_false" (some (.jump next))
  terminate (.branch chosen positiveBlock negativeBlock)
  chooseArm positiveBlock next result positiveArm positive
  chooseArm negativeBlock next result negativeArm negative
  switchTo next
  match result with
  | some cell => .value <$> load (.register cell) (.ofSource ty)
  | none => return .nothing

theorem chooseInto_eq (result : Option RegisterId) (ty : Source.Ty) (condition : Build Operand)
    (positive negative : Expr) (positiveArm negativeArm : Build Lowered) :
    chooseInto result ty condition positive negative positiveArm negativeArm = (do
      let chosen ← condition
      withFork "cond_end" "cond_true" "cond_false" fun next first second =>
        fork (.branch chosen first second) first second next (intoCell result positive positiveArm)
          (intoCell result negative negativeArm)
      match result with
      | some cell => .value <$> load (.register cell) (.ofSource ty)
      | none => return .nothing) := by
  cases result <;> simp only [chooseInto, withBlocks, fork, chooseArm_eq, bind_assoc]

theorem choose_eq (ty : Source.Ty) (condition : Build Operand) (positive negative : Expr)
    (positiveArm negativeArm : Build Lowered) :
    choose ty condition positive negative positiveArm negativeArm =
      if ty.isVoid then
        chooseInto none ty condition positive negative positiveArm negativeArm
      else
        createCell (.ofSource ty) none >>= fun cell =>
          chooseInto (some cell) ty condition positive negative positiveArm negativeArm := by
  unfold choose
  split <;> rfl

section

variable {positiveArm negativeArm : Build Lowered} {condition : Build Operand} {rest : List String}
  (hcondition : Builds P view bound condition texts) (hpos : Builds P view bound positiveArm more)
  (hneg : Builds P view bound negativeArm rest)
include hcondition hpos hneg

theorem builds_chooseInto :
    Builds P view bound (chooseInto result ty condition positive negative positiveArm negativeArm)
      (texts ++ (more ++ rest)) := by
  rw [chooseInto_eq]
  refine .both hcondition fun chosen _ => .last (builds_withBlocks fun _ _ _ hnext hp hn =>
    builds_fork hp hn hnext (builds_intoCell hpos) (builds_intoCell hneg)) fun _ _ => ?_
  cases result with
  | none => exact .pure trivial
  | some cell => exact .map (builds_define _ _)

theorem builds_choose :
    Builds P view bound (choose ty condition positive negative positiveArm negativeArm)
      (texts ++ (more ++ rest)) := by
  rw [choose_eq]
  split
  · exact builds_chooseInto hcondition hpos hneg
  · exact .bind (builds_createCell _ _) fun _ _ =>
      builds_chooseInto hcondition hpos hneg

end

theorem builds_joinStrings (lhs rhs : Operand) : Builds P view bound (joinStrings lhs rhs) := by
  refine .bind (builds_define _ _) fun left _ => .bind (builds_define _ _) fun right _ => ?_
  refine .bind (builds_arith _ _ _) fun length _ => .bind (builds_arith _ _ _) fun bytes _ => ?_
  refine .bind (builds_define _ _) fun buffer _ => .bind (builds_emit _) fun _ _ => ?_
  exact .bind (builds_emit _) fun _ _ => .pure trivial

theorem builds_operate {usual : Operand → Operand → Build Operand}
    (husual : Builds P view bound (usual left right)) :
    Builds P view bound (operate op leftType rightType usual left right) := by
  unfold operate
  split
  · unfold stringOperation
    split
    · exact builds_joinStrings _ _
    · split
      · exact builds_define _ _
      · exact .throw
  · exact husual

theorem builds_compareValues (condition : Condition) (ty : Source.Ty) (left right : Operand) :
    Builds P view bound (compareValues condition ty left right) := by
  unfold compareValues
  split
  · refine .bind (builds_asStorage _) fun _ _ => .bind (builds_asStorage _) fun _ _ => ?_
    exact builds_define _ _
  · exact builds_define _ _

theorem builds_stepPlace (op : ArithOp) (address : Operand) (ty : Ty) :
    Builds P view bound (stepPlace op address ty) :=
  .bind (builds_define _ _) fun _ _ => .bind (builds_arith _ _ _) fun _ _ =>
    .bind (builds_emit _) fun _ _ => .pure trivial

theorem builds_stepExpr (op : ArithOp) (asPlace : Bool) (e : Expr) (operand : Lowered) :
    Builds P view bound (stepExpr op asPlace e operand) :=
  .bind (builds_toPlace _ _) fun _ _ => .bind (builds_stepPlace _ _ _) fun _ _ => .pure trivial

theorem builds_lowerUnary (op : Source.UnaryOp) (e : Expr) (operand : Lowered) :
    Builds P view bound (lowerUnary op e operand) := by
  cases op with
  | plus => exact .map (builds_toValue _ _)
  | negate => exact .map (.bind (builds_toValue _ _) fun _ _ => builds_arith _ _ _)
  | bitNot => exact .map (.bind (builds_toValue _ _) fun _ _ => builds_arith _ _ _)
  | logicalNot =>
    refine .bind (builds_toCondition _ _) fun condition _ => ?_
    split
    · exact .pure trivial
    · exact .map (builds_arith _ _ _)
  | _ => exact builds_stepExpr _ _ _ _

theorem builds_callResult (symbol : String) (arguments : List Operand) (ty : Source.Ty) :
    Builds P view bound (Context.callResult symbol arguments ty) := by
  unfold Context.callResult
  simp only
  split
  · exact .bind (builds_emit _) fun _ _ => .pure trivial
  · exact .map (builds_define _ _)

theorem builds_newObject (ctx : Context) (className : String) :
    Builds P view bound (ctx.newObject className) := by
  refine .bind .ofExcept fun struct _ => .bind (builds_define _ _) fun memory _ => ?_
  refine .bind (builds_define _ _) fun object _ => ?_
  split
  · exact .bind (builds_emit _) fun _ _ => .pure trivial
  · exact .pure trivial

theorem builds_arrayBytes (count : Operand) (element : Ty) :
    Builds P view bound (arrayBytes count element) := by
  unfold arrayBytes
  split
  · exact .pure trivial
  · exact .bind (builds_arith _ _ _) fun _ _ => builds_arith _ _ _

def countedLoop (test : Build Operand) (body : Build Unit) : Build Unit :=
  withBlocks "new_end" "new_cond" "new_body" (fun _ => none)
    (fun _ condition => some (.jump condition)) fun next condition block => do
      jump condition
      switchTo condition
      terminate (.branch (← test) block next)
      armAt block condition body
      switchTo next

theorem builds_countedLoop (htest : Builds P view bound test) (hbody : Builds P view bound body) :
    Builds P view bound (countedLoop test body) := by
  refine builds_withBlocks fun next condition block hnext hcondition hblock => ?_
  refine .bind (builds_jump _) fun _ _ => .bind (builds_switchTo hcondition) fun _ _ => ?_
  refine .bind htest fun _ _ => .bind (builds_terminate _) fun _ _ => ?_
  exact .bind (builds_armAt hblock hbody) fun _ _ => builds_switchTo hnext

def fillItem (array : Operand) (element : Ty) (counter : RegisterId) (inner : Build Operand) :
    Build Unit := do
  let item ← inner
  let index ← load (.register counter) .int
  let place ← elementAddress array element index
  store item place
  let following ← arith .add index (int 1)
  store following (.register counter)

theorem fillArray_eq (array : Operand) (element : Ty) (count : Operand) (inner : Build Operand) :
    fillArray array element count inner = (do
      let counter ← createCell .int none
      store (int 0) (.register counter)
      countedLoop (do compare .slt (← load (.register counter) .int) count)
        (fillItem array element counter inner)) := by
  simp only [fillArray, countedLoop, withBlocks, fillItem, armAt, bind_assoc]

theorem builds_fillItem (hinner : Builds P view bound inner) :
    Builds P view bound (fillItem array element counter inner) := by
  refine .bind hinner fun item _ => .bind (builds_define _ _) fun index _ => ?_
  refine .bind (builds_define _ _) fun place _ => .bind (builds_emit _) fun _ _ => ?_
  exact .bind (builds_arith _ _ _) fun following _ => builds_emit _

theorem builds_fillArray (hinner : Builds P view bound inner) :
    Builds P view bound (fillArray array element count inner) := by
  rw [fillArray_eq]
  refine .bind (builds_createCell _ _) fun counter _ => .bind (builds_emit _) fun _ _ => ?_
  refine builds_countedLoop ?_ (builds_fillItem hinner)
  exact .bind (builds_define _ _) fun _ _ => builds_define _ _

theorem builds_newArray (ty : Ty) (counts : List Operand) :
    Builds P view bound (newArray ty counts) := by
  induction counts generalizing ty with
  | nil => exact .throw
  | cons count inner ih =>
    unfold newArray
    split
    · rename_i element _
      refine .bind (builds_arrayBytes _ _) fun bytes _ => .bind (builds_define _ _)
        fun memory _ => ?_
      refine .bind (builds_define _ _) fun header _ => .bind (builds_emit _) fun _ _ => ?_
      refine .bind (builds_define _ _) fun first _ => .bind (builds_define _ _) fun array _ => ?_
      split
      · exact .pure trivial
      · exact .bind (builds_fillArray (ih element)) fun _ _ => .pure trivial
    · exact .throw

theorem builds_arrayLength (array : Operand) : Builds P view bound (arrayLength array) :=
  .bind (builds_define _ _) fun _ _ => .bind (builds_define _ _) fun _ _ => builds_define _ _

theorem Context.methodCallee_cases {ctx : Context} {method : String} {callee : Callee}
    (h : ctx.methodCallee ty method = .ok callee) :
    callee = .arrayLength ∧ ty.isArray = true ∨
      ∃ symbol, callee = .function symbol ∧ ty.isArray = false := by
  unfold methodCallee at h
  repeat' split at h
  all_goals cases h
  all_goals simp_all

mutual

theorem builds_lowerExpr (ctx : Context) (e : Expr) :
    Builds P view bound (ctx.lowerExpr e) e.texts := by
  cases e with
  | literal ty value =>
    rw [Context.lowerExpr, Expr.texts]
    exact .map (builds_lowerLiteral value)
  | this ty =>
    rw [Context.lowerExpr, Expr.texts]
    split
    · exact .pure trivial
    · exact .throw
  | ident ty name =>
    rw [Context.lowerExpr, Expr.texts]
    exact .bind (builds_resolve ctx name) fun _ _ => .pure trivial
  | binary ty op lhs rhs =>
    rw [Context.lowerExpr, Expr.texts]
    split
    · refine .map (builds_shortCircuit ?_ ?_)
      · exact .last (builds_lowerExpr ctx lhs) fun _ _ => builds_toCondition _ _
      · exact .last (builds_lowerExpr ctx rhs) fun _ _ => builds_toStorage _ _
    · refine .both (builds_lowerExpr ctx lhs) fun _ _ => .bind (builds_toValue _ _) fun left _ => ?_
      refine .last (builds_lowerExpr ctx rhs) fun _ _ => .bind (builds_toValue _ _)
        fun right _ => ?_
      exact .map (builds_operate (builds_arith _ _ _))
    · refine .both (builds_lowerExpr ctx lhs) fun _ _ => .bind (builds_toValue _ _) fun left _ => ?_
      refine .last (builds_lowerExpr ctx rhs) fun _ _ => .bind (builds_toValue _ _)
        fun right _ => ?_
      exact .map (builds_operate (builds_compareValues _ _ _ _))
  | unary ty op operand =>
    rw [Context.lowerExpr, Expr.texts]
    exact .last (builds_lowerExpr ctx operand) fun _ _ => builds_lowerUnary _ _ _
  | assign ty target value =>
    rw [Context.lowerExpr, Expr.texts]
    refine .both (builds_lowerExpr ctx value) fun _ _ => .bind (builds_toValue _ _) fun _ _ => ?_
    refine .last (builds_lowerExpr ctx target) fun _ _ => .bind (builds_toPlace _ _) fun _ _ => ?_
    refine .bind (builds_asStorage _) fun _ _ => .bind (builds_emit _) fun _ _ => ?_
    exact .pure trivial
  | choice ty condition positive negative =>
    rw [Context.lowerExpr, Expr.texts]
    refine builds_choose ?_ (builds_lowerExpr ctx positive) (builds_lowerExpr ctx negative)
    exact .last (builds_lowerExpr ctx condition) fun _ _ => builds_toCondition _ _
  | call ty function arguments =>
    rw [Context.lowerExpr, Expr.texts]
    refine .bind .ofExcept fun symbol _ => ?_
    refine .last (builds_lowerEach ctx builds_asStorage arguments) fun _ _ => ?_
    exact builds_callResult _ _ _
  | callMethod ty object method arguments =>
    rw [Context.lowerExpr, Expr.texts]
    refine .bind .ofExcept fun callee hcallee => ?_
    rcases Context.methodCallee_cases hcallee with ⟨rfl, harray⟩ | ⟨symbol, rfl, harray⟩
    · rw [harray, if_pos rfl, List.append_nil]
      refine .map (.last (builds_lowerExpr ctx object) fun _ _ => ?_)
      exact .bind (builds_toValue _ _) fun _ _ => builds_arrayLength _
    · rw [harray, if_neg (by simp)]
      refine .both (builds_lowerExpr ctx object) fun _ _ => .bind (builds_toValue _ _) fun _ _ => ?_
      refine .last (builds_lowerEach ctx builds_asStorage arguments) fun _ _ => ?_
      exact builds_callResult _ _ _
  | element ty array position =>
    rw [Context.lowerExpr, Expr.texts]
    refine .both (builds_lowerExpr ctx array) fun _ _ => .bind (builds_toValue _ _) fun _ _ => ?_
    refine .last (builds_lowerExpr ctx position) fun _ _ => .bind (builds_toValue _ _) fun _ _ => ?_
    exact .bind (builds_define _ _) fun _ _ => .pure trivial
  | member ty object field =>
    rw [Context.lowerExpr, Expr.texts]
    split
    · refine .last (builds_lowerExpr ctx object) fun _ _ => .bind (builds_toValue _ _) fun _ _ => ?_
      exact .bind (builds_memberAddress _ _ _ _) fun _ _ => .pure trivial
    · exact .throw
  | new ty allocated counts =>
    rw [Context.lowerExpr, Expr.texts]
    split
    · refine .last (builds_lowerEach ctx (fun _ => .pure trivial) counts) fun _ _ => ?_
      exact .map (builds_newArray _ _)
    · split
      · exact .map (builds_newObject _ _)
      · exact .throw

theorem builds_lowerEach (ctx : Context) {finish : Operand → Build Operand}
    (hfinish : ∀ o, Builds P view bound (finish o)) (es : List Expr) :
    Builds P view bound (ctx.lowerEach finish es) (Source.textsOf es) := by
  cases es with
  | nil =>
    rw [Context.lowerEach, Source.textsOf]
    exact .pure trivial
  | cons e rest =>
    rw [Context.lowerEach, Source.textsOf]
    refine .both (builds_lowerExpr ctx e) fun _ _ => .bind (builds_toValue _ _) fun _ _ => ?_
    refine .bind (hfinish _) fun _ _ => ?_
    exact .last (builds_lowerEach ctx hfinish rest) fun _ _ => .pure trivial

end

/-! ## Statements -/

theorem builds_lowerStored (ctx : Context) (e : Expr) :
    Builds P view bound (ctx.lowerStored e) e.texts :=
  .last (builds_lowerExpr ctx e) fun _ _ => builds_toStorage _ _

theorem builds_lowerCondition (ctx : Context) (e : Expr) :
    Builds P view bound (ctx.lowerCondition e) e.texts :=
  .last (builds_lowerExpr ctx e) fun _ _ => builds_toCondition _ _

theorem builds_runExpr (ctx : Context) (e : Expr) : Builds P view bound (ctx.runExpr e) e.texts :=
  .map (builds_lowerExpr ctx e)

theorem builds_declare (name : String) (storage : Storage) (ty : Ty) :
    Builds P outerView bound (modifyScopes (·.declare name storage ty)) := by
  intro s a s' hstep _
  obtain rfl := modifyScopes_eq_ok hstep
  refine ⟨.refl, ?_, fun _ => rfl, trivial⟩
  rcases s.scopes with ⟨_ | ⟨scope, outer⟩⟩ <;> rfl

/-! ## Arms and loops -/

theorem branchOn_some (condition : Build Operand) (positive negative : Build Unit) :
    branchOn condition positive (some negative) = (do
      let chosen ← condition
      withFork "if_end" "if_then" "if_else" fun next first second =>
        fork (.branch chosen first second) first second next (inScope positive)
          (inScope negative)) := by
  simp only [branchOn, withBlocks, fork, armAt, bind_assoc]

theorem branchOn_none (condition : Build Operand) (positive : Build Unit) :
    branchOn condition positive none = (do
      let chosen ← condition
      let next ← createBlock "if_end" (← inheritedTerminator)
      let first ← createBlock "if_then" (some (.jump next))
      terminate (.branch chosen first next)
      armAt first next (inScope positive)
      switchTo next) := by
  simp only [branchOn, armAt, bind_assoc]

theorem builds_branchOn (hcondition : Builds P id bound condition texts)
    (hpos : Builds P outerView bound positive more)
    (hneg : ∀ step ∈ negative, Builds P outerView bound step rest)
    (hnone : negative = none → rest = []) :
    Builds P id bound (branchOn condition positive negative) (texts ++ (more ++ rest)) := by
  have hpos := builds_inScope hpos
  cases negative with
  | none =>
    rw [branchOn_none, hnone rfl]
    refine .both hcondition fun chosen _ => .bind builds_inheritedTerminator fun t _ => ?_
    refine .bind (builds_createBlock _ _) fun next hnext => ?_
    refine .bind (builds_createBlock _ _) fun first hfirst => .bind (builds_terminate _)
      fun _ _ => ?_
    exact .both (builds_armAt hfirst hpos) fun _ _ => builds_switchTo hnext
  | some step =>
    rw [branchOn_some]
    exact .both hcondition fun chosen _ => builds_withBlocks fun _ _ _ hnext hfirst hsecond =>
      builds_fork hfirst hsecond hnext hpos (builds_inScope (hneg step rfl))

theorem builds_loopBody (hblock : bound ≤ block.val) (hbody : Builds P outerView bound body texts) :
    Builds P id bound (loopBody targets block body) texts := by
  have hregion : Builds P id bound _ texts := builds_region { loop := some targets }
    (.bind (builds_switchTo hblock) fun _ _ => .last hbody fun _ _ =>
      builds_jump targets.continueTarget)
  simp only [bind_assoc] at hregion
  exact hregion

/-- Test for another round.  Without a condition there is always one. -/
def testAt (condition : Option (Build Operand)) (body next : BlockId) : Build Unit :=
  match condition with
  | some condition => do terminate (.branch (← condition) body next)
  | none => jump body

def stepAt (targets : LoopTargets) (step : Build Unit) : Build Unit :=
  match targets.step with
  | some block => armAt block targets.condition step
  | none => pure ()

def loopAt (targets : LoopTargets) (bodyBlock : BlockId) (condition : Option (Build Operand))
    (step body : Build Unit) : Build Unit := do
  jump targets.condition
  switchTo targets.condition
  testAt condition bodyBlock targets.next
  loopBody targets bodyBlock body
  stepAt targets step
  switchTo targets.next

theorem loopWhile_eq (condition : Build Operand) (body : Build Unit) :
    loopWhile condition body = withBlocks "while_end" "while_cond" "while_body" (fun _ => none)
      (fun _ conditionBlock => some (.jump conditionBlock)) fun next conditionBlock bodyBlock =>
        loopAt { condition := conditionBlock, step := none, next } bodyBlock (some condition)
          (pure ()) body := by
  simp only [loopWhile, withBlocks, loopAt, testAt, stepAt, bind_assoc, pure_bind]

theorem loopFor_eq (start step body : Build Unit) (condition : Option (Build Operand)) :
    loopFor start condition step body = inScope (do
      start
      withBlocks "for_end" "for_cond" "for_step" (fun _ => none)
        (fun _ conditionBlock => some (.jump conditionBlock))
          fun next conditionBlock stepBlock => do
          let bodyBlock ← createBlock "for_body" (some (.jump stepBlock))
          loopAt { condition := conditionBlock, step := some stepBlock, next } bodyBlock condition
            step body) := by
  cases condition <;> simp only [loopFor, withBlocks, loopAt, testAt, stepAt, armAt, bind_assoc]

theorem stepAt_cases (targets : LoopTargets) (step : Build Unit) :
    (∃ block, targets.step = some block ∧
      stepAt targets step = armAt block targets.condition step) ∨
    targets.step = none ∧ stepAt targets step = pure () := by
  cases hblock : targets.step with
  | some block => exact .inl ⟨block, rfl, by simp only [stepAt, hblock]⟩
  | none => exact .inr ⟨rfl, by simp only [stepAt, hblock]⟩

section

variable {condition : Option (Build Operand)}

theorem builds_testAt (hcondition : ∀ test ∈ condition, Builds P id bound test texts)
    (hnone : condition = none → texts = []) :
    Builds P id bound (testAt condition bodyBlock next) texts := by
  cases condition with
  | some condition => exact .last (hcondition condition rfl) fun _ _ => builds_terminate _
  | none =>
    rw [hnone rfl]
    exact builds_jump _

theorem builds_stepAt (htargets : ∀ block ∈ targets.step, bound ≤ block.val)
    (hstep : Builds P id bound step) : Builds P id bound (stepAt targets step) := by
  rcases stepAt_cases targets step with ⟨block, hblock, heq⟩ | ⟨-, heq⟩
  · rw [heq]
    exact builds_armAt (htargets block hblock) hstep
  · rw [heq]
    exact .pure trivial

theorem builds_loopAt (hnext : bound ≤ targets.next.val) (hcond : bound ≤ targets.condition.val)
    (hblock : bound ≤ bodyBlock.val)
    (htest : Builds P id bound (testAt condition bodyBlock targets.next) texts)
    (hstep : Builds P id bound (stepAt targets step) rest)
    (hbody : Builds P outerView bound body more) :
    Builds P id bound (loopAt targets bodyBlock condition step body) (texts ++ (more ++ rest)) := by
  refine .bind (builds_jump _) fun _ _ => .bind (builds_switchTo hcond) fun _ _ => ?_
  refine .both htest fun _ _ => .both (builds_loopBody hblock hbody) fun _ _ => ?_
  exact .last hstep fun _ _ => builds_switchTo hnext

theorem builds_loopWhile {condition : Build Operand}
    (hcondition : Builds P id bound condition texts)
    (hbody : Builds P outerView bound body more) :
    Builds P id bound (loopWhile condition body) (texts ++ more) := by
  rw [loopWhile_eq, ← List.append_nil more]
  exact builds_withBlocks fun _ _ _ hnext hcond hblock => builds_loopAt hnext hcond hblock
    (.last hcondition fun _ _ => builds_terminate _) (.pure trivial) hbody

theorem builds_loopFor (hstart : Builds P outerView bound start opening)
    (hcondition : ∀ test ∈ condition, Builds P id bound test texts)
    (hnone : condition = none → texts = []) (hstep : Builds P id bound step rest)
    (hbody : Builds P outerView bound body more) :
    Builds P id bound (loopFor start condition step body)
      (opening ++ (texts ++ (more ++ rest))) := by
  rw [loopFor_eq]
  refine builds_inScope (.both hstart fun _ _ => builds_withBlocks fun next conditionBlock stepBlock
    hnext hcond hstepBlock => .bind (builds_createBlock _ _) fun _ hblock => ?_)
  have hlast : Builds P id bound
    (stepAt { condition := conditionBlock, step := some stepBlock, next }
    step) rest := builds_armAt hstepBlock hstep
  exact (builds_loopAt hnext hcond hblock (builds_testAt hcondition hnone) hlast hbody).outer

end

theorem builds_declareLocals (ctx : Context) (vars : Source.VariableDef) :
    Builds P outerView bound (ctx.declareLocals vars) vars.texts := by
  unfold Context.declareLocals Source.VariableDef.texts
  induction vars.declarators with
  | nil => exact .pure trivial
  | cons d rest ih =>
    refine .both (Q := fun _ => True) ?_ fun _ _ => ih
    refine .bind (builds_createCell _ _) fun cell _ => ?_
    rcases d with ⟨name, _ | e⟩
    · exact builds_declare _ _ _
    · refine .last (builds_lowerStored ctx e) fun _ _ => .bind (builds_emit _) fun _ _ => ?_
      exact builds_declare _ _ _

theorem builds_loopTargets (ctx : Context) (statement : LoopControl) :
    Builds P view bound (ctx.loopTargets statement) := by
  refine .bind .get fun s _ => ?_
  split
  · exact .pure trivial
  · exact .throw

theorem builds_lowerReturn (ctx : Context) (value : Option Expr) :
    Builds P view bound (ctx.lowerReturn value) (Source.textsOf? value) := by
  have hjump : Builds P view bound (do jump (← get).function.exit) :=
    .bind .get fun _ _ => builds_jump _
  cases value with
  | none => exact hjump
  | some e =>
    rw [Context.lowerReturn]
    split
    · exact .last (builds_runExpr ctx e) fun _ _ => hjump
    · split
      · refine .last (builds_lowerStored ctx e) fun _ _ => .bind (builds_emit _) fun _ _ => ?_
        exact hjump
      · exact .last (Q := fun _ => True) .throw fun _ _ => hjump

theorem builds_lowerStart (ctx : Context) (start : Option Source.ForStart) :
    Builds P outerView bound (ctx.lowerStart start) (start.elim [] Source.ForStart.texts) := by
  rcases start with _ | vars | e
  · exact .pure trivial
  · exact builds_declareLocals ctx vars
  · exact builds_runExpr ctx e

mutual

theorem builds_lowerStmt (ctx : Context) (stmt : Stmt) (hstmt : ∀ vars, stmt ≠ .declare vars) :
    Builds P id bound (ctx.lowerStmt stmt) stmt.texts := by
  cases stmt with
  | block body =>
    rw [Context.lowerStmt, Stmt.texts]
    exact builds_inScope (builds_lowerStmts ctx body)
  | declare vars => exact absurd rfl (hstmt vars)
  | ifElse condition positive negative =>
    rw [Context.lowerStmt, Stmt.texts]
    have hneg : Builds P outerView bound _ _ := builds_lowerStmts ctx negative
    refine builds_branchOn (builds_lowerCondition ctx _) (builds_lowerStmts ctx positive) ?_ ?_
    · intro step hstep
      split at hstep
      · simp at hstep
      · obtain rfl := Option.mem_some_iff.mp hstep
        exact hneg
    · cases negative with
      | nil => exact fun _ => Source.textsIn.eq_1
      | cons => simp
  | whileLoop condition body =>
    rw [Context.lowerStmt, Stmt.texts]
    exact builds_loopWhile (builds_lowerCondition ctx _) (builds_lowerStmts ctx body)
  | forLoop start condition step body =>
    rw [Context.lowerStmt, Stmt.texts]
    refine builds_loopFor (builds_lowerStart ctx start) ?_ ?_ ?_ (builds_lowerStmts ctx body)
    · intro test htest
      obtain ⟨e, rfl, rfl⟩ := Option.mem_map.mp htest
      exact builds_lowerCondition ctx e
    · cases condition <;> simp [Source.textsOf?]
    · cases step with
      | none => exact .pure trivial
      | some e => exact builds_runExpr ctx e
  | breakLoop | continueLoop =>
    rw [Context.lowerStmt, Stmt.texts]
    exact .bind (builds_loopTargets ctx _) fun _ _ => builds_jump _
  | giveBack value =>
    rw [Context.lowerStmt, Stmt.texts]
    exact builds_lowerReturn ctx value
  | evaluate e =>
    rw [Context.lowerStmt, Stmt.texts]
    exact builds_runExpr ctx e
  | empty =>
    rw [Context.lowerStmt, Stmt.texts]
    exact .pure trivial

theorem builds_lowerStmts (ctx : Context) (body : List Stmt) :
    Builds P outerView bound (ctx.lowerStmts body) (Source.textsIn body) := by
  cases body with
  | nil =>
    rw [Context.lowerStmts, Source.textsIn]
    exact .pure trivial
  | cons stmt rest =>
    rw [Context.lowerStmts, Source.textsIn]
    refine .both (Q := fun _ => True) ?_ fun _ _ => builds_lowerStmts ctx rest
    cases stmt with
    | declare vars =>
      rw [Context.lowerStmt, Stmt.texts]
      exact builds_declareLocals ctx vars
    | _ => exact (builds_lowerStmt ctx _ (by simp)).outer

end

end

end MxStar.Flow
