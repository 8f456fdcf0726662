import MxStar.Flow.Unit
import MxStar.Proofs.Flow.BuildingBodies

/-!
# Scopes follow the text

What building a statement does to the scopes.  Every region that is opened is closed again,
so only a declaration leaves a trace: its names, in the innermost scope (`Gains`).

Inside a statement, the scopes at a point tell the loop around that point.  `Surrounds` takes
a step apart at another one that is run inside it; what is run before does not depend on the
inner step, so the state in which that begins is the state of the point.  From one place to
another inside it (`Place`), blocks and conditionals keep the innermost loop, and the body of
a loop begins with the blocks that the loop has just created.
-/

namespace MxStar.Flow

open Build
open Source (Expr Stmt VariableDef ForStart)

/-! ## What a statement leaves behind -/

/-- Only the innermost scope changes.  It keeps its loop, the given names stand for new cells
of the given type, and all other names for what they stood for. -/
def ScopeStack.Gains (ty : Ty) (names : List String) (before after : ScopeStack) : Prop :=
  ∃ inner inner' outer, before.scopes = inner :: outer ∧ after.scopes = inner' :: outer ∧
    inner'.loop = inner.loop ∧ (∀ name ∉ names, inner'.names[name]? = inner.names[name]?) ∧
    ∀ name ∈ names, ∃ cell, inner'.names[name]? = some (.cell cell, ty)

namespace ScopeStack

variable {ty : Ty} {s : ScopeStack}

theorem Gains.refl (ty : Ty) (hopen : s.scopes ≠ []) : s.Gains ty [] s := by
  obtain ⟨inner, outer, hs⟩ := List.exists_cons_of_ne_nil hopen
  exact ⟨inner, inner, outer, hs, hs, rfl, fun _ _ => rfl, by simp⟩

theorem Gains.trans (h : s.Gains ty names s') (h' : s'.Gains ty names' s'') :
    s.Gains ty (names ++ names') s'' := by
  obtain ⟨inner, inner1, outer, hs, hs1, hloop, hkeep, hnew⟩ := h
  obtain ⟨inner1', inner2, outer', hs1', hs2, hloop', hkeep', hnew'⟩ := h'
  obtain ⟨rfl, rfl⟩ := List.cons.inj (hs1.symm.trans hs1')
  refine ⟨inner, inner2, outer, hs, hs2, hloop'.trans hloop, fun name hname => ?_,
    fun name hname => ?_⟩
  · rw [List.mem_append, not_or] at hname
    exact (hkeep' name hname.2).trans (hkeep name hname.1)
  · by_cases hlater : name ∈ names'
    · exact hnew' name hlater
    · rw [hkeep' name hlater]
      exact hnew name ((List.mem_append.mp hname).resolve_right hlater)

theorem gains_declare (hopen : s.scopes ≠ []) (name : String) (cell : RegisterId) (ty : Ty) :
    s.Gains ty [name] (s.declare name (.cell cell) ty) := by
  obtain ⟨inner, outer, hs⟩ := List.exists_cons_of_ne_nil hopen
  have hdeclare : (s.declare name (.cell cell) ty).scopes =
      { inner with names := inner.names.insert name (.cell cell, ty) } :: outer := by
    simp only [declare, hs]
  refine ⟨inner, _, outer, hs, hdeclare, rfl, fun other hother => ?_, fun other hother => ?_⟩
  · rw [List.mem_singleton] at hother
    simp [Std.ExtTreeMap.getElem?_insert, Ne.symm hother]
  · obtain rfl := List.mem_singleton.mp hother
    exact ⟨cell, by simp⟩

theorem Gains.open (h : s.Gains ty names s') : s'.scopes ≠ [] := by
  obtain ⟨_, _, _, -, hs', -⟩ := h
  simp [hs']

end ScopeStack

variable {ctx : Context} {s s' : Builder}

theorem Builds.scopes_eq {α : Type} {step : Build α} {texts : List String} {Q : α → Prop} {a : α}
    (h : Builds False id 0 step texts Q) (hstep : step s = .ok a s') : s'.scopes = s.scopes :=
  (h hstep (Nat.zero_le _)).2.1

theorem scopes_of_declarator {ty : Ty} {d : Source.Declarator} (h : (do
      let cell ← createCell ty (some d.name)
      if let some initial := d.initial then
        store (← ctx.lowerStored initial) (.register cell)
      modifyScopes (·.declare d.name (.cell cell) ty) : Build Unit) s = .ok () s') :
    ∃ cell, s'.scopes = s.scopes.declare d.name (.cell cell) ty := by
  obtain ⟨cell, s1, hcell, hrest⟩ := EStateM.bind_eq_ok.mp h
  have hscopes1 := (builds_createCell ty (some d.name)).scopes_eq hcell
  refine ⟨cell, ?_⟩
  cases hinit : d.initial with
  | none =>
    simp only [hinit] at hrest
    rw [modifyScopes_eq_ok hrest, hscopes1]
  | some initial =>
    simp only [hinit] at hrest
    obtain ⟨value, s2, hvalue, _, s3, hstore, hdeclare⟩ := EStateM.bind2_eq_ok.mp hrest
    rw [modifyScopes_eq_ok hdeclare, (builds_emit _).scopes_eq hstore,
      (builds_lowerStored ctx initial).scopes_eq hvalue, hscopes1]

theorem gains_declareLocals (hopen : s.scopes.scopes ≠ [])
    (h : ctx.declareLocals vars s = .ok () s') :
    s.scopes.Gains (.ofSource vars.ty) (vars.declarators.map Source.Declarator.name) s'.scopes := by
  unfold Context.declareLocals at h
  generalize vars.declarators = declarators at h ⊢
  induction declarators generalizing s with
  | nil =>
    obtain ⟨-, rfl⟩ := EStateM.pure_eq_ok.mp h
    exact .refl _ hopen
  | cons d rest ih =>
    obtain ⟨_, s1, hfirst, hrest⟩ := EStateM.bind_eq_ok.mp h
    obtain ⟨cell, hscopes⟩ := scopes_of_declarator hfirst
    have hgains := ScopeStack.gains_declare hopen d.name cell (.ofSource vars.ty)
    rw [← hscopes] at hgains
    exact hgains.trans (ih hgains.open hrest)

/-- What a statement does to the scopes.  A declaration declares its names in the innermost
one.  After any other statement all scopes are as before, and with them what each name stands
for and which loop is the innermost one. -/
def Lexical (before after : ScopeStack) : Stmt → Prop
  | .declare vars =>
    before.Gains (.ofSource vars.ty) (vars.declarators.map Source.Declarator.name) after
  | _ => after = before

theorem lexical_lowerStmt {stmt : Stmt} (hopen : s.scopes.scopes ≠ [])
    (h : ctx.lowerStmt stmt s = .ok () s') : Lexical s.scopes s'.scopes stmt := by
  cases stmt with
  | declare vars =>
    rw [Context.lowerStmt] at h
    exact gains_declareLocals hopen h
  | _ => exact (builds_lowerStmt ctx _ (by simp)).scopes_eq h

/-! ## Points inside a step -/

/-- A step is run inside `frame`, in a state that `reaches` relates to the one the frame
begins in.  What the frame does before and after does not depend on the step. -/
def Surrounds (frame : Build Unit → Build Unit) (reaches : Builder → Builder → Prop) : Prop :=
  ∃ (α : Type) (before : Build α) (after : α → Build Unit),
    (∀ step, frame step = before >>= fun a => step >>= fun _ => after a) ∧
    ∀ s a t, before s = .ok a t → reaches s t

def SameLoop (s t : Builder) : Prop :=
  t.scopes.innermostLoop? = s.scopes.innermostLoop?

namespace Surrounds

variable {α : Type} {frame inner : Build Unit → Build Unit} {R R' : Builder → Builder → Prop}

theorem self : Surrounds (fun step => step) SameLoop := by
  refine ⟨Unit, pure (), fun _ => pure (), by simp, fun s a t h => ?_⟩
  obtain ⟨-, rfl⟩ := EStateM.pure_eq_ok.mp h
  rfl

theorem mono (h : Surrounds frame R) (hR : ∀ s t, R s t → R' s t) : Surrounds frame R' := by
  obtain ⟨β, before, after, heq, hbefore⟩ := h
  exact ⟨β, before, after, heq, fun s a t hstep => hR s t (hbefore s a t hstep)⟩

theorem andThen (h : Surrounds frame R) (k : Unit → Build Unit) :
    Surrounds (fun step => frame step >>= k) R := by
  obtain ⟨β, before, after, heq, hR⟩ := h
  exact ⟨β, before, fun b => after b >>= k, by simp [heq], hR⟩

variable {first : Build α}

theorem begin {frame : α → Build Unit → Build Unit} {R : α → Builder → Builder → Prop}
    (h : ∀ a, Surrounds (frame a) (R a)) (hR : ∀ s a s1 t, first s = .ok a s1 → R a s1 t → R' s t) :
    Surrounds (fun step => first >>= fun a => frame a step) R' := by
  choose β before after heq hbefore using h
  refine ⟨Σ a, β a, first >>= fun a => before a >>= fun b => pure ⟨a, b⟩, fun p => after p.1 p.2,
    by simp [heq], fun s p t hstep => ?_⟩
  obtain ⟨a, s1, hfirst, hrest⟩ := EStateM.bind_eq_ok.mp hstep
  obtain ⟨b, hb, -⟩ := EStateM.bind_pure_eq_ok.mp hrest
  exact hR s a s1 t hfirst (hbefore a s1 b t hb)

theorem comp (h : Surrounds frame R) (h' : Surrounds inner R') :
    Surrounds (fun step => frame (inner step)) fun s t => ∃ s1, R s s1 ∧ R' s1 t := by
  obtain ⟨β, before, after, heq, hR⟩ := h
  simp only [heq]
  exact .begin (R := fun _ => R') (fun b => h'.andThen fun _ => after b)
    fun s b s1 t hbefore hR' => ⟨s1, hR s b s1 hbefore, hR'⟩

theorem skip {frame : α → Build Unit → Build Unit} {Q : α → Prop}
    (hfirst : Builds False outerView 0 first texts Q) (h : ∀ a, Surrounds (frame a) SameLoop) :
    Surrounds (fun step => first >>= fun a => frame a step) SameLoop :=
  .begin h fun _ _ _ _ hrun hsame =>
    Eq.trans hsame (congrArg Prod.snd (hfirst hrun (Nat.zero_le _)).2.1)

theorem pass {frame : α → Build Unit → Build Unit} {P : Builder → Prop}
    (h : ∀ a, Surrounds (frame a) fun _ => P) :
    Surrounds (fun step => first >>= fun a => frame a step) fun _ => P :=
  .begin h fun _ _ _ _ _ hP => hP

end Surrounds

theorem surrounds_inScope : Surrounds inScope SameLoop := by
  refine .begin (R := fun _ => SameLoop) (fun _ => Surrounds.self.andThen _)
    fun s _ s1 t hpush hsame => ?_
  rw [modifyScopes_eq_ok hpush] at hsame
  exact hsame

theorem surrounds_armAt (block next : BlockId) :
    Surrounds (fun step => armAt block next (inScope step)) SameLoop :=
  .skip (builds_switchTo (Nat.zero_le _)) fun _ => surrounds_inScope.andThen _

section

variable {condition : Build Operand} (hcond : Builds False outerView 0 condition texts)
include hcond

theorem surrounds_positive (negative : Option (Build Unit)) :
    Surrounds (fun step => branchOn condition step negative) SameLoop := by
  cases negative with
  | none =>
    simp only [branchOn_none]
    refine .skip hcond fun chosen => .skip builds_inheritedTerminator fun t => ?_
    refine .skip (builds_createBlock _ _) fun next => .skip (builds_createBlock _ _) fun first => ?_
    exact .skip (builds_terminate _) fun _ => (surrounds_armAt first next).andThen _
  | some step =>
    simp only [branchOn_some, withBlocks, fork]
    refine .skip hcond fun chosen => .skip builds_inheritedTerminator fun t => ?_
    refine .skip (builds_createBlock _ _) fun next => .skip (builds_createBlock _ _) fun first => ?_
    refine .skip (builds_createBlock _ _) fun second => .skip (builds_terminate _) fun _ => ?_
    exact (surrounds_armAt first next).andThen _

theorem surrounds_negative {positive : Build Unit} (hpos : Builds False outerView 0 positive more) :
    Surrounds (fun step => branchOn condition positive (some step)) SameLoop := by
  simp only [branchOn_some, withBlocks, fork]
  refine .skip hcond fun chosen => .skip builds_inheritedTerminator fun t => ?_
  refine .skip (builds_createBlock _ _) fun next => .skip (builds_createBlock _ _) fun first => ?_
  refine .skip (builds_createBlock _ _) fun second => .skip (builds_terminate _) fun _ => ?_
  refine .skip (builds_armAt (Nat.zero_le _) (builds_inScope hpos)).outer fun _ => ?_
  exact (surrounds_armAt second next).andThen _

end

/-! ## Loops -/

theorem surrounds_loopBody (targets : LoopTargets) (block : BlockId) :
    Surrounds (loopBody targets block) fun _ t => t.scopes.innermostLoop? = some targets := by
  refine .begin (R := fun _ => SameLoop) (fun _ => .skip (builds_switchTo (Nat.zero_le block.val))
    fun _ => Surrounds.self.andThen _) fun s _ s1 t hpush hsame => ?_
  rw [modifyScopes_eq_ok hpush] at hsame
  exact hsame

/-- The blocks that a `while` loop creates: its end and its condition, and the one for its body. -/
def openWhile : Build (LoopTargets × BlockId) := do
  let next ← createBlock "while_end" (← inheritedTerminator)
  let condition ← createBlock "while_cond" none
  let body ← createBlock "while_body" (some (.jump condition))
  return ({ condition, step := none, next }, body)

/-- The blocks that a `for` loop creates: its end, its condition and its step, and the one for
its body. -/
def openFor : Build (LoopTargets × BlockId) := do
  let next ← createBlock "for_end" (← inheritedTerminator)
  let condition ← createBlock "for_cond" none
  let step ← createBlock "for_step" (some (.jump condition))
  let body ← createBlock "for_body" (some (.jump step))
  return ({ condition, step := some step, next }, body)

def InLoop (create : Build (LoopTargets × BlockId)) (s : Builder)
    (innermost : Option LoopTargets) : Prop :=
  ∃ targets block s1, create s = .ok (targets, block) s1 ∧ innermost = some targets

theorem surrounds_loopAt (targets : LoopTargets) (block : BlockId)
    (condition : Option (Build Operand)) (step : Build Unit) :
    Surrounds (loopAt targets block condition step) fun _ t =>
      t.scopes.innermostLoop? = some targets :=
  .pass fun _ => .pass fun _ => .pass fun _ => (surrounds_loopBody targets block).andThen _

theorem surrounds_loopWhile (condition : Build Operand) :
    Surrounds (loopWhile condition) fun s t => InLoop openWhile s t.scopes.innermostLoop? := by
  have heq : loopWhile condition = fun body =>
      openWhile >>= fun p => loopAt p.1 p.2 (some condition) (pure ()) body := by
    funext body
    simp only [loopWhile_eq, withBlocks, openWhile, bind_assoc, pure_bind]
  rw [heq]
  exact .begin (fun p => surrounds_loopAt p.1 p.2 _ _)
    fun s p s1 t hcreate ht => ⟨p.1, p.2, s1, hcreate, ht⟩

theorem surrounds_loopFor (start step : Build Unit) (condition : Option (Build Operand)) :
    Surrounds (loopFor start condition step) fun s t => ∃ s1,
      start { s with scopes := s.scopes.push } = .ok () s1 ∧
        InLoop openFor s1 t.scopes.innermostLoop? := by
  have heq : loopFor start condition step = fun body => modifyScopes ScopeStack.push >>= fun _ =>
      (start >>= fun _ => openFor >>= fun p => loopAt p.1 p.2 condition step body) >>=
        fun _ => modifyScopes ScopeStack.pop := by
    funext body
    simp only [loopFor_eq, inScope, withBlocks, openFor, bind_assoc, pure_bind]
  rw [heq]
  refine .begin (R := fun _ s t => ∃ s1, start s = .ok () s1 ∧
      InLoop openFor s1 t.scopes.innermostLoop?)
    (fun _ => .andThen ?_ _) fun s _ s1 t hpush ht => by rwa [modifyScopes_eq_ok hpush] at ht
  refine .begin (R := fun _ s t => InLoop openFor s t.scopes.innermostLoop?) (fun _ => ?_)
    fun s _ s1 t hstart ht => ⟨s1, hstart, ht⟩
  exact .begin (fun p => surrounds_loopAt p.1 p.2 _ _)
    fun s p s1 t hcreate ht => ⟨p.1, p.2, s1, hcreate, ht⟩

/-! ## Places -/

/-- A place for statements, in a list of statements and any number of blocks and conditionals. -/
inductive Place : (List Stmt → List Stmt) → Prop
  | list (before after : List Stmt) : Place fun l => before ++ l ++ after
  | block : Place fun l => [.block l]
  | positive (condition : Expr) (negative : List Stmt) :
    Place fun l => [.ifElse condition l negative]
  | negative (condition : Expr) (positive : List Stmt) :
    Place fun l => [.ifElse condition positive l]
  | comp {c c' : List Stmt → List Stmt} (h : Place c) (h' : Place c') : Place fun l => c (c' l)

theorem lowerStmts_append (ctx : Context) (l l' : List Stmt) :
    ctx.lowerStmts (l ++ l') = ctx.lowerStmts l >>= fun _ => ctx.lowerStmts l' := by
  induction l with
  | nil => simp [Context.lowerStmts]
  | cons stmt rest ih => simp [Context.lowerStmts, ih]

theorem lowerStmts_singleton (ctx : Context) (stmt : Stmt) :
    ctx.lowerStmts [stmt] = ctx.lowerStmt stmt := by
  simp [Context.lowerStmts]

/-- Statements at the place `c` are lowered inside of `frame`, in a state that `reaches` relates
to the one the frame begins in. -/
structure FramedBy (ctx : Context) (c : List Stmt → List Stmt) (frame : Build Unit → Build Unit)
    (reaches : Builder → Builder → Prop) : Prop where
  eq : ∀ l ≠ [], c l ≠ [] ∧ ctx.lowerStmts (c l) = frame (ctx.lowerStmts l)
  surrounds : Surrounds frame reaches

namespace FramedBy

variable {ctx : Context} {c c' : List Stmt → List Stmt} {frame frame' : Build Unit → Build Unit}
  {R R' R'' : Builder → Builder → Prop}

theorem comp (h : FramedBy ctx c frame R) (h' : FramedBy ctx c' frame' R')
    (hR : ∀ s s1 t, R s s1 → R' s1 t → R'' s t) :
    FramedBy ctx (fun l => c (c' l)) (fun step => frame (frame' step)) R'' where
  eq := by
    intro l hl
    obtain ⟨hne, heq⟩ := h'.eq l hl
    obtain ⟨hne', heq'⟩ := h.eq _ hne
    exact ⟨hne', by rw [heq', heq]⟩
  surrounds := (h.surrounds.comp h'.surrounds).mono fun s t h => by
    obtain ⟨s1, h1, h2⟩ := h
    exact hR s s1 t h1 h2

theorem anywhere (h : FramedBy ctx c frame R) : FramedBy ctx c frame fun _ _ => True :=
  ⟨h.eq, h.surrounds.mono fun _ _ _ => trivial⟩

variable (ctx)

theorem list (before after : List Stmt) : FramedBy ctx (fun l => before ++ l ++ after)
    (fun step => ctx.lowerStmts before >>= fun _ => step >>= fun _ => ctx.lowerStmts after)
    SameLoop where
  eq := fun l hl => ⟨by simp [hl], by simp [lowerStmts_append]⟩
  surrounds := .skip (builds_lowerStmts ctx before) fun _ => Surrounds.self.andThen _

theorem block : FramedBy ctx (fun l => [.block l]) inScope SameLoop where
  eq := fun l _ => ⟨by simp, by rw [lowerStmts_singleton, Context.lowerStmt]⟩
  surrounds := surrounds_inScope

theorem positive (condition : Expr) (negative : List Stmt) :
    FramedBy ctx (fun l => [.ifElse condition l negative])
      (fun step => branchOn (ctx.lowerCondition condition) step
        (if negative.isEmpty then none else some (ctx.lowerStmts negative))) SameLoop where
  eq := fun l _ => ⟨by simp, by rw [lowerStmts_singleton, Context.lowerStmt]⟩
  surrounds := surrounds_positive (builds_lowerCondition ctx condition).outer _

theorem negative (condition : Expr) (positive : List Stmt) :
    FramedBy ctx (fun l => [.ifElse condition positive l])
      (fun step => branchOn (ctx.lowerCondition condition) (ctx.lowerStmts positive) (some step))
      SameLoop where
  eq := by
    intro l hl
    refine ⟨by simp, ?_⟩
    rw [lowerStmts_singleton, Context.lowerStmt, if_neg (by simpa using hl)]
  surrounds := surrounds_negative (builds_lowerCondition ctx condition).outer
    (builds_lowerStmts ctx positive)

end FramedBy

theorem Place.exists_framedBy {c : List Stmt → List Stmt} (h : Place c) (ctx : Context) :
    ∃ frame, FramedBy ctx c frame SameLoop := by
  induction h with
  | list before after => exact ⟨_, .list ctx before after⟩
  | block => exact ⟨_, .block ctx⟩
  | positive condition negative => exact ⟨_, .positive ctx condition negative⟩
  | negative condition positive => exact ⟨_, .negative ctx condition positive⟩
  | comp _ _ ih ih' =>
    obtain ⟨frame, hframe⟩ := ih
    obtain ⟨frame', hframe'⟩ := ih'
    exact ⟨_, hframe.comp hframe' fun _ _ _ h1 h2 => h2.trans h1⟩

theorem Place.frame_loop {c : List Stmt → List Stmt} (h : Place c) (ctx : Context)
    {loop : Build Unit → Build Unit} {R : Builder → Option LoopTargets → Prop}
    (hloop : Surrounds loop fun s t => R s t.scopes.innermostLoop?) :
    ∃ frame, (∀ l ≠ [], loop (ctx.lowerStmts (c l)) = frame (ctx.lowerStmts l)) ∧
      Surrounds frame fun s t => R s t.scopes.innermostLoop? := by
  obtain ⟨frame, hframe⟩ := h.exists_framedBy ctx
  refine ⟨fun step => loop (frame step), fun l hl => by rw [(hframe.eq l hl).2], ?_⟩
  refine (hloop.comp hframe.surrounds).mono ?_
  rintro s t ⟨s1, h1, h2⟩
  rwa [h2]

/-- **Scopes follow the text.**  A statement leaves the scopes as it found them, but for the
names it declares itself in the innermost one.  At every place in the body of a loop, in
blocks and conditionals but not in an inner loop, the innermost loop is the one that has just
created its blocks. -/
theorem Context.scopes_follow_text (ctx : Context) :
    (∀ s s', openBlocks s = .ok () s' → s'.scopes.scopes ≠ []) ∧
    (∀ stmt s s', s.scopes.scopes ≠ [] → ctx.lowerStmt stmt s = .ok () s' →
      Lexical s.scopes s'.scopes stmt) ∧
    (∀ c, Place c → ∀ condition, ∃ frame,
      (∀ l ≠ [], ctx.lowerStmt (.whileLoop condition (c l)) = frame (ctx.lowerStmts l)) ∧
      Surrounds frame fun s t => InLoop openWhile s t.scopes.innermostLoop?) ∧
    (∀ c, Place c → ∀ start condition step, ∃ frame,
      (∀ l ≠ [], ctx.lowerStmt (.forLoop start condition step (c l)) = frame (ctx.lowerStmts l)) ∧
      Surrounds frame fun s t => ∃ s1,
        ctx.lowerStart start { s with scopes := s.scopes.push } = .ok () s1 ∧
        InLoop openFor s1 t.scopes.innermostLoop?) := by
  refine ⟨fun s s' h => ?_, fun stmt s s' => lexical_lowerStmt, fun c hc condition => ?_,
    fun c hc start condition step => ?_⟩
  · injection h with _ hs'
    rw [← hs']
    simp [ScopeStack.push]
  · simp only [Context.lowerStmt]
    exact hc.frame_loop ctx (R := InLoop openWhile) (surrounds_loopWhile _)
  · simp only [Context.lowerStmt]
    exact hc.frame_loop ctx (R := fun s innermost => ∃ s1,
      ctx.lowerStart start { s with scopes := s.scopes.push } = .ok () s1 ∧
        InLoop openFor s1 innermost) (surrounds_loopFor _ _ _)

/-- A `while` loop that is left from inside a block, lowered as the first statement of a body, and
the same block in a `for` loop. -/
theorem Context.scopes_follow_text_leave :
    let ctx : Context := { symbols := {}, structs := structsOf {}, globals := [], function := "f" }
    let always : Expr := .literal { base := .bool } (.boolean true)
    let start : Builder :=
      { function := { name := "f", returnType := .void }, strings := {},
        nextLabel := 0, log := #[] }
    ∃ s s' frame frame', openBlocks start = .ok () s ∧
      ctx.lowerStmt (.whileLoop always [.block [.breakLoop]]) s = .ok () s' ∧
      s'.scopes = s.scopes ∧
      ctx.lowerStmt (.whileLoop always [.block [.breakLoop]]) =
        frame (ctx.lowerStmts [.breakLoop]) ∧
      Surrounds frame (fun s t => InLoop openWhile s t.scopes.innermostLoop?) ∧
      ctx.lowerStmt (.forLoop none none none [.block [.breakLoop]]) =
        frame' (ctx.lowerStmts [.breakLoop]) ∧
      Surrounds frame' fun s t => ∃ s1,
        ctx.lowerStart none { s with scopes := s.scopes.push } = .ok () s1 ∧
        InLoop openFor s1 t.scopes.innermostLoop? := by
  intro ctx always start
  obtain ⟨hopen, hlexical, hwhile, hfor⟩ := ctx.scopes_follow_text
  have hruns : ((openBlocks >>= fun _ => ctx.lowerStmt (.whileLoop always [.block [.breakLoop]]))
      start).passes (fun _ => true) = true := by cbv
  obtain ⟨⟨⟩, s', hrun, -⟩ := EStateM.exists_of_passes hruns
  obtain ⟨⟨⟩, s, hblocks, hstmt⟩ := EStateM.bind_eq_ok.mp hrun
  obtain ⟨frame, heq, hframe⟩ := hwhile _ .block always
  obtain ⟨frame', heq', hframe'⟩ := hfor _ .block none none none
  exact ⟨s, s', frame, frame', hblocks, hstmt, hlexical _ s s' (hopen _ _ hblocks) hstmt,
    heq _ (by simp), hframe, heq' _ (by simp), hframe'⟩

end MxStar.Flow
