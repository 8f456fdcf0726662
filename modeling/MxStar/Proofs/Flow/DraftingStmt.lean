import MxStar.Proofs.Flow.DraftingExpr

/-!
# Statements keep the shape of a body

One rule for each step that builds a part of a statement.  It starts and leaves with
some end of the current block, and changes the names only by declaring some; the names
of a region are forgotten at its end.
-/

namespace MxStar.Flow

open Build
open Source (Typing Expr Stmt)

/-! ## Names in scope -/

variable {k : Unit → Build Unit}

namespace Plan.Names

variable {P : Plan} {κ : Facts} {known : Typing} {scopes : ScopeStack}

variable (h : P.Names κ known scopes)
include h

theorem congr (heq : P.typed → known = after) : P.Names κ after scopes := by
  intro name
  have hname := h name
  cases hresolve : scopes.resolve? name with
  | some found =>
    rw [hresolve] at hname
    exact ⟨hname.1, hname.2.1, fun htyped => heq htyped ▸ hname.2.2 htyped⟩
  | none =>
    rw [hresolve] at hname
    exact fun htyped => heq htyped ▸ hname htyped

theorem enter (hscope : scope.names = ∅) : P.Names κ known ⟨scope :: scopes.scopes⟩ := by
  intro name
  have hname := h name
  have hresolve : ScopeStack.resolve? ⟨scope :: scopes.scopes⟩ name = scopes.resolve? name := by
    simp [ScopeStack.resolve?, hscope]
  rwa [hresolve]

theorem declare (hr : κ.Gives r (Ty.ofSource ty).pointerTo) :
    P.Names κ (known.declare name ty) (scopes.declare name (.cell r) (.ofSource ty)) := by
  intro other
  have hother := h other
  rw [ScopeStack.resolve?_declare]
  by_cases heq : name = other
  · subst heq
    rw [if_pos rfl]
    refine ⟨Ty.isKept_ofSource ty, ⟨r, rfl, hr⟩, fun _ => ⟨ty, ?_, rfl⟩⟩
    simp [Source.Typing.declare]
  · have hdeclare : known.declare name ty other = known other := by
      rw [Source.Typing.declare, if_neg (Ne.symm heq)]
    rw [if_neg heq, hdeclare]
    exact hother

end Plan.Names

theorem At.congr (h : At P κ T W O N s) (heq : P.typed → N = N') : At P κ T W O N' s := by
  obtain ⟨⟨A, hs⟩, hmoved⟩ := h
  exact ⟨⟨A, hs.rescope (hs.names.congr heq) hs.outer le_rfl⟩, hmoved⟩

/-! ## Steps that build statements -/

/-- Control may leave and continue the loops around the innermost region. -/
def Facts.AllowsLoops (κ : Facts) (O : Surroundings) : Prop :=
  ∀ t, (O.2 = some t ∨ ∃ scope ∈ O.1, scope.loop = some t) →
    κ.Allows t.breakTarget ∧ κ.Allows t.continueTarget

theorem Facts.AllowsLoops.mono {κ κ' : Facts} {O : Surroundings} (h : κ.AllowsLoops O)
    (hle : κ ≤ κ') : κ'.AllowsLoops O :=
  fun t ht => ⟨(h t ht).1.mono hle, (h t ht).2.mono hle⟩

/-- A step that builds a statement wherever at least `κ` is known and the names are `N`: it
finds the current block with some end and leaves it so, with names for which `R` holds. -/
def Proceeds (P : Plan) (κ : Facts) (N : Typing) (step : Build Unit)
    (R : Typing → Prop) : Prop :=
  ∀ ⦃κ'⦄, κ ≤ κ' → ∀ T W O, κ'.AllowsLoops O → T.isSome →
    Extends P κ' T W O N step fun _ T' N' _ => T'.isSome ∧ R N'

/-- Such a step that finishes the current block: every register may be counted on after it. -/
def Halts (P : Plan) (κ : Facts) (N : Typing) (step : Build Unit) (R : Typing → Prop) : Prop :=
  ∀ ⦃κ'⦄, κ ≤ κ' → ∀ T W O, κ'.AllowsLoops O → T.isSome →
    Extends P κ' T W O N step fun κ'' T' N' _ => κ''.registers = Set.univ ∧ T'.isSome ∧ R N'

/-- Such a step that leaves the blocks `dead` behind. -/
def Buries (P : Plan) (κ : Facts) (N : Typing) (step : Build Unit) (R : Typing → Prop)
    (dead : Set BlockId) : Prop :=
  ∀ ⦃κ'⦄, κ ≤ κ' → ∀ T W O, κ'.AllowsLoops O → T.isSome → Drafts (At P κ' T W O N) step
    (Reaches P (κ'.bury dead) W O fun _ T' N' _ => T'.isSome ∧ R N')

section

variable {R : Typing → Prop} {dead dead' : Set BlockId}

theorem Proceeds.buries (h : Proceeds P κ N step R) : Buries P κ N step R ∅ :=
  fun κ' hle T W O hloops hT => (h hle T W O hloops hT).lower (by simp)

theorem Buries.proceeds (h : Buries P κ N step R dead) : Proceeds P κ N step R :=
  fun κ' hle T W O hloops hT => (h hle T W O hloops hT).lower (κ'.le_bury dead)

theorem Buries.mono (h : Buries P κ N step R dead) (hle : κ ≤ κ') : Buries P κ' N step R dead :=
  fun _ hle' => h (hle.trans hle')

end

namespace Proceeds

variable {P : Plan} {κ : Facts} {N : Typing} {R : Typing → Prop}

theorem of_offers {Q : Facts → Unit → Prop} (h : Offers P κ N step Q) :
    Proceeds P κ N step (· = N) :=
  fun _ hle T W O _ hT => (h hle T W O).closed hT

theorem nothing : Proceeds P κ N (pure ()) (· = N) :=
  of_offers (Q := fun _ _ => True) fun _ _ _ _ _ => .pure trivial

theorem bind (hx : Proceeds P κ N x (· = N')) (hk : Proceeds P κ N' (k ()) R) :
    Proceeds P κ N (x >>= k) R := by
  intro κ' hle T W O hloops hT
  refine Extends.bind (hx hle T W O hloops hT) fun _ κ1 T1 N1 h1 hT1 => ?_
  obtain ⟨hT1, rfl⟩ := hT1
  exact hk (hle.trans h1) T1 W O (hloops.mono h1) hT1

theorem of_value {α : Type} {x : Build α} {k : α → Build Unit} {Q : Facts → α → Prop}
    (hx : Offers P κ N x Q) (hk : ∀ a κ', κ ≤ κ' → Q κ' a → Proceeds P κ' N (k a) R) :
    Proceeds P κ N (x >>= k) R := by
  intro κ' hle T W O hloops hT
  refine (hx hle T W O).andThen fun a κ1 h1 ha => ?_
  exact Extends.mono (hk a κ1 (hle.trans h1) ha (le_refl κ1) T W O (hloops.mono h1) hT) h1
    fun _ _ _ _ _ h => h

/-- The names only matter if the source is well-typed. -/
theorem congr (h : Proceeds P κ N step (· = N')) (heq : P.typed → N' = after) :
    Proceeds P κ N step (· = after) := by
  intro κ' hle T W O hloops hT
  refine Drafts.mono (h hle T W O hloops hT) (fun _ hs => hs) ?_
  rintro _ s ⟨κ1, T1, N1, h1, ⟨hT1, rfl⟩, hs⟩
  exact ⟨κ1, T1, after, h1, ⟨hT1, rfl⟩, hs.congr heq⟩

theorem anywhere (h : Proceeds P κ N step R) : Proceeds P κ N step fun _ => True :=
  fun _ hle T W O hloops hT => Extends.mono (h hle T W O hloops hT) (le_refl _)
    fun _ _ _ _ _ h => ⟨h.1, trivial⟩

end Proceeds

namespace Halts

variable {P : Plan} {κ : Facts} {N : Typing} {R : Typing → Prop}

theorem proceeds (h : Halts P κ N step R) : Proceeds P κ N step R :=
  fun κ' hle T W O hloops hT => Extends.mono (h hle T W O hloops hT) (le_refl κ')
    fun _ _ _ _ _ h => h.2

theorem bind {R' : Typing → Prop} (hx : Proceeds P κ N x R')
    (hk : ∀ N', R' N' → Halts P κ N' (k ()) R) : Halts P κ N (x >>= k) R := by
  intro κ' hle T W O hloops hT
  refine Extends.bind (hx hle T W O hloops hT) fun _ κ1 T1 N1 h1 hQ => ?_
  exact hk N1 hQ.2 (hle.trans h1) T1 W O (hloops.mono h1) hQ.1

theorem of_value {α : Type} {x : Build α} {k : α → Build Unit} {Q : Facts → α → Prop}
    (hx : Offers P κ N x Q) (hk : ∀ a κ', κ ≤ κ' → Q κ' a → Halts P κ' N (k a) R) :
    Halts P κ N (x >>= k) R := by
  intro κ' hle T W O hloops hT
  refine (hx hle T W O).andThen fun a κ1 h1 ha => ?_
  exact Extends.mono (hk a κ1 (hle.trans h1) ha (le_refl κ1) T W O (hloops.mono h1) hT) h1
    fun _ _ _ _ _ h => h

theorem andThen (hx : Halts P κ N x R) (hk : ∀ N', R N' → Proceeds P κ N' (k ()) fun _ => True) :
    Halts P κ N (x >>= k) fun _ => True := by
  intro κ' hle T W O hloops hT
  refine Extends.bind (hx hle T W O hloops hT) fun _ κ1 T1 N1 h1 hQ => ?_
  refine Extends.mono (hk N1 hQ.2.2 (hle.trans h1) T1 W O (hloops.mono h1) hQ.2.1) (le_refl κ1)
    fun κ2 _ _ _ h2 h => ⟨Set.univ_subset_iff.mp ?_, h⟩
  exact hQ.1 ▸ (Facts.le_iff.mp h2).registers

end Halts

section

variable {P : Plan} {κ : Facts} {T : Option Terminator} {W : List Waiting} {O : Surroundings}
  {N : Typing} {ctx : Context}

open Plan

variable {step body : Build Unit} {R : Typing → Prop} {e : Expr} {after : Typing}
  {dead dead' : Set BlockId}

theorem drafts_region (scope : Scope) {change : ScopeStack → ScopeStack}
    {Q : Facts → Option Terminator → Prop} (hchange : ∀ s, change s = ⟨scope :: s.scopes⟩)
    (hscope : scope.names = ∅) (hgiven : κ.given ⊆ κ0.given) (htypes : κ.types ⊆ κ0.types)
    (hstep : ∀ O' : Surroundings, (∀ t, (O'.2 = some t ∨ ∃ scope ∈ O'.1, scope.loop = some t) →
      scope.loop = some t ∨ O.2 = some t ∨ ∃ scope ∈ O.1, scope.loop = some t) →
      Drafts (At P κ T W O' N) step (Reaches P κ0 W' O' fun κ' T' _ _ => Q κ' T')) :
    Drafts (At P κ T W O N) (do modifyScopes change; step; modifyScopes ScopeStack.pop)
      (Reaches P κ0 W' O fun κ' T' N' _ => Q κ' T' ∧ N' = N) := by
  rintro s ⟨⟨A, hs⟩, hmoved⟩
  -- All loops around the new region are its own, the innermost one before, or further out.
  have hloops : ∀ t, ((change s.scopes).outer.2 = some t ∨
      ∃ scope ∈ (change s.scopes).outer.1, scope.loop = some t) →
        scope.loop = some t ∨ O.2 = some t ∨ ∃ scope ∈ O.1, scope.loop = some t := by
    rw [hchange, ← hs.outer]
    rcases s.scopes with ⟨_ | ⟨inner, rest⟩⟩
    · simp only [ScopeStack.outer, ScopeStack.innermostLoop?, List.findSome?_cons]
      grind
    · simp only [ScopeStack.outer, ScopeStack.innermostLoop?, List.findSome?_cons, List.tail_cons]
      grind
  have hstart : At P κ T W (change s.scopes).outer N { s with scopes := change s.scopes } := by
    refine ⟨⟨A, hs.rescope ?_ rfl le_rfl⟩, hmoved.tail (.scopes s _)⟩
    rw [hchange]
    exact hs.names.enter hscope
  have hpop : Drafts (Reaches P κ0 W' (change s.scopes).outer (fun κ' T' _ _ => Q κ' T') ())
      (modifyScopes ScopeStack.pop) (Reaches P κ0 W' O fun κ' T' N' _ => Q κ' T' ∧ N' = N) := by
    rintro s' ⟨κ', T', N', hle, hT', ⟨A', hs'⟩, hmoved'⟩
    have hpopped : s'.scopes.pop = s.scopes := by
      have houter := congrArg Prod.fst hs'.outer
      rw [hchange] at houter
      rw [ScopeStack.pop, show s'.scopes.scopes.tail = s.scopes.scopes from houter]
    refine ⟨κ', T', N, hle, ⟨hT', rfl⟩, ⟨A', hs'.rescope ?_ ?_ le_rfl⟩, hmoved'.tail (.scopes s' _)⟩
    · rw [hpopped]
      exact hs.names.of_subset (hgiven.trans (Facts.le_iff.mp hle).given)
        (htypes.trans (Facts.le_iff.mp hle).types)
    · rw [hpopped]
      exact hs.outer
  exact (hstep _ hloops).bind (fun _ => hpop) _ hstart

theorem Buries.inScope (h : Buries P κ N step R dead) :
    Buries P κ N (inScope step) (· = N) dead := by
  intro κ' hle T W O hloops hT
  refine drafts_region {} (fun _ => rfl) rfl Set.Subset.rfl Set.Subset.rfl fun O' hO' => ?_
  refine (h hle T W O' (fun t ht => hloops t ?_) hT).mono (fun _ hs => hs) ?_
  · simpa using hO' t ht
  · rintro _ s ⟨κ1, T1, N1, h1, hQ, hs⟩
    exact ⟨κ1, T1, N1, h1, hQ.1, hs⟩

theorem Halts.inScope (h : Halts P κ N step R) : Halts P κ N (inScope step) (· = N) := by
  intro κ' hle T W O hloops hT
  refine Extends.mono (drafts_region (Q := fun κ T => κ.registers = Set.univ ∧ T.isSome) {}
    (fun _ => rfl) rfl Set.Subset.rfl Set.Subset.rfl fun O' hO' => ?_) (le_refl κ')
    fun _ _ _ _ _ h => ⟨h.1.1, h.1.2, h.2⟩
  refine Extends.mono (h hle T W O' (fun t ht => hloops t ?_) hT) (le_refl κ')
    fun _ _ _ _ _ h => ⟨h.1, h.2.1⟩
  simpa using hO' t ht

theorem Proceeds.inScope (h : Proceeds P κ N step R) : Proceeds P κ N (inScope step) (· = N) :=
  h.buries.inScope.proceeds

theorem offers_lowerStored (hctx : ctx.Suits P κ)
    (htyped : P.typed → e.suits P.symbols P.owner N ty = true) :
    Offers P κ N (ctx.lowerStored e) fun κ' o => P.Stored κ' (Ty.ofSource ty).shape o := by
  simp only [Source.Expr.suits, Bool.and_eq_true] at htyped
  intro κ' hle T W O
  refine .bind (offers_lowerExpr hctx e (fun h => (htyped h).1) hle T W O) fun _ _ _ h => ?_
  exact yields_toStorage (h.congr fun h => Ty.shape_ofSource_of_accepts (htyped h).2)

theorem offers_lowerCondition (hctx : ctx.Suits P κ)
    (htyped : P.typed → e.isTruth P.symbols P.owner N = true) :
    Offers P κ N (ctx.lowerCondition e) fun κ' o => P.IsCondition κ' o := by
  simp only [Source.Expr.isTruth, Bool.and_eq_true, decide_eq_true_eq] at htyped
  intro κ' hle T W O
  refine .bind (offers_lowerExpr hctx e (fun h => (htyped h).1) hle T W O) fun _ _ _ h => ?_
  refine yields_toCondition (h.congr fun h => ?_)
  rw [(htyped h).2]
  rfl

theorem proceeds_runExpr (hctx : ctx.Suits P κ)
    (htyped : P.typed → e.isWellTyped P.symbols P.owner N = true) :
    Proceeds P κ N (ctx.runExpr e) (· = N) := by
  refine .of_offers (Q := fun _ _ => True) fun _ hle T W O => ?_
  exact .map (.mono (offers_lowerExpr hctx e htyped hle T W O) fun _ _ _ _ => trivial)

/-! ## Conditionals and loops -/

theorem buries_branchOn {positive : Build Unit} {negative : Option (Build Unit)}
    (hcondition : Offers P κ N condition fun κ' o => P.IsCondition κ' o)
    (hpos : Buries P κ N positive R dead) (hneg : ∀ step ∈ negative, Buries P κ N step R dead') :
    Buries P κ N (branchOn condition positive negative) (· = N)
      {id | id ∈ dead ∨ id ∈ dead' ∧ negative.isSome} := by
  intro κ0 h0 T W O hloops hT
  refine Drafts.closed (Q := fun _ _ => True) ?_ hT
  have harm : ∀ {step dead}, Buries P κ N step R dead →
      ∀ ⦃κ'⦄, κ0 ≤ κ' → IsArm P κ' O N (inScope step) dead :=
    fun hstep κ' hle κ1 h1 T W =>
      hstep.inScope (h0.trans (hle.trans h1)) T W O (hloops.mono (hle.trans h1))
  cases negative with
  | none =>
    rw [branchOn_none]
    refine (hcondition h0 T W O).andThen fun chosen κ1 h1 hchosen =>
      drafts_inherit (by decide) fun next => ?_
    have hsplit := κ1.splits_openBlock next
    refine (drafts_createBlock_jump (by decide) (hsplit.allows _ (by simp))).bind fun first => ?_
    have hsplit := hsplit.openBlock first
    refine (drafts_terminate (fits_branch (hchosen.mono hsplit.le)
      (hsplit.allows _ (by simp)) (hsplit.allows _ (by simp)))).thenClosed fun κ2 T2 h2 hT2 => ?_
    refine (drafts_armAt (w := ⟨first, _, _⟩) (.refl _) hT2 h2 rfl rfl
      (harm hpos (h1.trans hsplit.le)) (hsplit.allows next (by simp))).thenClosed
      fun κ3 T3 h3 hT3 => ?_
    refine drafts_switchTo_next hT3 ?_ h3 rfl
    exact Facts.bury_le ((h1.trans hsplit.le).trans (Facts.le_bury _ dead))
      fun id hid => .inr (by simpa using hid)
  | some negative =>
    rw [branchOn_some]
    refine (hcondition h0 T W O).andThen fun chosen κ1 h1 hchosen => Drafts.lower (drafts_withFork
      (by decide) (by decide) (by decide) (fun κ' hle _ _ => fits_branch (hchosen.mono hle))
      (fun κ' hle => harm hpos (h1.trans hle))
      fun κ' hle => harm (hneg negative rfl) (h1.trans hle)) ?_
    have hfirst := κ1.le_bury dead
    have hsecond := (κ1.bury dead).le_bury dead'
    refine Facts.bury_le (h1.trans (hfirst.trans hsecond)) fun id hid => ?_
    rcases hid with hid | hid
    · exact .inl (.inr hid)
    · exact .inr hid.1

theorem drafts_loopBody (targets : LoopTargets) {w : Waiting} (hW : W.Perm (w :: W'))
    (hT : T.isSome) (hle : κ0 ≤ κ) (hw : w.known = κ0.registers) (hend : w.terminator.isSome)
    (hbody : Buries P κ0 N body R dead) (hloops : κ0.AllowsLoops O)
    (hbreak : κ0.Allows targets.breakTarget) (hcontinue : κ0.Allows targets.continueTarget) :
    Drafts (At P κ T W O N) (loopBody targets w.block body)
      (Closed P ((κ.within w.known).bury dead) W' O N) := by
  have heq : loopBody targets w.block body = (do
      modifyScopes (·.pushLoop targets)
      (do switchTo w.block; body; jump targets.continueTarget)
      modifyScopes ScopeStack.pop) := by
    simp only [loopBody, bind_assoc]
  rw [heq]
  refine drafts_region { loop := some targets } (fun _ => rfl) rfl Set.Subset.rfl Set.Subset.rfl
    fun O' hO' => ?_
  refine (drafts_switchTo hW hT).bind fun _ => ?_
  have h1 : κ0 ≤ κ.within w.known := hw ▸ Facts.le_within_of_le hle
  have hloops' : κ0.AllowsLoops O' := by
    intro t ht
    rcases hO' t ht with hown | houter
    · cases hown
      exact ⟨hbreak, hcontinue⟩
    · exact hloops t houter
  refine (hbody h1 _ _ _ (hloops'.mono h1) hend).andThen fun _ κ2 T2 N2 h2 _ => ?_
  have h3 := h1.trans ((Facts.le_bury _ dead).trans h2)
  exact Extends.mono (drafts_jump (hcontinue.mono h3)) h2 fun _ _ _ _ _ h => h.1

theorem drafts_loopAt {condition : Option (Build Operand)} (hle : κ0 ≤ κ)
    (hW : W.Perm (⟨targets.condition, none, κ.registers⟩ :: ⟨bodyBlock, Tbody, κ.registers⟩ :: W1))
    (hTbody : Tbody.isSome) (hloops : κ.AllowsLoops O) (hcond : κ.Allows targets.condition)
    (hblock : κ.Allows bodyBlock) (hnext : κ.Allows targets.next)
    (hcontinue : κ.Allows targets.continueTarget)
    (hcondition : ∀ test ∈ condition, Offers P κ N test fun κ' o => P.IsCondition κ' o)
    (hbody : Buries P κ N body R dead)
    (hstep : ∀ κ1 T1, κ.bury dead ≤ κ1 → T1.isSome → Drafts (At P κ1 T1 W1 O N)
      (stepAt targets step) (Closed P (κ.bury dead) (⟨targets.next, T', κ.registers⟩ :: W') O N)) :
    Drafts (At P κ T W O N) (loopAt targets bodyBlock condition step body)
      (Reaches P (κ0.bury dead) W' O fun _ T'' N' _ => T'' = T' ∧ N' = N ∧ True) := by
  refine (drafts_jump hcond).thenClosed fun κ1 T1 h1 hT1 => ?_
  refine (drafts_switchTo hW hT1).bind fun _ => ?_
  have h1 := Facts.le_within_of_le h1
  have htest : Drafts (At P (κ1.within κ.registers) none
    (⟨bodyBlock, Tbody, κ.registers⟩ :: W1) O N)
      (testAt condition bodyBlock targets.next)
      (Closed P κ (⟨bodyBlock, Tbody, κ.registers⟩ :: W1) O N) := by
    cases condition with
    | none => exact Extends.mono (drafts_jump (hblock.mono h1)) h1 fun _ _ _ _ _ h => h
    | some test =>
      refine (hcondition test rfl h1 _ _ _).andThen fun more κ2 h2 hmore => ?_
      have h2 := h1.trans h2
      exact Extends.mono (drafts_terminate (fits_branch hmore (hblock.mono h2) (hnext.mono h2))) h2
        fun _ _ _ _ _ h => h
  refine htest.thenClosed fun κ3 T3 h3 hT3 => ?_
  refine (drafts_loopBody targets (w := ⟨bodyBlock, _, _⟩) (.refl _) hT3 h3 rfl hTbody hbody hloops
    hnext hcontinue).thenClosed fun κ4 T4 h4 hT4 => ?_
  refine (hstep κ4 T4 ((Facts.bury_mono (Facts.le_within_of_le h3) dead).trans h4) hT4).thenClosed
    fun κ5 T5 h5 hT5 => ?_
  exact drafts_switchTo_next hT5 (Facts.bury_mono hle dead) h5 rfl

theorem buries_loopWhile (hcondition : Offers P κ N condition fun κ' o => P.IsCondition κ' o)
    (hbody : Buries P κ N body R dead) : Buries P κ N (loopWhile condition body) (· = N) dead := by
  intro κ0 h0 T W O hloops hT
  rw [loopWhile_eq]
  refine drafts_withBlocks (by decide) (by decide) (by decide) (by simp) (by simp)
    fun next conditionBlock bodyBlock κ1 hsplit => ?_
  have hle := h0.trans hsplit.le
  refine Drafts.closed (drafts_loopAt hsplit.le (.swap _ _ _) rfl (hloops.mono hsplit.le)
    (hsplit.allows _ (by simp)) (hsplit.allows _ (by simp)) (hsplit.allows _ (by simp))
    (hsplit.allows conditionBlock (by simp)) (by simpa using hcondition.mono hle) (hbody.mono hle)
    fun κ2 T2 h2 hT2 => ?_) hT
  exact .pure fun s hs => ⟨κ2, T2, N, h2, ⟨hT2, rfl⟩, hs⟩

theorem buries_loopFor {start : Build Unit} {condition : Option (Build Operand)}
    {inner : Typing} (hstart : Proceeds P κ N start (· = inner))
    (hcondition : ∀ test ∈ condition, Offers P κ inner test fun κ' o => P.IsCondition κ' o)
    (hstep : Proceeds P κ inner step (· = inner)) (hbody : Buries P κ inner body R dead) :
    Buries P κ N (loopFor start condition step body) (· = N) dead := by
  rw [loopFor_eq]
  refine Buries.inScope (R := (· = inner)) ?_
  intro κ0 h0 T W O hloops hT
  refine (hstart h0 T W O hloops hT).thenClosed fun κ1 T1 h1 hT1 => drafts_withBlocks (by decide)
    (by decide) (by decide) (by simp) (by simp) fun next conditionBlock stepBlock κ2 hsplit => ?_
  refine (drafts_createBlock_jump (by decide) (hsplit.allows stepBlock (by simp))).bind
    fun bodyBlock => ?_
  have hsplit := hsplit.openBlock bodyBlock
  have hle := h1.trans hsplit.le
  have hle0 := h0.trans hle
  refine Drafts.closed (drafts_loopAt hle (((List.Perm.swap _ _ _).cons _).trans (.swap _ _ _)) rfl
    (hloops.mono hle) (hsplit.allows _ (by simp)) (hsplit.allows _ (by simp))
    (hsplit.allows _ (by simp)) (hsplit.allows stepBlock (by simp))
    (fun test htest => (hcondition test htest).mono hle0) (hbody.mono hle0)
    fun κ3 T3 h3 hT3 => ?_) hT1
  have hbury := (κ2.openBlock bodyBlock).le_bury dead
  refine (drafts_armAt (w := ⟨stepBlock, _, _⟩) (.refl _) hT3 h3 rfl rfl (fun κ' h' T W => ?_)
    ((hsplit.allows conditionBlock (by simp)).mono hbury)).lower (Facts.le_bury _ ∅)
  have h' := hbury.trans h'
  exact hstep.buries (hle0.trans h') T W O (hloops.mono (hle.trans h'))

/-! ## Declarations, jumps and the walk over statements -/

theorem extends_declare (name : String) (h : κ.Gives cell (Ty.ofSource ty).pointerTo) :
    Extends P κ T W O N (modifyScopes (·.declare name (.cell cell) (.ofSource ty)))
      fun _ T' N' _ => T' = T ∧ N' = N.declare name ty := by
  rintro s ⟨⟨A, hs⟩, hmoved⟩
  refine ⟨κ, T, N.declare name ty, le_refl κ, ⟨rfl, rfl⟩,
    ⟨A, hs.rescope (hs.names.declare h) ?_ le_rfl⟩, hmoved.tail (.scopes s _)⟩
  rw [← hs.outer]
  rcases s.scopes with ⟨_ | ⟨inner, outer⟩⟩ <;> rfl

section

variable (hctx : ctx.Suits P κ) (vars : Source.VariableDef)
  (hsized : P.sized → ∀ ty ∈ vars.types, ty ≠ .void)
include hctx vars hsized

variable
  (htyped : P.typed →
    Source.declaredTyping? P.symbols P.owner N vars.ty vars.declarators = some after)
include htyped

theorem extends_declareLocals :
    Extends P κ T W O N (ctx.declareLocals vars) fun _ T' N' _ => T' = T ∧ N' = after := by
  obtain ⟨ty, declarators⟩ := vars
  simp only [Source.VariableDef.types] at htyped hsized
  unfold Context.declareLocals
  simp only
  induction declarators generalizing κ N with
  | nil =>
    refine Drafts.pure fun s hs => ⟨κ, T, after, le_refl κ, ⟨rfl, rfl⟩, hs.congr fun h => ?_⟩
    exact Option.some.inj (htyped h)
  | cons d rest ih =>
    have hinit : P.typed → (∀ e ∈ d.initial, e.suits P.symbols P.owner N ty = true) ∧
        Source.declaredTyping? P.symbols P.owner (N.declare d.name ty) ty rest = some after := by
      intro htype
      have h := htyped htype
      rw [Source.declaredTyping?] at h
      split at h
      · rename_i hall
        refine ⟨fun e he => ?_, h⟩
        rw [he] at hall
        exact hall
      · cases h
    have hkept := Ty.isKept_ofSource ty
    refine Extends.bind (Q := fun _ T' N' _ => T' = T ∧ N' = N.declare d.name ty) ?_
      fun _ κ1 T1 N1 h1 hnames => ?_
    · refine (yields_createCell hkept
        (fun h => Ty.ofSource_ne_void (hsized h ty (by simp))) _).andThen
        fun cell κ1 h1 hcell => ?_
      split
      · rename_i initial hsome
        refine (offers_lowerStored hctx (fun h => (hinit h).1 initial hsome) h1 T W O).andThen
          fun value κ2 h2 hvalue => ?_
        have hcell := hcell.mono h2
        refine (yields_store hvalue (place_of_gives hkept hcell)).andThen fun _ κ3 h3 _ => ?_
        exact Extends.mono (extends_declare d.name (hcell.mono h3)) ((h1.trans h2).trans h3)
          fun _ _ _ _ _ h => h
      · exact Extends.mono (extends_declare d.name hcell) h1 fun _ _ _ _ _ h => h
    · obtain ⟨rfl, rfl⟩ := hnames
      exact ih (hctx.mono h1) (fun h ty hty => hsized h ty (.tail _ hty)) fun h => (hinit h).2

theorem proceeds_declareLocals : Proceeds P κ N (ctx.declareLocals vars) (· = after) := by
  intro κ' hle T W O _ hT
  refine Extends.mono (extends_declareLocals (hctx.mono hle) vars hsized htyped) (le_refl κ') ?_
  rintro _ _ _ _ _ ⟨rfl, rfl⟩
  exact ⟨hT, rfl⟩

end

theorem halts_loopControl {target : LoopTargets → BlockId}
    (htarget : ∀ t, target t = t.breakTarget ∨ target t = t.continueTarget) :
    Halts P κ N (do jump (target (← ctx.loopTargets statement))) (· = N) := by
  intro κ0 h0 T W O hloops hT
  have hfound : Yields P κ0 T W O N (ctx.loopTargets statement) fun κ' t =>
      κ'.Allows t.breakTarget ∧ κ'.Allows t.continueTarget := by
    refine Drafts.get fun s hs => ?_
    obtain ⟨⟨A, hstage⟩, -⟩ := id hs
    split
    · rename_i t hinnermost
      refine .pure fun s' hs' => ⟨κ0, T, N, le_refl κ0, ⟨rfl, rfl, hloops t (.inl ?_)⟩, hs' ▸ hs⟩
      rw [← hstage.outer]
      exact hinnermost
    · exact .throw rfl
  refine hfound.andThen fun t κ1 h1 ht => ?_
  refine Extends.mono (drafts_finish (fits_jump ?_)) h1 fun _ _ _ _ _ h => h
  rcases htarget t with heq | heq
  · exact heq ▸ ht.1
  · exact heq ▸ ht.2

/-- The exit counts on nothing, so it may be entered from anywhere. -/
theorem halts_jump_exit : Halts P κ N (do jump (← get).function.exit) (· = N) := by
  intro κ0 h0 T W O _ hT
  refine Drafts.get fun s hs => ?_
  obtain ⟨⟨A, hstage⟩, -⟩ := id hs
  have hexit : κ0.Allows s.function.exit := ⟨∅, hstage.exit.1 ▸ hstage.exit.2, Set.empty_subset _⟩
  exact Drafts.mono (drafts_finish (fits_jump hexit)) (fun s' hs' => hs' ▸ hs) fun _ _ h => h

theorem halts_lowerReturn (hctx : ctx.Suits P κ) (value : Option Expr)
    (htyped : P.typed → ∀ e ∈ value, e.suits P.symbols P.owner N P.returnType = true) :
    Halts P κ N (ctx.lowerReturn value) (· = N) := by
  unfold Context.lowerReturn
  split
  · rename_i e
    split
    · refine .bind (proceeds_runExpr hctx fun h => ?_) (by rintro _ rfl; exact halts_jump_exit)
      have hsuits := htyped h e rfl
      rw [Source.Expr.suits, Bool.and_eq_true] at hsuits
      exact hsuits.1
    · split
      · rename_i cell hcell
        refine .of_value (offers_lowerStored hctx fun h => htyped h e rfl)
          fun value κ1 h1 hvalue => ?_
        refine .of_value (Q := fun _ _ => True) (fun κ2 h2 T W O => ?_) fun _ _ _ _ =>
          halts_jump_exit
        have hcell := (hctx.returnCell cell hcell).mono (h1.trans h2)
        exact yields_store (hvalue.mono h2) (place_of_gives (Ty.isKept_ofSource _) hcell)
      · exact .of_value (Q := fun _ _ => True) (fun _ _ _ _ _ => .throw rfl) fun _ _ _ _ =>
          halts_jump_exit
  · exact halts_jump_exit

theorem proceeds_lowerStart (hctx : ctx.Suits P κ) (start : Option Source.ForStart)
    (hsized : P.sized → ∀ vars, start = some (.declare vars) → ∀ ty ∈ vars.types, ty ≠ .void)
    (htyped : P.typed → Source.startedTyping? P.symbols P.owner N start = some after) :
    Proceeds P κ N (ctx.lowerStart start) (· = after) := by
  unfold Context.lowerStart
  unfold Source.startedTyping? at htyped
  split
  · exact proceeds_declareLocals hctx _ (fun h => hsized h _ rfl) htyped
  · have hsame : P.typed → _ ∧ _ := fun h => Option.ite_none_right_eq_some.mp (htyped h)
    exact (proceeds_runExpr hctx fun h => (hsame h).1).congr fun h => Option.some.inj (hsame h).2
  · exact Proceeds.nothing.congr fun h => Option.some.inj (htyped h)

mutual

theorem proceeds_lowerStmt {κ : Facts} {N after : Typing} (hctx : ctx.Suits P κ)
    (stmt : Stmt) (hsized : P.sized → ∀ ty ∈ stmt.variableTypes, ty ≠ .void)
    (htyped : P.typed → stmt.typing? P.symbols P.owner P.returnType N = some after) :
    Proceeds P κ N (ctx.lowerStmt stmt) (· = after) := by
  cases stmt with
  | block body =>
    rw [Context.lowerStmt]
    simp only [Source.Stmt.typing?, Option.ite_none_right_eq_some] at htyped
    exact (proceeds_lowerStmts hctx body hsized fun h => (htyped h).1).inScope.congr
      fun h => Option.some.inj (htyped h).2
  | declare vars =>
    rw [Context.lowerStmt]
    exact proceeds_declareLocals hctx vars hsized htyped
  | ifElse condition positive negative =>
    rw [Context.lowerStmt]
    simp only [Source.Stmt.typing?, Option.ite_none_right_eq_some, Bool.and_eq_true] at htyped
    refine (buries_branchOn (offers_lowerCondition hctx fun h => (htyped h).1.1.1)
      (proceeds_lowerStmts hctx positive (fun h ty hty => hsized h ty (List.mem_append_left _ hty))
        fun h => (htyped h).1.1.2).buries fun step hstep => Proceeds.buries ?_).proceeds.congr
      fun h => Option.some.inj (htyped h).2
    split at hstep
    · cases hstep
    · cases hstep
      exact proceeds_lowerStmts hctx negative
        (fun h ty hty => hsized h ty (List.mem_append_right _ hty)) fun h => (htyped h).1.2
  | whileLoop condition body =>
    rw [Context.lowerStmt]
    simp only [Source.Stmt.typing?, Option.ite_none_right_eq_some, Bool.and_eq_true] at htyped
    exact (buries_loopWhile (offers_lowerCondition hctx fun h => (htyped h).1.1)
      (proceeds_lowerStmts hctx body hsized fun h => (htyped h).1.2).buries).proceeds.congr
      fun h => Option.some.inj (htyped h).2
  | forLoop start condition step body =>
    rw [Context.lowerStmt]
    -- the types inside the loop are those after its start
    obtain ⟨inner, hinner⟩ : ∃ inner, P.typed →
        Source.startedTyping? P.symbols P.owner N start = some inner ∧
        (((condition.all fun e => e.isTruth P.symbols P.owner inner) = true ∧
          (step.all fun e => e.isWellTyped P.symbols P.owner inner) = true) ∧
          Source.Stmt.areWellTyped P.symbols P.owner P.returnType inner body = true) ∧
        N = after := by
      by_cases h : P.typed
      · have htype := htyped h
        simp only [Source.Stmt.typing?] at htype
        split at htype
        · rename_i inner hstart
          simp only [Option.ite_none_right_eq_some, Bool.and_eq_true, Option.some.injEq] at htype
          exact ⟨inner, fun _ => ⟨hstart, htype⟩⟩
        · cases htype
      · exact ⟨N, fun h' => absurd h' h⟩
    have hbody : P.sized → ∀ ty ∈ Source.Stmt.allVariableTypes body, ty ≠ .void := by
      intro h ty hty
      refine hsized h ty ?_
      unfold Source.Stmt.variableTypes
      split <;> simp_all
    refine (buries_loopFor (proceeds_lowerStart hctx start (fun h vars heq ty hty => ?_)
      fun h => (hinner h).1) ?_ ?_ (proceeds_lowerStmts hctx body hbody
        fun h => (hinner h).2.1.2).buries).proceeds.congr fun h => (hinner h).2.2
    · subst heq
      exact hsized h ty (List.mem_append_left _ hty)
    · intro test htest
      obtain ⟨e, he, rfl⟩ := Option.mem_map.mp htest
      refine offers_lowerCondition hctx fun h => ?_
      have hall := (hinner h).2.1.1.1
      rw [he] at hall
      exact hall
    · cases step with
      | none => exact .nothing
      | some e => exact proceeds_runExpr hctx fun h => (hinner h).2.1.1.2
  | breakLoop =>
    rw [Context.lowerStmt]
    exact (halts_loopControl fun _ => .inl rfl).proceeds.congr fun h => Option.some.inj (htyped h)
  | continueLoop =>
    rw [Context.lowerStmt]
    exact (halts_loopControl fun _ => .inr rfl).proceeds.congr fun h => Option.some.inj (htyped h)
  | giveBack value =>
    rw [Context.lowerStmt]
    refine (halts_lowerReturn hctx value fun h e he => ?_).proceeds.congr fun h => ?_
    · obtain rfl := he
      exact (Option.ite_none_right_eq_some.mp (htyped h)).1
    · have htype := htyped h
      cases value with
      | none => exact Option.some.inj htype
      | some e => exact Option.some.inj (Option.ite_none_right_eq_some.mp htype).2
  | evaluate e =>
    rw [Context.lowerStmt]
    simp only [Source.Stmt.typing?, Option.ite_none_right_eq_some] at htyped
    exact (proceeds_runExpr hctx fun h => (htyped h).1).congr fun h => Option.some.inj (htyped h).2
  | empty =>
    rw [Context.lowerStmt]
    exact Proceeds.nothing.congr fun h => Option.some.inj (htyped h)

theorem proceeds_lowerStmts {κ : Facts} {N : Typing} (hctx : ctx.Suits P κ) (body : List Stmt)
    (hsized : P.sized → ∀ ty ∈ Source.Stmt.allVariableTypes body, ty ≠ .void)
    (htyped : P.typed → Source.Stmt.areWellTyped P.symbols P.owner P.returnType N body = true) :
    Proceeds P κ N (ctx.lowerStmts body) fun _ => True := by
  cases body with
  | nil =>
    rw [Context.lowerStmts]
    exact Proceeds.nothing.anywhere
  | cons stmt rest =>
    rw [Context.lowerStmts]
    obtain ⟨after, hafter⟩ : ∃ after, P.typed →
        stmt.typing? P.symbols P.owner P.returnType N = some after ∧
          Source.Stmt.areWellTyped P.symbols P.owner P.returnType after rest = true := by
      by_cases h : P.typed
      · have htype := htyped h
        simp only [Source.Stmt.areWellTyped] at htype
        split at htype
        · rename_i after hstmt
          exact ⟨after, fun _ => ⟨hstmt, htype⟩⟩
        · cases htype
      · exact ⟨N, fun h' => absurd h' h⟩
    exact .bind (proceeds_lowerStmt hctx stmt
        (fun h ty hty => hsized h ty (List.mem_append_left _ hty)) fun h => (hafter h).1)
      (proceeds_lowerStmts hctx rest
        (fun h ty hty => hsized h ty (List.mem_append_right _ hty)) fun h => (hafter h).2)

end

end

end MxStar.Flow
