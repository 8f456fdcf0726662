import MxStar.Proofs.Flow.LoweredChoice

/-!
# Statements that perform an evaluation

A statement can end in several ways, and each of them leads somewhere else: to the
code behind the statement, to a target of the innermost loop, or to the exit of the
function (`Setting.Ended`).  `Setting.Performs` relates a step that builds the code of
a statement to the execution of the statement, and has rules for sequences, regions,
forks and loops.

Jumps leave regions.  What a jump takes along is what the regions around the
innermost one hold, which is why each region can pass the jump on.

A loop goes around in rounds (`leads_goAround`).  Every round enters the block of the
condition, so a loop that runs out of fuel has gone through that many blocks.
-/

namespace MxStar.Flow

open Build
open Source (Typing)

section

variable {World α β : Type}

variable {block : BlockId}

namespace Setting

variable {X : Setting World} {known inner after : Typing} {s s' s1 s2 : Builder}
  {t : Option Terminator} {x : Position} {fs : State World} {st : Source.State World} {fuel : Nat}
  {scopes : ScopeStack} {u : Unit}

/-! ## Regions -/

theorem Ready.push (h : X.Ready s) (loop : Option LoopTargets) :
    X.Ready { s with scopes := ⟨{ loop } :: s.scopes.scopes⟩ } where
  cells := h.cells
  placed := h.placed.push loop
  result := by
    intro r hr
    obtain ⟨hcell, hunused⟩ := h.result r hr
    refine ⟨hcell, fun scope hscope => ?_⟩
    rcases List.mem_cons.mp hscope with rfl | hscope
    · rintro ⟨name, ty, hname⟩
      simp at hname
    · exact hunused scope hscope

theorem Knows.push (h : X.Knows known scopes) (loop : Option LoopTargets) :
    X.Knows known ⟨{ loop } :: scopes.scopes⟩ := by
  have hresolve : ∀ name, ScopeStack.resolve? ⟨{ loop } :: scopes.scopes⟩ name =
      scopes.resolve? name := fun name => by simp [ScopeStack.resolve?]
  intro name ty hname hscalar
  obtain ⟨address, hnames⟩ := h name ty hname hscalar
  refine ⟨address, ?_⟩
  generalize Ty.ofSource ty = ty' at hnames
  cases hnames with
  | var r ty' hvar => exact .var r ty' ((hresolve name).trans hvar)
  | global g hnone hg => exact .global g ((hresolve name).trans hnone) hg

/-! ## Ways to end -/

def Gives (X : Setting World) (fs : State World) : Option Word → Prop
  | some w => ∃ (n : Nat) (c : Cell), X.function.cells[n]? = some c ∧
      X.result = some c.register ∧ fs.registers c.register = some (X.environment.cell n) ∧
      fs.memory.read c.ty.width (X.environment.cell n) = w
  | none => X.result = none

/-- Where control gets to when a statement ends.  `behind` is what holds in the code
behind the statement. -/
inductive Ended (X : Setting World) (scopes : ScopeStack)
    (behind : Source.State World → Position → State World → Prop) :
    Source.Signal → Source.State World → Position → State World → Prop
  | normal (st : Source.State World) (y : Position) (fs : State World) (h : behind st y fs) :
    Ended X scopes behind .normal st y fs
  | leave (st : Source.State World) (fs : State World) (targets : LoopTargets)
    (htargets : scopes.innermostLoop? = some targets)
    (hagrees : X.Agrees scopes.pop { st with frames := st.frames.tail } fs) :
    Ended X scopes behind .leave st (.start targets.breakTarget) fs
  | next (st : Source.State World) (fs : State World) (targets : LoopTargets)
    (htargets : scopes.innermostLoop? = some targets)
    (hagrees : X.Agrees scopes.pop { st with frames := st.frames.tail } fs) :
    Ended X scopes behind .next st (.start targets.continueTarget) fs
  | giveBack (st : Source.State World) (fs : State World) (value : Option Word)
    (hseen : X.Seen st fs) (hgives : X.Gives fs value) :
    Ended X scopes behind (.giveBack value) st (.start X.function.exit) fs

/-- Control stands behind a statement, in the names that are known after it. -/
structure Arrived (X : Setting World) (after : Typing) (s : Builder)
    (t : Option Terminator) (st : Source.State World) (y : Position) (fs : State World) :
    Prop where
  stands : s.Stands t y
  ready : X.Ready s
  knows : X.Knows after s.scopes
  agrees : X.Agrees s.scopes st fs

structure Performs (X : Setting World) (fuel : Nat) (known after : Typing)
    (step : Build Unit) (ev : Source.Eval World Source.Signal) : Prop where
  builds : ∀ bound, Builds False outerView bound step
  leads : ∀ ⦃s u s' t x fs st⦄, step s = .ok u s' → X.Ready s → X.Knows known s.scopes →
    s.Stands t x → Grows s'.function X.function → X.Agrees s.scopes st fs →
      X.Leads fuel x fs (ev st) (X.Ended s.scopes (X.Arrived after s' t))

structure Declares (X : Setting World) (known after : Typing) (step : Build Unit)
    (ev : Source.Eval World Unit) : Prop where
  builds : ∀ bound, Builds False outerView bound step
  leads : ∀ ⦃s u s' t x fs st fuel⦄, step s = .ok u s' → X.Ready s → X.Knows known s.scopes →
    s.Stands t x → Grows s'.function X.function → X.Agrees s.scopes st fs →
      X.Leads fuel x fs (ev st) fun _ => X.Arrived after s' t

theorem Leads.goOnBehind {behind behind' : Source.State World → Position → State World → Prop}
    (h : X.Leads fuel x fs r (X.Ended scopes behind))
    (hgoes : ∀ st y fs, behind st y fs → ∃ n z fs', X.Goes n y fs z fs' ∧ behind' st z fs') :
    X.Leads fuel x fs r (X.Ended scopes behind') := by
  refine h.goOn fun signal st y fs hended => ?_
  cases hended with
  | normal st y fs hbehind =>
    obtain ⟨n, z, fs', hgoes, hbehind'⟩ := hgoes st y fs hbehind
    exact ⟨n, z, fs', hgoes, .normal st z fs' hbehind'⟩
  | leave st fs targets htargets hagrees =>
    exact ⟨0, _, fs, .refl, .leave st fs targets htargets hagrees⟩
  | next st fs targets htargets hagrees =>
    exact ⟨0, _, fs, .refl, .next st fs targets htargets hagrees⟩
  | giveBack st fs value hseen hgives => exact ⟨0, _, fs, .refl, .giveBack st fs value hseen hgives⟩

/-- A jump out of a region depends only on what is around the region. -/
theorem Ended.congr (houter : scopes'.outer = scopes.outer)
    {behind : Source.State World → Position → State World → Prop}
    (h : X.Ended scopes' behind signal st x fs) : X.Ended scopes behind signal st x fs := by
  obtain ⟨htail, hloop⟩ := Prod.mk.inj houter
  have hpop : scopes'.pop = scopes.pop := congrArg ScopeStack.mk htail
  cases h with
  | normal _ _ _ hbehind => exact .normal _ _ _ hbehind
  | leave _ _ targets htargets hagrees =>
    exact .leave _ _ targets (hloop ▸ htargets) (hpop ▸ hagrees)
  | next _ _ targets htargets hagrees => exact .next _ _ targets (hloop ▸ htargets) (hpop ▸ hagrees)
  | giveBack _ _ value hseen hgives => exact .giveBack _ _ value hseen hgives

/-! ## Sequences -/

theorem Performs.nothing : X.Performs fuel known known (pure ()) (pure .normal) := by
  refine ⟨fun _ => .pure trivial, ?_⟩
  intro s u s' t x fs st hstep hready hknows hstands _ hagrees
  obtain ⟨-, rfl⟩ := EStateM.pure_eq_ok.mp hstep
  exact .done (.normal _ _ _ ⟨hstands, hready, hknows, hagrees⟩)

variable {step : Build Unit} {ev : Source.Eval World Unit}

theorem Declares.of_follows (h : X.Follows known (fun _ _ => True) step ev fun _ _ _ _ => True) :
    X.Declares known known step ev := by
  refine ⟨fun bound => (h.builds bound).outer, ?_⟩
  intro s u s' t x fs st fuel hstep hready hknows hstands hG hagrees
  have hlater := (h.builds 0).later hstep
  refine (h.leads hstep hready hknows hstands hG hagrees trivial).mono ?_
  intro _ st' y fs' hgoal
  refine ⟨hgoal.1.stands, hready.later hlater, ?_, hgoal.1.agrees⟩
  rw [hlater.scopes]
  exact hknows

theorem Declares.performs (h : X.Declares known after step ev) :
    X.Performs fuel known after step (do ev; return .normal) := by
  refine ⟨h.builds, ?_⟩
  intro s u s' t x fs st hstep hready hknows hstands hG hagrees
  refine (h.leads hstep hready hknows hstands hG hagrees).bind ?_
  intro _ st' y fs' _ harrived
  exact .done (.normal _ _ _ harrived)

theorem Declares.seq (h : X.Declares known inner step ev) (h' : X.Declares inner after step' ev') :
    X.Declares known after (do step; step') (do ev; ev') := by
  refine ⟨fun bound => .bind (h.builds bound) fun _ _ => h'.builds bound, ?_⟩
  intro s u s' t x fs st fuel hstep hready hknows hstands hG hagrees
  obtain ⟨_, s1, h1, h2⟩ := EStateM.bind_eq_ok.mp hstep
  have hgrows := (h'.builds _).grows h2
  refine (h.leads h1 hready hknows hstands (hgrows.trans hG) hagrees).bind ?_
  intro _ st1 y fs1 _ harrived
  exact h'.leads h2 harrived.ready harrived.knows harrived.stands hG harrived.agrees

theorem Performs.seq {ev : Source.Eval World Source.Signal}
    (h : X.Performs fuel known inner step ev) (h' : X.Performs fuel inner after step' ev') :
    X.Performs fuel known after (do step; step') (do
        match ← ev with
        | .normal => ev'
        | signal => return signal) := by
  refine ⟨fun bound => .bind (h.builds bound) fun _ _ => h'.builds bound, ?_⟩
  intro s u s' t x fs st hstep hready hknows hstands hG hagrees
  obtain ⟨_, s1, h1, h2⟩ := EStateM.bind_eq_ok.mp hstep
  have hgrows := (h'.builds _).grows h2
  have houter := (h.builds 0 h1 (Nat.zero_le _)).2.1
  refine (h.leads h1 hready hknows hstands (hgrows.trans hG) hagrees).bind ?_
  intro signal st1 y fs1 _ hended
  cases hended with
  | normal st1 y fs1 harrived =>
    refine (h'.leads h2 harrived.ready harrived.knows harrived.stands hG harrived.agrees).mono ?_
    exact fun signal st y fs hended => hended.congr houter
  | leave _ _ targets htargets hagrees => exact .done (.leave _ _ targets htargets hagrees)
  | next _ _ targets htargets hagrees => exact .done (.next _ _ targets htargets hagrees)
  | giveBack _ _ value hseen hgives => exact .done (.giveBack _ _ value hseen hgives)

theorem Declares.andThen (h : X.Declares known inner step ev)
    (h' : X.Performs fuel inner after step' ev') :
    X.Performs fuel known after (do step; step') (do ev; ev') := by
  have hdeclares : X.Performs fuel known inner step (do ev; return .normal) := h.performs
  simpa using hdeclares.seq h'

theorem Performs.inScope {ev : Source.Eval World Source.Signal}
    (h : X.Performs fuel known inner step ev) :
    X.Performs fuel known known (inScope step) (Source.Eval.inFrame ev) := by
  have hbuilds : ∀ bound, Builds False id bound (Build.inScope step) :=
    fun bound => builds_inScope (h.builds bound)
  refine ⟨fun bound => (hbuilds bound).outer, ?_⟩
  intro s u s' t x fs st hstep hready hknows hstands hG hagrees
  have hlater := (hbuilds 0).later hstep
  obtain ⟨_, s1, hpush, _, s2, hbody, hpop⟩ := EStateM.bind2_eq_ok.mp hstep
  obtain rfl := modifyScopes_eq_ok hpush
  obtain rfl := modifyScopes_eq_ok hpop
  refine (h.leads hbody (hready.push none) (hknows.push none) hstands hG
    (hagrees.push none)).bind ?_
  intro signal st' y fs' _ hended
  refine .done ?_
  cases hended with
  | normal st' y fs' harrived =>
    refine .normal _ _ _ ⟨harrived.stands, hready.later hlater, ?_, harrived.agrees.pop⟩
    rw [hlater.scopes]
    exact hknows
  | leave st' fs' targets htargets hagrees' => exact .leave _ _ targets htargets hagrees'.pop
  | next st' fs' targets htargets hagrees' => exact .next _ _ targets htargets hagrees'.pop
  | giveBack st' fs' value hseen hgives =>
    exact .giveBack _ _ value ⟨hseen.memory, hseen.world, hseen.calls⟩ hgives

/-! ## Forks -/

/-- An arm that has waited is entered, and goes on at `next` unless it jumps. -/
theorem leads_performAt {ev : Source.Eval World Source.Signal}
    (h : X.Performs fuel known inner arm ev) (hbuilds : ∀ bound, Builds False id bound arm)
    (hlater : s.Later s1) (hstep : armAt block next arm s1 = .ok u s2) (hready : X.Ready s)
    (hknows : X.Knows known s.scopes) (hwaits : ∃ t, s1.Waits block t)
    (hG : Grows s2.function X.function) (hagrees : X.Agrees s.scopes st fs) :
    X.Leads fuel (.start block) fs (ev st) (X.Ended s.scopes fun st' y fs' =>
      y = .start next ∧ X.Agrees s.scopes st' fs') := by
  obtain ⟨t, hwaits⟩ := hwaits
  obtain ⟨_, s3, hswitch, _, s4, harm, hjump⟩ := EStateM.bind2_eq_ok.mp hstep
  have hlater3 : s1.Later s3 := (builds_switchTo (Nat.zero_le _)).later hswitch
  have hlater4 : s3.Later s4 := (hbuilds 0).later harm
  have hlater2 : s4.Later s2 := (builds_jump next).later hjump
  have hG4 := hlater2.grows.trans hG
  have hG1 := hlater3.grows.trans (hlater4.grows.trans hG4)
  refine Leads.prepend (goes_enter hwaits hG1) ?_
  have hopen := hlater.trans hlater3
  rw [← hopen.scopes] at hknows hagrees ⊢
  refine (h.leads harm (hready.later hopen) hknows (stands_switchTo hswitch hwaits) hG4
    hagrees).goOnBehind ?_
  intro st' y fs' harrived
  refine ⟨0, .start next, fs', goes_jump hjump harrived.stands hG, rfl, ?_⟩
  rw [← hlater4.scopes]
  exact harrived.agrees

section

variable {condition : Build Operand} {positive : Build Unit}
  {evalCondition : Source.Eval World Word} {ev1 : Source.Eval World Source.Signal}
  (hcondition : X.Follows known (fun _ _ => True) condition evalCondition (X.HoldsTyped .bool))
  (hpos : X.Performs fuel known known (Build.inScope positive) ev1)
  (hpos' : ∀ bound, Builds False outerView bound positive)

include hcondition hpos hpos'

theorem performs_branchOn_some (hneg : X.Performs fuel known known (Build.inScope negative) ev2)
    (hneg' : ∀ bound, Builds False outerView bound negative) :
    X.Performs fuel known known (branchOn condition positive (some negative))
      (do if (← evalCondition) = 0 then ev2 else ev1) := by
  have hfirst : ∀ bound, Builds False id bound (Build.inScope positive) :=
    fun bound => builds_inScope (hpos' bound)
  have hsecond : ∀ bound, Builds False id bound (Build.inScope negative) :=
    fun bound => builds_inScope (hneg' bound)
  refine ⟨fun bound =>
    (builds_branchOn (hcondition.builds bound) (hpos' bound) ?_ fun _ => rfl).outer, ?_⟩
  · intro step hmem
    obtain rfl := Option.mem_some_iff.mp hmem
    exact hneg' bound
  intro s u s' t x fs st hstep hready hknows hstands hG hagrees
  rw [branchOn_some] at hstep
  obtain ⟨chosen, s1, h1, hrest⟩ := EStateM.bind_eq_ok.mp hstep
  have hbuilds : Builds False id s1.function.blocks.size (withFork "if_end" "if_then" "if_else"
      fun next first second => fork (.branch chosen first second) first second next
        (Build.inScope positive) (Build.inScope negative)) :=
    builds_withBlocks fun _ _ _ hnext hfirst' hsecond' =>
      builds_fork hfirst' hsecond' hnext (hfirst _) (hsecond _)
  have hlater1 := (hcondition.builds 0).later h1
  refine (hcondition.leads h1 hready hknows hstands ((hbuilds.grows hrest).trans hG) hagrees
    trivial).bind ?_
  rintro w st1 y fs1 - ⟨hreached, hholds⟩
  obtain ⟨next, first, second, s2, hlater2, hstands2, hforks, hfork⟩ :=
    withBlocks_eq_ok hreached.stands hrest
  obtain ⟨s3, s4, s5, hforked, hnext, hend⟩ := fork_eq_ok hforks hfirst hsecond hfork
  have hG5 := hforked.toEnd.grows.trans hG
  have hG4 := hforked.toNext.grows.trans hG5
  have hlater := hlater1.trans hlater2
  have hready2 := hready.later hlater
  have hagrees2 : X.Agrees s2.scopes st1 fs1 := hlater2.scopes ▸ hreached.agrees
  have hknows2 : X.Knows known s2.scopes := hlater.scopes ▸ hknows
  have hexec : (Terminator.branch chosen first second).exec X.environment fs1 =
      .at (if w = 0 then second else first) fs1 := by
    simp only [Terminator.exec, hholds.1.value]
  refine Leads.prepend (goes_terminate hforked.ends hstands2 (hforked.toSecond.grows.trans hG4)
    hexec) ?_
  have harm : X.Leads fuel (.start (if w = 0 then second else first)) fs1
      ((if w = 0 then ev2 else ev1) st1) (X.Ended s2.scopes fun st' y fs' =>
        y = .start next ∧ X.Agrees s2.scopes st' fs') := by
    split
    · exact leads_performAt hneg hsecond (hforked.toFirst.trans hforked.toSecond)
        hforked.buildsSecond hready2 hknows2 hforked.secondWaits hG5 hagrees2
    · exact leads_performAt hpos hfirst hforked.toFirst hforked.buildsFirst hready2 hknows2
        hforked.firstWaits hG4 hagrees2
  have hlater5 := hforked.toFirst.trans
    (hforked.toSecond.trans (hforked.toNext.trans hforked.toEnd))
  refine (harm.goOnBehind ?_).mono fun signal st y fs hended => hended.congr ?_
  · rintro st' y fs' ⟨rfl, hagrees'⟩
    refine ⟨1, _, fs', goes_enter hnext hG5, hend, hready2.later hlater5, ?_, ?_⟩
    · exact hlater5.scopes ▸ hknows2
    · exact hlater5.scopes ▸ hagrees'
  · rw [hlater.scopes]

/-- Without a second arm, the branch goes on behind the statement. -/
theorem performs_branchOn_none : X.Performs fuel known known (branchOn condition positive none)
      (do if (← evalCondition) = 0 then return .normal else ev1) := by
  have hfirst : ∀ bound, Builds False id bound (Build.inScope positive) :=
    fun bound => builds_inScope (hpos' bound)
  refine ⟨fun bound =>
    (builds_branchOn (hcondition.builds bound) (hpos' bound) (by simp) fun _ => rfl).outer, ?_⟩
  intro s u s' t x fs st hstep hready hknows hstands hG hagrees
  rw [branchOn_none] at hstep
  obtain ⟨chosen, s0, h1, hrest⟩ := EStateM.bind_eq_ok.mp hstep
  have hlater1 := (hcondition.builds 0).later h1
  obtain ⟨t', s1, hinherit, hrest⟩ := EStateM.bind_eq_ok.mp hrest
  obtain ⟨rfl, rfl⟩ := inheritedTerminator_eq_ok hinherit
  obtain ⟨next, s2, h2, first, s3, h3, hrest⟩ := EStateM.bind2_eq_ok.mp hrest
  obtain ⟨_, s4, h4, _, s5, h5, h6⟩ := EStateM.bind2_eq_ok.mp hrest
  have hlater2 : s1.Later s2 := (builds_createBlock _ _).later h2
  have hlater3 : s2.Later s3 := (builds_createBlock _ _).later h3
  have hlater4 : s3.Later s4 := (builds_terminate _).later h4
  have hlater5 : s4.Later s5 := (builds_armAt (Nat.zero_le _) (hfirst 0)).later h5
  have hlater6 : s5.Later s' := (builds_switchTo (Nat.zero_le _)).later h6
  have hG5 := hlater6.grows.trans hG
  have hG4 := hlater5.grows.trans hG5
  have hG1 := hlater2.grows.trans (hlater3.grows.trans (hlater4.grows.trans hG4))
  refine (hcondition.leads h1 hready hknows hstands hG1 hagrees trivial).bind ?_
  rintro w st1 y fs1 - ⟨hreached, hholds⟩
  obtain ⟨ht, -⟩ := stands_inheritedTerminator hinherit hreached.stands
  rw [ht] at h2
  obtain ⟨hstands2, hnext2⟩ := stands_createBlock h2 hreached.stands
  obtain ⟨hstands3, hfirst3⟩ := stands_createBlock h3 hstands2
  obtain ⟨hnext3, hne⟩ := waits_createBlock h3 hnext2
  have hbranch : Builds False id s3.function.blocks.size (terminate (.branch chosen first next)) :=
    builds_terminate _
  have hnext5 := waits_armAt hfirst h5 hne (hbranch.waits h4 hnext3)
  have hexec : (Terminator.branch chosen first next).exec X.environment fs1 =
      .at (if w = 0 then next else first) fs1 := by
    simp only [Terminator.exec, hholds.1.value]
  refine Leads.prepend (goes_terminate h4 hstands3 hG4 hexec) ?_
  have hlater14 := hlater2.trans (hlater3.trans hlater4)
  have hready1 := hready.later hlater1
  have hknows1 : X.Knows known s1.scopes := hlater1.scopes ▸ hknows
  have hlater := hlater14.trans (hlater5.trans hlater6)
  have harm : X.Leads fuel (.start (if w = 0 then next else first)) fs1
      ((if w = 0 then pure .normal else ev1) st1) (X.Ended s1.scopes fun st' y fs' =>
        y = .start next ∧ X.Agrees s1.scopes st' fs') := by
    split
    · exact .done (.normal _ _ _ ⟨rfl, hreached.agrees⟩)
    · exact leads_performAt hpos hfirst hlater14 h5 hready1 hknows1
        ⟨_, hbranch.waits h4 hfirst3⟩ hG5 hreached.agrees
  refine (harm.goOnBehind ?_).mono fun signal st y fs hended => hended.congr ?_
  · rintro st' y fs' ⟨rfl, hagrees'⟩
    refine ⟨1, _, fs', goes_enter hnext5 hG5, stands_switchTo h6 hnext5,
      hready1.later hlater, ?_, ?_⟩
    · exact hlater.scopes ▸ hknows1
    · exact hlater.scopes ▸ hagrees'
  · rw [hlater1.scopes]

end

/-! ## Loops -/

inductive RoundEnded (X : Setting World) (scopes : ScopeStack) (targets : LoopTargets) :
    Source.Signal → Source.State World → Position → State World → Prop
  | around (signal : Source.Signal) (st : Source.State World) (fs : State World)
    (hsignal : signal = .normal ∨ signal = .next) (hagrees : X.Agrees scopes st fs) :
    RoundEnded X scopes targets signal st (.start targets.continueTarget) fs
  | leave (st : Source.State World) (fs : State World) (hagrees : X.Agrees scopes st fs) :
    RoundEnded X scopes targets .leave st (.start targets.next) fs
  | giveBack (st : Source.State World) (fs : State World) (value : Option Word)
    (hseen : X.Seen st fs) (hgives : X.Gives fs value) :
    RoundEnded X scopes targets (.giveBack value) st (.start X.function.exit) fs

/-- **Rounds of a loop.**  If the test, the body and the step each do what their
evaluations do, then so does the loop, however often it goes around. -/
theorem leads_goAround {step : Source.Eval World Unit}
    (henter : ∀ fs, X.Goes 1 (.start targets.condition) fs (.inside targets.condition 0) fs)
    (hcondition : ∀ st fs, X.Agrees scopes st fs → X.Leads fuel (.inside targets.condition 0) fs
      (condition st) fun w st' y fs' => y = .start (if w = 0 then targets.next else bodyBlock) ∧
      X.Agrees scopes st' fs')
    (hbody : ∀ st fs, X.Agrees scopes st fs → X.Leads fuel (.start bodyBlock) fs (body st)
      (X.RoundEnded scopes targets))
    (hstep : ∀ st fs, X.Agrees scopes st fs → X.Leads fuel (.start targets.continueTarget) fs
      (step st) fun _ st' y fs' => y = .start targets.condition ∧ X.Agrees scopes st' fs')
    (count : Nat) (hcount : count ≤ fuel) (hagrees : X.Agrees scopes st fs) :
    X.Leads count (.start targets.condition) fs (Source.goAround condition body step count st)
      (X.Ended scopes fun st' y fs' => y = .start targets.next ∧ X.Agrees scopes st' fs') := by
  induction count generalizing st fs with
  | zero => exact ⟨0, Nat.le_refl _, targets.condition, fs, .refl, hagrees.toSeen⟩
  | succ count ih =>
    have hle : count ≤ fuel := Nat.le_of_succ_le hcount
    refine Leads.prepend_add (henter fs) (((hcondition st fs hagrees).weaken hle).bind ?_)
    rintro w st1 y fs1 - ⟨rfl, hagrees1⟩
    by_cases hw : w = 0
    · rw [if_pos hw, if_pos hw]
      exact .done (.normal _ _ _ ⟨rfl, hagrees1⟩)
    · rw [if_neg hw, if_neg hw]
      refine ((hbody st1 fs1 hagrees1).weaken hle).bind ?_
      intro signal st2 y fs2 _ hended
      cases hended with
      | around _ _ _ hsignal hagrees2 =>
        have hround : X.Leads count (.start targets.continueTarget) fs2
            ((do step; Source.goAround condition body step count : Source.Eval World _) st2)
            (X.Ended scopes fun st' y fs' =>
              y = .start targets.next ∧ X.Agrees scopes st' fs') := by
          refine ((hstep st2 fs2 hagrees2).weaken hle).bind ?_
          rintro _ st3 y fs3 - ⟨rfl, hagrees3⟩
          exact ih hle hagrees3
        rcases hsignal with rfl | rfl <;> exact hround
      | leave _ _ hagrees2 => exact .done (.normal _ _ _ ⟨rfl, hagrees2⟩)
      | giveBack _ _ value hseen hgives => exact .done (.giveBack _ _ value hseen hgives)

def Tests (X : Setting World) (known : Typing) (condition : Option (Build Operand))
    (ev : Source.Eval World Word) : Prop :=
  match condition with
  | some condition => X.Follows known (fun _ _ => True) condition ev (X.HoldsTyped .bool)
  | none => ev = pure 1

theorem Tests.builds {ev : Source.Eval World Word} (h : X.Tests known condition ev)
    (body next : BlockId) (bound : Nat) : Builds False id bound (testAt condition body next) := by
  refine builds_testAt (fun test htest => ?_) fun _ => rfl
  obtain rfl := Option.mem_def.mp htest
  exact Follows.builds h bound

theorem Tests.leads {ev : Source.Eval World Word} (h : X.Tests known condition ev)
    (hstep : testAt condition body next s = .ok u s') (hready : X.Ready s)
    (hknows : X.Knows known s.scopes) (hstands : s.Stands t x) (hG : Grows s'.function X.function)
    (hagrees : X.Agrees s.scopes st fs) :
    X.Leads fuel x fs (ev st) fun w st' y fs' =>
      y = .start (if w = 0 then next else body) ∧ X.Agrees s.scopes st' fs' := by
  cases condition with
  | none =>
    obtain rfl : ev = pure 1 := h
    exact ⟨0, .start body, fs, goes_jump hstep hstands hG, rfl, hagrees⟩
  | some condition =>
    have hfollows : X.Follows known _ condition ev _ := h
    obtain ⟨chosen, s1, h1, h2⟩ := EStateM.bind_eq_ok.mp hstep
    have hlater1 := (hfollows.builds 0).later h1
    have hlater2 : s1.Later s' := (builds_terminate _).later h2
    refine (hfollows.leads h1 hready hknows hstands (hlater2.grows.trans hG) hagrees
      trivial).goOn ?_
    rintro w st' y fs' ⟨hreached, hholds⟩
    refine ⟨0, _, fs', goes_terminate h2 hreached.stands hG ?_, rfl, ?_⟩
    · simp only [Terminator.exec, hholds.1.value]
    · rw [← hlater1.scopes]
      exact hreached.agrees

/-- A round of the body ends where the loop goes on or is left. -/
theorem leads_loopBody {ev : Source.Eval World Source.Signal}
    (h : X.Performs fuel known inner body ev) (hlater : s.Later s1)
    (hstep : loopBody targets block body s1 = .ok u s2) (hready : X.Ready s)
    (hknows : X.Knows known s.scopes) (hwaits : ∃ t, s1.Waits block t)
    (hG : Grows s2.function X.function) (hagrees : X.Agrees s.scopes st fs) :
    X.Leads fuel (.start block) fs (Source.Eval.inFrame ev st) (X.RoundEnded s.scopes targets) := by
  obtain ⟨t, hwaits⟩ := hwaits
  obtain ⟨_, s3, hpush, _, s4, hswitch, hrest⟩ := EStateM.bind2_eq_ok.mp hstep
  obtain ⟨_, s5, hrun, _, s6, hjump, hpop⟩ := EStateM.bind2_eq_ok.mp hrest
  obtain rfl := modifyScopes_eq_ok hpush
  obtain rfl := modifyScopes_eq_ok hpop
  have hlater4 := (builds_switchTo (Nat.zero_le _)).later hswitch
  have hlater6 : s5.Later s6 := (builds_jump _).later hjump
  have hG5 := hlater6.grows.trans hG
  have hG1 := hlater4.grows.trans (((h.builds _).grows hrun).trans hG5)
  have hscopes4 : s4.scopes = s.scopes.pushLoop targets := by rw [hlater4.scopes, hlater.scopes]
  have hscopes5 : s5.scopes.pop = s.scopes := by
    have hpop : s5.scopes.pop = s4.scopes.pop :=
      congrArg ScopeStack.mk (Prod.mk.inj (h.builds 0 hrun (Nat.zero_le _)).2.1).1
    rw [hpop, hscopes4]
    rfl
  have hready4 : X.Ready s4 := ((hready.later hlater).push (some targets)).later hlater4
  have hknows4 : X.Knows known s4.scopes := hscopes4 ▸ hknows.push (some targets)
  have hagrees4 : X.Agrees s4.scopes { st with frames := (fun _ => none) :: st.frames } fs :=
    hscopes4 ▸ hagrees.push (some targets)
  refine Leads.prepend (goes_enter hwaits hG1) ?_
  refine (h.leads hrun hready4 hknows4 (stands_switchTo hswitch hwaits) hG5 hagrees4).bind ?_
  intro signal st' y fs' _ hended
  rw [hscopes4] at hended
  cases hended with
  | normal _ _ _ harrived =>
    refine ⟨0, _, fs', goes_jump hjump harrived.stands hG, .around _ _ _ (.inl rfl) ?_⟩
    exact hscopes5 ▸ harrived.agrees.pop
  | leave _ _ targets' htargets hagrees' =>
    obtain rfl : targets = targets' := by simpa using htargets
    exact .done (.leave _ _ hagrees')
  | next _ _ targets' htargets hagrees' =>
    obtain rfl : targets = targets' := by simpa using htargets
    exact .done (.around _ _ _ (.inr rfl) hagrees')
  | giveBack _ _ value hseen hgives =>
    exact .done (.giveBack _ _ value ⟨hseen.memory, hseen.world, hseen.calls⟩ hgives)

end Setting

theorem waits_loopBody (hbody : ∀ bound, Builds False outerView bound body)
    (h : loopBody targets block body s = .ok u s') (hne : block ≠ other)
    (hwaits : s.Waits other t) : s'.Waits other t := by
  obtain ⟨_, s1, hpush, _, s2, hswitch, hrest⟩ := EStateM.bind2_eq_ok.mp h
  obtain ⟨_, s3, hrun, _, s4, hjump, hpop⟩ := EStateM.bind2_eq_ok.mp hrest
  obtain rfl := modifyScopes_eq_ok hpush
  obtain rfl := modifyScopes_eq_ok hpop
  have hwaits2 : s2.Waits other t := waits_switchTo hswitch hne hwaits
  have hleave : Builds False outerView s3.function.blocks.size (jump targets.continueTarget) :=
    builds_jump _
  have hwaits4 : s4.Waits other t := hleave.waits hjump ((hbody _).waits hrun hwaits2)
  exact hwaits4

structure Builder.Loops (s : Builder) (targets : LoopTargets) (bodyBlock : BlockId)
    (t : Option Terminator) : Prop where
  conditionWaits : ∃ t, s.Waits targets.condition t
  bodyWaits : ∃ t, s.Waits bodyBlock t
  stepWaits : ∀ block ∈ targets.step, ∃ t, s.Waits block t
  nextWaits : s.Waits targets.next t
  conditionBody : targets.condition ≠ bodyBlock
  conditionStep : ∀ block ∈ targets.step, targets.condition ≠ block
  conditionNext : targets.condition ≠ targets.next
  bodyStep : ∀ block ∈ targets.step, bodyBlock ≠ block
  bodyNext : bodyBlock ≠ targets.next
  stepNext : ∀ block ∈ targets.step, block ≠ targets.next

namespace Setting

variable {X : Setting World} {known inner : Typing} {s s' : Builder}
  {t : Option Terminator} {x : Position} {fs : State World} {st : Source.State World} {fuel : Nat}
  {u : Unit} {condition : Option (Build Operand)} {step body : Build Unit}
  {evalCondition : Source.Eval World Word} {evalStep : Source.Eval World Unit}
  {evalBody : Source.Eval World Source.Signal}

/-- **A loop** whose blocks wait to be built does what `goAround` does. -/
theorem leads_loopAt (hcondition : X.Tests known condition evalCondition)
    (hstep : X.Follows known (fun _ _ => True) step evalStep fun _ _ _ _ => True)
    (hstepless : targets.step = none → evalStep = pure ())
    (hbody : X.Performs fuel known inner body evalBody) (hloops : s.Loops targets bodyBlock t)
    (h : loopAt targets bodyBlock condition step body s = .ok u s') (hready : X.Ready s)
    (hknows : X.Knows known s.scopes) (hstands : s.Stands t x) (hG : Grows s'.function X.function)
    (hagrees : X.Agrees s.scopes st fs) :
    X.Leads fuel x fs
      (Source.goAround evalCondition (Source.Eval.inFrame evalBody) evalStep fuel st)
      (X.Ended s.scopes (X.Arrived known s' t)) := by
  obtain ⟨_, s1, h1, _, s2, h2, hrest⟩ := EStateM.bind2_eq_ok.mp h
  obtain ⟨_, s3, h3, _, s4, h4, hrest⟩ := EStateM.bind2_eq_ok.mp hrest
  obtain ⟨_, s5, h5, h6⟩ := EStateM.bind_eq_ok.mp hrest
  have htest := hcondition.builds bodyBlock targets.next
  have hlater1 : s.Later s1 := (builds_jump _).later h1
  have hlater2 : s1.Later s2 := (builds_switchTo (Nat.zero_le _)).later h2
  have hlater3 : s2.Later s3 := (htest 0).later h3
  have hlater4 : s3.Later s4 := (builds_loopBody (Nat.zero_le _) (hbody.builds 0)).later h4
  have hlater5 : s4.Later s5 := (builds_stepAt (fun _ _ => Nat.zero_le _) (hstep.builds 0)).later h5
  have hlater6 : s5.Later s' := (builds_switchTo (Nat.zero_le _)).later h6
  have hG5 := hlater6.grows.trans hG
  have hG4 := hlater5.grows.trans hG5
  have hG3 := hlater4.grows.trans hG4
  have hG1 := hlater2.grows.trans (hlater3.grows.trans hG3)
  -- the blocks that are not being built wait
  have hjump : Builds False id s.function.blocks.size (jump targets.condition) := builds_jump _
  have hwaits1 : ∀ {id t}, s.Waits id t → s1.Waits id t := hjump.waits h1
  have hwaits3 : ∀ {id t}, targets.condition ≠ id → s.Waits id t → s3.Waits id t :=
    fun hne hwaits => (htest _).waits h3 (waits_switchTo h2 hne (hwaits1 hwaits))
  have hwaits4 : ∀ {id t}, targets.condition ≠ id → bodyBlock ≠ id → s.Waits id t → s4.Waits id t :=
    fun hne hne' hwaits => waits_loopBody hbody.builds h4 hne' (hwaits3 hne hwaits)
  obtain ⟨_, hconditionWaits⟩ := hloops.conditionWaits
  obtain ⟨_, hbodyWaits⟩ := hloops.bodyWaits
  have hnext4 := hwaits4 hloops.conditionNext hloops.bodyNext hloops.nextWaits
  have hnext5 : s5.Waits targets.next t := by
    rcases stepAt_cases targets step with ⟨block, hblock, heq⟩ | ⟨-, heq⟩
    · rw [heq] at h5
      exact waits_armAt hstep.builds h5 (hloops.stepNext block hblock) hnext4
    · rw [heq] at h5
      obtain ⟨-, rfl⟩ := EStateM.pure_eq_ok.mp h5
      exact hnext4
  have hlater12 := hlater1.trans hlater2
  have hlater13 := hlater12.trans hlater3
  have hlater14 := hlater13.trans hlater4
  have hlater := hlater14.trans (hlater5.trans hlater6)
  have htests : ∀ st fs, X.Agrees s.scopes st fs →
      X.Leads fuel (.inside targets.condition 0) fs (evalCondition st) fun w st' y fs' =>
        y = .start (if w = 0 then targets.next else bodyBlock) ∧ X.Agrees s.scopes st' fs' := by
    intro st fs hagrees
    rw [← hlater12.scopes] at hagrees hknows ⊢
    exact hcondition.leads h3 (hready.later hlater12) hknows
      (stands_switchTo h2 (hwaits1 hconditionWaits)) hG3 hagrees
  have hround : ∀ st fs, X.Agrees s.scopes st fs →
      X.Leads fuel (.start bodyBlock) fs (Source.Eval.inFrame evalBody st)
        (X.RoundEnded s.scopes targets) := fun st fs hagrees =>
    leads_loopBody hbody hlater13 h4 hready hknows
      ⟨_, hwaits3 hloops.conditionBody hbodyWaits⟩ hG4 hagrees
  have hsteps : ∀ st fs, X.Agrees s.scopes st fs →
      X.Leads fuel (.start targets.continueTarget) fs (evalStep st) fun _ st' y fs' =>
        y = .start targets.condition ∧ X.Agrees s.scopes st' fs' := by
    intro st fs hagrees
    rcases stepAt_cases targets step with ⟨block, hblock, heq⟩ | ⟨hnone, -⟩
    · rw [heq] at h5
      obtain ⟨_, hstepWaits⟩ := hloops.stepWaits block hblock
      have hwaits := hwaits4 (hloops.conditionStep block hblock) (hloops.bodyStep block hblock)
        hstepWaits
      rw [LoopTargets.continueTarget, hblock]
      refine (leads_armAt hstep hlater14 h5 hready hknows ⟨_, hwaits⟩ hG5 hagrees
        (fun _ _ _ _ _ _ _ h => h) trivial).mono ?_
      exact fun _ st' y fs' hgoal => ⟨hgoal.1, hgoal.2.1⟩
    · rw [hstepless hnone, LoopTargets.continueTarget, hnone]
      exact .done ⟨rfl, hagrees⟩
  refine Leads.prepend (goes_jump h1 hstands hG1) ?_
  refine (leads_goAround (fun fs => goes_enter (hwaits1 hconditionWaits) hG1) htests hround hsteps
    fuel (Nat.le_refl _) hagrees).goOnBehind ?_
  rintro st' y fs' ⟨rfl, hagrees'⟩
  refine ⟨1, _, fs', goes_enter hnext5 hG5, stands_switchTo h6 hnext5, hready.later hlater, ?_, ?_⟩
  · exact hlater.scopes ▸ hknows
  · exact hlater.scopes ▸ hagrees'

/-- A `while` is a loop without a step. -/
theorem performs_loopWhile {condition : Build Operand}
    (hcondition : X.Follows known (fun _ _ => True) condition evalCondition (X.HoldsTyped .bool))
    (hbody : X.Performs fuel known inner body evalBody) :
    X.Performs fuel known known (loopWhile condition body)
      (Source.goAround evalCondition (Source.Eval.inFrame evalBody) (pure ()) fuel) := by
  refine ⟨fun bound =>
    (builds_loopWhile (hcondition.builds bound) (hbody.builds bound)).outer, ?_⟩
  intro s u s' t x fs st hstep hready hknows hstands hG hagrees
  rw [loopWhile_eq] at hstep
  obtain ⟨next, conditionBlock, bodyBlock, s1, hlater, hstands1, hforks, hloop⟩ :=
    withBlocks_eq_ok hstands hstep
  have hloops : s1.Loops { condition := conditionBlock, step := none, next } bodyBlock t :=
    { conditionWaits := hforks.firstWaits
      bodyWaits := hforks.secondWaits
      stepWaits := by simp
      nextWaits := hforks.nextWaits
      conditionBody := hforks.apart
      conditionStep := by simp
      conditionNext := hforks.firstNext
      bodyStep := by simp
      bodyNext := hforks.secondNext
      stepNext := by simp }
  have htests : X.Tests known (some condition) evalCondition := hcondition
  rw [← hlater.scopes] at hknows hagrees ⊢
  exact leads_loopAt htests
    (.pure fun _ _ _ => trivial) (fun _ => rfl) hbody hloops hloop (hready.later hlater) hknows
    hstands1 hG hagrees

/-- A `for` runs its first part in a scope around the loop. -/
theorem performs_loopFor (hstart : X.Declares known inner start evalStart)
    (hcondition : X.Tests inner condition evalCondition)
    (hstep : X.Follows inner (fun _ _ => True) step evalStep fun _ _ _ _ => True)
    (hbody : X.Performs fuel inner after body evalBody) :
    X.Performs fuel known known (loopFor start condition step body) (Source.Eval.inFrame do
        evalStart
        Source.goAround evalCondition (Source.Eval.inFrame evalBody) evalStep fuel) := by
  rw [loopFor_eq]
  refine Performs.inScope (hstart.andThen (?_ : X.Performs fuel inner inner _ _))
  refine ⟨fun bound => builds_withBlocks fun _ _ _ hnext hcond hstepBlock =>
    .bind (builds_createBlock _ _) fun _ hblock => ?_, ?_⟩
  · exact (builds_loopAt hnext hcond hblock (hcondition.builds _ _ bound)
      (builds_stepAt (by simpa using hstepBlock) (hstep.builds bound)) (hbody.builds bound)).outer
  intro s u s' t x fs st hfor hready hknows hstands hG hagrees
  obtain ⟨next, conditionBlock, stepBlock, s1, hlater1, hstands1, hforks, hrest⟩ :=
    withBlocks_eq_ok hstands hfor
  obtain ⟨bodyBlock, s2, hcreate, hloop⟩ := EStateM.bind_eq_ok.mp hrest
  have hlater : s.Later s2 := hlater1.trans ((builds_createBlock _ _).later hcreate)
  obtain ⟨_, hcondition1⟩ := hforks.firstWaits
  obtain ⟨_, hstep1⟩ := hforks.secondWaits
  obtain ⟨hstands2, hbody2⟩ := stands_createBlock hcreate hstands1
  obtain ⟨hnext2, hbodyNext⟩ := waits_createBlock hcreate hforks.nextWaits
  obtain ⟨hcondition2, hbodyCondition⟩ := waits_createBlock hcreate hcondition1
  obtain ⟨hstep2, hbodyStep⟩ := waits_createBlock hcreate hstep1
  have hloops : s2.Loops { condition := conditionBlock, step := some stepBlock, next }
    bodyBlock t :=
    { conditionWaits := ⟨_, hcondition2⟩
      bodyWaits := ⟨_, hbody2⟩
      stepWaits := by simpa using ⟨_, hstep2⟩
      nextWaits := hnext2
      conditionBody := hbodyCondition.symm
      conditionStep := by simpa using hforks.apart
      conditionNext := hforks.firstNext
      bodyStep := by simpa using hbodyStep
      bodyNext := hbodyNext
      stepNext := by simpa using hforks.secondNext }
  rw [← hlater.scopes] at hknows hagrees ⊢
  exact leads_loopAt hcondition hstep (by simp) hbody hloops hloop (hready.later hlater) hknows
    hstands2 hG hagrees

end Setting

end

end MxStar.Flow
