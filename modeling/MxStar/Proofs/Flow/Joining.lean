import MxStar.Proofs.Flow.Following

/-!
# Arms that meet again

Whatever branches in a body does so in the same way: the current block ends in a
branch, each arm is built in a block of its own, and the arms go on in a block that
has waited since before the branch and ends like the block that was split (`fork`).

The blocks of the arms and the one where they meet are apart, so building one of them
leaves the others waiting (`fork_eq_ok`).  A run takes one arm, whatever the other
one holds, and gets to where control stands in the end (`leads_fork`).
-/

namespace MxStar.Flow

open Build

variable {k : BlockId → BlockId → BlockId → Build Unit}

section

variable {α τ : Type} {view : ScopeStack × StringPool → τ} {s s' : Builder} {t : Option Terminator}
  {block next first second : BlockId} {arm firstArm secondArm : Build Unit} {u : Unit} {bound : Nat}

theorem waits_armAt (harm : ∀ bound, Builds False id bound arm)
    (h : armAt block next arm s = .ok u s') (hne : block ≠ other) (hwaits : s.Waits other t) :
    s'.Waits other t := by
  obtain ⟨_, s1, h1, hrest⟩ := EStateM.bind_eq_ok.mp h
  have hwaits1 := waits_switchTo h1 hne hwaits
  have hrun : Builds False id s1.function.blocks.size (do arm; jump next) :=
    .bind (harm _) fun _ _ => builds_jump _
  exact hrun.waits hrest hwaits1

structure Builder.Forks (s : Builder) (first second next : BlockId) (t : Option Terminator) :
    Prop where
  firstWaits : ∃ t, s.Waits first t
  secondWaits : ∃ t, s.Waits second t
  nextWaits : s.Waits next t
  firstNext : first ≠ next
  secondNext : second ≠ next
  apart : first ≠ second

theorem Builder.Forks.symm (h : s.Forks first second next t) : s.Forks second first next t :=
  ⟨h.secondWaits, h.firstWaits, h.nextWaits, h.secondNext, h.firstNext, h.apart.symm⟩

theorem withBlocks_eq_ok {firstEnd : BlockId → Option Terminator}
    {secondEnd : BlockId → BlockId → Option Terminator} (hstands : s.Stands t x)
    (h : withBlocks tag firstTag secondTag firstEnd secondEnd k s = .ok u s') :
    ∃ next first second s1, s.Later s1 ∧ s1.Stands t x ∧ s1.Forks first second next t ∧
      k next first second s1 = .ok u s' := by
  obtain ⟨t', s0, hinherit, hrest⟩ := EStateM.bind_eq_ok.mp h
  obtain ⟨rfl, rfl⟩ := stands_inheritedTerminator hinherit hstands
  obtain ⟨next, s1, h1, first, s2, h2, hrest⟩ := EStateM.bind2_eq_ok.mp hrest
  obtain ⟨second, s3, h3, hk⟩ := EStateM.bind_eq_ok.mp hrest
  obtain ⟨hstands1, hnext1⟩ := stands_createBlock h1 hstands
  obtain ⟨hstands2, hfirst2⟩ := stands_createBlock h2 hstands1
  obtain ⟨hstands3, hsecond3⟩ := stands_createBlock h3 hstands2
  obtain ⟨hnext2, hfirstNext⟩ := waits_createBlock h2 hnext1
  obtain ⟨hnext3, hsecondNext⟩ := waits_createBlock h3 hnext2
  obtain ⟨hfirst3, hapart⟩ := waits_createBlock h3 hfirst2
  refine ⟨next, first, second, s3, ?_, hstands3,
    ⟨⟨_, hfirst3⟩, ⟨_, hsecond3⟩, hnext3, hfirstNext, hsecondNext, hapart.symm⟩, hk⟩
  have hlater1 : s0.Later s1 := (builds_createBlock _ _).later h1
  have hlater2 : s1.Later s2 := (builds_createBlock _ _).later h2
  have hlater3 : s2.Later s3 := (builds_createBlock _ _).later h3
  exact hlater1.trans (hlater2.trans hlater3)

structure Forked (s : Builder) (branch : Terminator) (first second next : BlockId)
    (firstArm secondArm : Build Unit) (s0 s1 s2 s' : Builder) : Prop where
  ends : terminate branch s = .ok () s0
  buildsFirst : armAt first next firstArm s0 = .ok () s1
  buildsSecond : armAt second next secondArm s1 = .ok () s2
  toFirst : s.Later s0
  toSecond : s0.Later s1
  toNext : s1.Later s2
  toEnd : s2.Later s'
  firstWaits : ∃ t, s0.Waits first t
  secondWaits : ∃ t, s1.Waits second t

theorem fork_eq_ok (hforks : s.Forks first second next t)
    (hfirst : ∀ bound, Builds False id bound firstArm)
    (hsecond : ∀ bound, Builds False id bound secondArm)
    (h : fork branch first second next firstArm secondArm s = .ok u s') :
    ∃ s0 s1 s2, Forked s branch first second next firstArm secondArm s0 s1 s2 s' ∧
      s2.Waits next t ∧ s'.Stands t (.inside next 0) := by
  obtain ⟨_, s0, h0, _, s1, h1, hrest⟩ := EStateM.bind2_eq_ok.mp h
  obtain ⟨_, s2, h2, h3⟩ := EStateM.bind_eq_ok.mp hrest
  have hbranch : Builds False id s.function.blocks.size (terminate branch) _ :=
    builds_terminate branch
  obtain ⟨t1, hfirst0⟩ := hforks.firstWaits
  obtain ⟨t2, hsecond0⟩ := hforks.secondWaits
  have hsecond1 := waits_armAt hfirst h1 hforks.apart (hbranch.waits h0 hsecond0)
  have hnext1 := waits_armAt hfirst h1 hforks.firstNext (hbranch.waits h0 hforks.nextWaits)
  have hnext2 := waits_armAt hsecond h2 hforks.secondNext hnext1
  refine ⟨s0, s1, s2, ⟨h0, h1, h2, ?_, ?_, ?_, ?_, ⟨t1, hbranch.waits h0 hfirst0⟩, ⟨t2, hsecond1⟩⟩,
    hnext2, stands_switchTo h3 hnext2⟩
  · exact (builds_terminate branch).later h0
  · exact (builds_armAt (Nat.zero_le _) (hfirst 0)).later h1
  · exact (builds_armAt (Nat.zero_le _) (hsecond 0)).later h2
  · exact (builds_switchTo (Nat.zero_le _)).later h3

end

section

variable {World α β : Type}

namespace Setting

variable {X : Setting World} {known : Source.Typing} {s s1 s2 s3 s' : Builder}
  {t : Option Terminator} {block next first second : BlockId} {x : Position} {fs : State World}
  {st : Source.State World} {fuel : Nat} {u : Unit} {A : Builder → State World → Prop}
  {arm firstArm secondArm : Build Unit}

/-- **An arm** that has waited is entered, follows its evaluation and goes on at `next`.
It may be built later than the state it starts from was reached. -/
theorem leads_armAt {post : State World → β → Prop}
    (h : X.Follows known A arm ev fun _ fs _ b => post fs b) (hlater : s.Later s1)
    (hstep : armAt block next arm s1 = .ok u s2) (hready : X.Ready s)
    (hknows : X.Knows known s.scopes) (hwaits : ∃ t, s1.Waits block t)
    (hG : Grows s2.function X.function) (hagrees : X.Agrees s.scopes st fs) (hA : Stable A)
    (hpre : A s fs) :
    X.Leads fuel (.start block) fs (ev st) fun b st' y fs' =>
      y = .start next ∧ X.Agrees s.scopes st' fs' ∧ s.Spares fs fs' ∧ post fs' b := by
  obtain ⟨t, hwaits⟩ := hwaits
  obtain ⟨_, s3, hswitch, _, s4, harm, hjump⟩ := EStateM.bind2_eq_ok.mp hstep
  have hlater3 : s1.Later s3 := (builds_switchTo (Nat.zero_le _)).later hswitch
  have hlater4 : s3.Later s4 := (h.builds 0).later harm
  have hlater2 : s4.Later s2 := (builds_jump next).later hjump
  have hG4 := hlater2.grows.trans hG
  have hG1 := hlater3.grows.trans (hlater4.grows.trans hG4)
  refine Leads.prepend (goes_enter hwaits hG1) ?_
  have hopen := hlater.trans hlater3
  rw [← hopen.scopes] at hknows hagrees
  have hleads : X.Leads fuel (.inside block 0) fs (ev st) _ :=
    h.leads harm (hready.later hopen) hknows (stands_switchTo hswitch hwaits) hG4 hagrees
      (hA.later hopen hpre)
  refine hleads.goOn fun b st' y fs' hgoal => ?_
  obtain ⟨hreached, hpost⟩ := hgoal
  refine ⟨0, .start next, fs', goes_jump hjump hreached.stands hG, rfl, ?_, ?_, hpost⟩
  · rw [← hopen.scopes, ← hlater4.scopes]
    exact hreached.agrees
  · intro r hr
    exact hreached.keeps r (hr.trans_le hopen.grows.size)

theorem leads_fork {ev1 ev2 : Source.Eval World β} {post : State World → β → Prop}
    (hfirst : X.Follows known A firstArm ev1 fun _ fs _ b => post fs b)
    (hsecond : X.Follows known A secondArm ev2 fun _ fs _ b => post fs b)
    (hforks : s.Forks first second next t)
    (hstep : fork branch first second next firstArm secondArm s = .ok u s') (hready : X.Ready s)
    (hknows : X.Knows known s.scopes) (hstands : s.Stands t x) (hG : Grows s'.function X.function)
    (hagrees : X.Agrees s.scopes st fs) (hA : Stable A) (hpre : A s fs) {isFirst : Bool}
    (hexec : branch.exec X.environment fs = .at (if isFirst then first else second) fs) :
    X.Leads fuel x fs ((if isFirst then ev1 else ev2) st) fun b st' y fs' =>
      X.Reached s s' t fs st' y fs' ∧ post fs' b := by
  obtain ⟨s0, s1, s2, hforked, hnext, hend⟩ := fork_eq_ok hforks hfirst.builds hsecond.builds hstep
  have hG2 := hforked.toEnd.grows.trans hG
  have hG1 := hforked.toNext.grows.trans hG2
  have hlater1 := hforked.toFirst.trans hforked.toSecond
  have hlater := hlater1.trans (hforked.toNext.trans hforked.toEnd)
  refine Leads.prepend (goes_terminate hforked.ends hstands
    (hforked.toSecond.grows.trans hG1) hexec)
    ?_
  have harm : X.Leads fuel (.start (if isFirst then first else second)) fs
      ((if isFirst then ev1 else ev2) st) fun b st' y fs' =>
        y = .start next ∧ X.Agrees s.scopes st' fs' ∧ s.Spares fs fs' ∧ post fs' b := by
    cases isFirst with
    | true =>
      exact leads_armAt hfirst hforked.toFirst hforked.buildsFirst hready hknows hforked.firstWaits
        hG1 hagrees hA hpre
    | false =>
      exact leads_armAt hsecond hlater1 hforked.buildsSecond hready hknows hforked.secondWaits
        hG2 hagrees hA hpre
  refine harm.goOn ?_
  rintro b st' y fs' ⟨rfl, hagrees', hkeeps, hpost⟩
  rw [← hlater.scopes] at hagrees'
  exact ⟨1, _, fs', goes_enter hnext hG2, ⟨hend, hagrees', hkeeps⟩, hpost⟩

theorem follows_withFork (post : State World → β → Prop) (hA : Stable A)
    (hbuilds : ∀ bound, Builds False id bound (withFork tag firstTag secondTag k))
    (hk : ∀ next first second s s' t x fs st fuel, s.Forks first second next t →
      k next first second s = .ok () s' → X.Ready s → X.Knows known s.scopes → s.Stands t x →
      Grows s'.function X.function → X.Agrees s.scopes st fs → A s fs →
      X.Leads fuel x fs (ev st) fun b st' y fs' => X.Reached s s' t fs st' y fs' ∧ post fs' b) :
    X.Follows known A (withFork tag firstTag secondTag k) ev fun _ fs _ b => post fs b := by
  refine ⟨hbuilds, ?_⟩
  intro s u s' t x fs st fuel hstep hready hknows hstands hG hagrees hpre
  obtain ⟨next, first, second, s1, hlater, hstands1, hforks, hrest⟩ :=
    withBlocks_eq_ok hstands hstep
  rw [← hlater.scopes] at hknows hagrees
  refine (hk next first second s1 s' t x fs st fuel hforks hrest (hready.later hlater) hknows
    hstands1 hG hagrees (hA.later hlater hpre)).mono ?_
  rintro b st' y fs' ⟨hreached, hpost⟩
  refine ⟨⟨hreached.stands, hreached.agrees, fun r hr => ?_⟩, hpost⟩
  exact hreached.keeps r (hr.trans_le hlater.grows.size)

end Setting

end

end MxStar.Flow
