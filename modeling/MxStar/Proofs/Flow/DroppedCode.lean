import MxStar.Proofs.Flow.LoweredUnit
import MxStar.Proofs.Flow.Scoping

/-!
# Code after a jump is dropped

Statements after a jump are lowered like all others.  They create blocks, end them and move
on to them, and what follows an enclosing statement may be built into these blocks as well.
Yet nothing ever leads there: the current block is finished by the jump, so every register may
be counted on after it, and the new blocks count on all of them.  No block that can be reached
has a value for a register that does not exist, so none goes to such a block.

The blocks are found in a run of the body.  `Spot` tells where the statements stand, and
`Build.only` holds the walk over the body to the one state in which they are reached.
-/

namespace MxStar.Flow

open Build
open Source (Typing Expr Stmt ForStart FunctionDef)

/-! ## Blocks that nothing leads to -/

theorem not_overreaches_empty : ¬ Overreaches ∅ :=
  fun ⟨n, h⟩ => h ⟨n⟩ (Nat.le_refl n)

variable {A : BlockId → Set RegisterId} {id : BlockId} {b : Block} {g : Function} {s' : Builder}

theorem Function.Draft.overreaches {f : Function} (h : f.Draft A) (hb : f.blocks.get? id = some b)
    (hafter : Overreaches (f.after A id b.instrs.toList)) : Overreaches (A id) := by
  obtain ⟨n, hn⟩ := hafter
  refine ⟨max n f.registers.size, fun r hr => ?_⟩
  rcases Function.mem_after.mp (hn r (le_of_max_le_left hr)) with hgiven | hcounts | hwritten
  · exact absurd (h.given_lt r hgiven) (Nat.not_lt_of_le (le_of_max_le_right hr))
  · exact hcounts
  · exact absurd (h.written_new id b r hb hwritten).1 (Nat.not_lt_of_le (le_of_max_le_right hr))

/-- Only a block that overreaches goes to one that does, and the entry does not. -/
theorem Function.Sound.not_mem_layout (h : g.Sound A) (hexit : A g.exit = ∅)
    (hid : Overreaches (A id)) : id ∉ g.layout := by
  intro hmem
  have hne : id ≠ g.exit := by
    rintro rfl
    exact not_overreaches_empty (hexit ▸ hid)
  have hpath := h.wellFormed.reachable id hmem hne
  suffices hover : Overreaches (A g.entry) from not_overreaches_empty (h.entry_free ▸ hover)
  clear hmem hne
  induction hpath with
  | refl => exact hid
  | tail _ hc ih =>
    obtain ⟨b, t, hb, hc, hends⟩ := h.draft.ends_of_mem_targets hc
    exact ih (h.draft.overreaches hb (hid.imp fun n hn r hr => hends.vouches _ hc (hn r hr)))

/-! ## Statements that stop -/

/-- A jump, or a block with a statement that stops: what follows in the list is not reached. -/
inductive Stops : Stmt → Prop
  | giveBack (value : Option Expr) : Stops (.giveBack value)
  | breakLoop : Stops .breakLoop
  | continueLoop : Stops .continueLoop
  | block (pre : List Stmt) {j : Stmt} (post : List Stmt) (h : Stops j) :
    Stops (.block (pre ++ j :: post))

section

variable {P : Plan} {κ : Facts} {N : Typing} {ctx : Context} {pre post : List Stmt} {j : Stmt}
  (htyped : ¬ P.typed) (hsized : ¬ P.sized) (hctx : ctx.Suits P κ)
include htyped hsized hctx

theorem proceeds_untyped (l : List Stmt) : Proceeds P κ N (ctx.lowerStmts l) fun _ => True :=
  proceeds_lowerStmts hctx l (fun h => absurd h hsized) fun h => absurd h htyped

theorem halts_concat (hj : ∀ N, Halts P κ N (ctx.lowerStmt j) (· = N)) :
    Halts P κ N (ctx.lowerStmts (pre ++ [j])) fun _ => True := by
  rw [lowerStmts_append, lowerStmts_singleton]
  refine .bind (proceeds_untyped htyped hsized hctx pre) fun N' _ => ?_
  exact fun κ' hle T W O hloops hT => Extends.mono (hj N' hle T W O hloops hT) (le_refl κ')
    fun _ _ _ _ _ h => ⟨h.1, h.2.1, trivial⟩

theorem halts_lowerStmt (hj : Stops j) : ∀ N, Halts P κ N (ctx.lowerStmt j) (· = N) := by
  induction hj with
  | giveBack value =>
    intro N
    rw [Context.lowerStmt]
    exact halts_lowerReturn hctx value fun h => absurd h htyped
  | breakLoop =>
    intro N
    rw [Context.lowerStmt]
    exact halts_loopControl fun _ => .inl rfl
  | continueLoop =>
    intro N
    rw [Context.lowerStmt]
    exact halts_loopControl fun _ => .inr rfl
  | block pre post _ ih =>
    intro N
    rw [Context.lowerStmt, List.append_cons, lowerStmts_append]
    exact ((halts_concat htyped hsized hctx ih).andThen fun N' _ =>
      proceeds_untyped htyped hsized hctx post).inScope

end

/-! ## What the statements after a jump do -/

theorem Edits.finished_eq (h : Edits bound x y) (hb : x.1.blocks.get? id = some b)
    (hfinished : b.finished = true) : y.1.blocks.get? id = some b := by
  induction h with
  | refl => exact hb
  | tail _ hstep ih =>
    have hmodify : ∀ {f : Function} {c : BlockId} {d d' : Block}, f.blocks.get? id = some b →
        f.blocks.get? c = some d → d.finished = false →
        (f.blocks.modify c fun _ => d').get? id = some b := by
      intro f c d d' hid hd hopen
      rw [Table.get?_modify, if_neg, hid]
      rintro rfl
      obtain rfl := Option.mem_unique hid hd
      simp [hfinished] at hopen
    cases hstep with
    | block f c label terminator => exact Table.get?_push_of_get? ih _
    | instr f c d i hd hopen => exact hmodify ih hd hopen
    | finish f c d t hd hopen => exact hmodify ih hd hopen
    | _ => exact ih

theorem Edits.entry_eq (h : Edits bound x y) : y.1.entry = x.1.entry := by
  induction h with
  | refl => rfl
  | tail _ hstep ih => cases hstep <;> exact ih

/-- Where every register may be counted on, only blocks that overreach are changed. -/
theorem Stage.overreaches_of_edits {P : Plan} {A' : BlockId → Set RegisterId} {κ κ' : Facts}
    {T T' : Option Terminator} {W W' : List Waiting} {O O' : Surroundings} {N N' : Typing}
    (h : Stage P A κ T W O N s) (h' : Stage P A' κ' T' W' O' N' s') (hle : κ ≤ κ')
    (hall : κ.registers = Set.univ) (hedits : Edits s.function.blocks.size s.draft s'.draft)
    (hid : s'.function.blocks.get? id ≠ s.function.blocks.get? id) :
    id.val < s'.function.blocks.size ∧ Overreaches (A' id) := by
  have hle := Facts.le_iff.mp hle
  by_cases hlt : id.val < s.function.blocks.size
  · -- an old block is changed only if it is the current one and not finished
    refine ⟨hlt.trans_le hedits.grows.blockCount, ?_⟩
    have hcur : s.current = id := by
      by_contra hne
      exact hid (hedits.waiting hlt (Nat.le_refl _) hne).1
    obtain ⟨b, hb, -, hhere⟩ := h.here
    rw [hcur] at hb hhere
    cases hfinished : b.finished with
    | true => exact absurd ((hedits.finished_eq hb hfinished).trans hb.symm) hid
    | false =>
      have hover : Overreaches (A id) := h.draft.overreaches hb
        ⟨0, fun r _ => hhere hfinished (hall ▸ Set.mem_univ r)⟩
      rcases h.known id hlt with rfl | hknown
      · exact absurd (h.entry ▸ hover) not_overreaches_empty
      · rwa [show A' id = A id from (h'.facts _ (hle.blocks hknown)).2.2]
  · have hnone : ∀ {f : Function}, ¬ id.val < f.blocks.size → f.blocks.get? id = none := fun h =>
      Option.eq_none_iff_forall_ne_some.mpr fun _ hb => h (Table.lt_size_of_get? hb)
    have hnew : id.val < s'.function.blocks.size := by
      by_contra hnot
      exact hid ((hnone hnot).trans (hnone hlt).symm)
    refine ⟨hnew, ?_⟩
    rcases h'.known id hnew with rfl | hknown
    · exact absurd (hedits.entry_eq ▸ h.entry_lt) hlt
    · rcases hle.fresh _ hknown with hold | hsub
      · exact absurd (h.facts _ hold).1 hlt
      · exact ⟨0, fun r _ => hsub (hall ▸ Set.mem_univ r)⟩

open Classical in
/-- A step that is taken in some states only. -/
noncomputable def Build.only (p : Builder → Prop) (step : Build Unit) : Build Unit := fun s =>
  if p s then step s else .error .outOfRange s

theorem buries_only {P : Plan} {κ : Facts} {N : Typing} {ctx : Context} {pre post : List Stmt}
    {j : Stmt} {p : Builder → Prop} {s2 s3 : Builder} (htyped : ¬ P.typed) (hsized : ¬ P.sized)
    (hctx : ctx.Suits P κ) (hj : Stops j) (hrun : ∀ s, p s →
      ctx.lowerStmts (pre ++ [j]) s = .ok () s2 ∧ ctx.lowerStmts post s2 = .ok () s3) :
    Buries P κ N (Build.only p (ctx.lowerStmts (pre ++ j :: post))) (fun _ => True)
      {id | s3.function.blocks.get? id ≠ s2.function.blocks.get? id} := by
  intro κ1 h1 T W O hloops hT s hs
  by_cases hp : p s
  · obtain ⟨h2, h3⟩ := hrun s hp
    have hhalts : Halts P κ N (ctx.lowerStmts (pre ++ [j])) fun _ => True :=
      halts_concat htyped hsized hctx (halts_lowerStmt htyped hsized hctx hj)
    replace hhalts := hhalts h1 T W O hloops hT s hs
    rw [h2] at hhalts
    obtain ⟨κ2, T2, N2, hle2, ⟨hall, hT2, -⟩, hat2⟩ := hhalts
    have hproceeds := proceeds_untyped (N := N2) htyped hsized hctx post (h1.trans hle2) T2 W O
      (hloops.mono hle2) hT2 s2 hat2
    rw [h3] at hproceeds
    obtain ⟨κ3, T3, N3, hle3, hQ, ⟨A3, hstage3⟩, hmoved⟩ := hproceeds
    obtain ⟨⟨A2, hstage2⟩, -⟩ := hat2
    rw [Build.only, if_pos hp, List.append_cons, lowerStmts_append]
    simp only [bind, EStateM.bind, h2, h3]
    refine ⟨_, T3, N3, Facts.bury_mono (hle2.trans hle3) _, hQ, ⟨A3, hstage3.bury fun id hid => ?_⟩,
      hmoved⟩
    have hedits := (builds_lowerStmts (P := False) ctx post h3 (Nat.le_refl _)).1
    exact hstage2.overreaches_of_edits hstage3 hle3 hall hedits hid
  · rw [Build.only, if_neg hp]
    rfl

/-! ## Places inside of a body -/

/-- A place for statements anywhere in a list of statements. -/
inductive Spot : (List Stmt → List Stmt) → Prop
  | place {c : List Stmt → List Stmt} (h : Place c) : Spot c
  | whileLoop (condition : Expr) : Spot fun l => [.whileLoop condition l]
  | forLoop (start : Option ForStart) (condition step : Option Expr) :
    Spot fun l => [.forLoop start condition step l]
  | comp {c c' : List Stmt → List Stmt} (h : Spot c) (h' : Spot c') : Spot fun l => c (c' l)

/-- What is built at a place is built inside a frame, and the frame leaves behind what is left
behind there. -/
structure Frames (ctx : Context) (c : List Stmt → List Stmt) (frame : Build Unit → Build Unit) :
    Prop where
  framed : FramedBy ctx c frame fun _ _ => True
  buries : ∀ {P : Plan} {κ : Facts} {step : Build Unit} {dead : Set BlockId}, ¬ P.typed →
    ¬ P.sized → ctx.Suits P κ → (∀ N, Buries P κ N step (fun _ => True) dead) →
      ∀ N, Buries P κ N (frame step) (fun _ => True) dead

namespace Buries

variable {P : Plan} {κ : Facts} {N : Typing} {R R' : Typing → Prop} {step : Build Unit}
  {dead dead' : Set BlockId}

theorem weaken (h : Buries P κ N step R dead) (hdead : dead' ⊆ dead) :
    Buries P κ N step (fun _ => True) dead' := by
  intro κ' hle T W O hloops hT
  refine (h hle T W O hloops hT).mono (fun _ hs => hs) ?_
  rintro _ s ⟨κ1, T1, N1, h1, hQ, hs⟩
  have hle1 := (κ'.le_bury dead).trans h1
  exact ⟨κ1, T1, N1, Facts.bury_le hle1 (hdead.trans (Facts.subset_of_bury_le h1)),
    ⟨hQ.1, trivial⟩, hs⟩

theorem bind {k : Unit → Build Unit} (hx : Buries P κ N x R dead)
    (hk : ∀ N', Buries P κ N' (k ()) R' dead') :
    Buries P κ N (x >>= k) (fun _ => True) (dead ∪ dead') := by
  intro κ' hle T W O hloops hT
  refine (hx hle T W O hloops hT).andThen fun _ κ1 T1 N1 h1 hQ => ?_
  have hle1 := (κ'.le_bury dead).trans h1
  refine ((hk N1).weaken Set.Subset.rfl (hle.trans hle1) T1 W O (hloops.mono hle1) hQ.1).lower ?_
  exact Facts.bury_le (hle1.trans (κ1.le_bury dead'))
    (Set.union_subset ((Facts.subset_of_bury_le h1).trans Set.subset_union_left)
      Set.subset_union_right)

end Buries

namespace Frames

variable {ctx : Context} {c c' : List Stmt → List Stmt} {frame frame' : Build Unit → Build Unit}

theorem comp (h : Frames ctx c frame) (h' : Frames ctx c' frame') :
    Frames ctx (fun l => c (c' l)) fun step => frame (frame' step) where
  framed := h.framed.comp h'.framed fun _ _ _ _ _ => trivial
  buries := fun htyped hsized hctx hstep =>
    h.buries htyped hsized hctx (h'.buries htyped hsized hctx hstep)

theorem list (ctx : Context) (before after : List Stmt) : Frames ctx (fun l => before ++ l ++ after)
    fun step => ctx.lowerStmts before >>= fun _ => step >>= fun _ => ctx.lowerStmts after where
  framed := (FramedBy.list ctx before after).anywhere
  buries := by
    intro P κ step dead htyped hsized hctx hstep N
    have hlist := fun l N => (proceeds_untyped (N := N) htyped hsized hctx l).buries
    exact ((hlist before N).bind fun N' => (hstep N').bind (hlist after)).weaken (by simp)

theorem block (ctx : Context) : Frames ctx (fun l => [.block l]) inScope where
  framed := (FramedBy.block ctx).anywhere
  buries := fun _ _ _ hstep N => (hstep N).inScope.weaken Set.Subset.rfl

theorem positive (ctx : Context) (condition : Expr) (negative : List Stmt) :
    Frames ctx (fun l => [.ifElse condition l negative]) fun step =>
      branchOn (ctx.lowerCondition condition) step
        (if negative.isEmpty then none else some (ctx.lowerStmts negative)) where
  framed := (FramedBy.positive ctx condition negative).anywhere
  buries := by
    intro P κ step dead htyped hsized hctx hstep N
    have hneg : ∀ step' ∈ if negative.isEmpty then none else some (ctx.lowerStmts negative),
        Buries P κ N step' (fun _ => True) ∅ := by
      intro step' hstep'
      split at hstep'
      · cases hstep'
      · cases hstep'
        exact (proceeds_untyped htyped hsized hctx negative).buries
    exact (buries_branchOn (offers_lowerCondition hctx fun h => absurd h htyped) (hstep N)
      hneg).weaken fun id hid => .inl hid

theorem negative (ctx : Context) (condition : Expr) (positive : List Stmt) :
    Frames ctx (fun l => [.ifElse condition positive l]) fun step =>
      branchOn (ctx.lowerCondition condition) (ctx.lowerStmts positive) (some step) where
  framed := (FramedBy.negative ctx condition positive).anywhere
  buries := by
    intro P κ step dead htyped hsized hctx hstep N
    refine (buries_branchOn (offers_lowerCondition hctx fun h => absurd h htyped)
      (proceeds_untyped htyped hsized hctx positive).buries fun step' hstep' => ?_).weaken
      fun id hid => .inr ⟨hid, rfl⟩
    cases hstep'
    exact hstep N

theorem whileLoop (ctx : Context) (condition : Expr) :
    Frames ctx (fun l => [.whileLoop condition l]) (loopWhile (ctx.lowerCondition condition)) where
  framed := ⟨fun l _ => ⟨by simp, by rw [lowerStmts_singleton, Context.lowerStmt]⟩,
    (surrounds_loopWhile _).mono fun _ _ _ => trivial⟩
  buries := fun htyped _ hctx hstep N => (buries_loopWhile
    (offers_lowerCondition hctx fun h => absurd h htyped) (hstep N)).weaken Set.Subset.rfl

theorem forLoop (ctx : Context) (start : Option ForStart) (condition step : Option Expr) :
    Frames ctx (fun l => [.forLoop start condition step l])
      (loopFor (ctx.lowerStart start) (condition.map ctx.lowerCondition)
        (step.elim (pure ()) ctx.runExpr)) where
  framed := ⟨fun l _ => ⟨by simp, by rw [lowerStmts_singleton, Context.lowerStmt]⟩,
    (surrounds_loopFor _ _ _).mono fun _ _ _ => trivial⟩
  buries := by
    intro P κ body dead htyped hsized hctx hbody N
    have hstart : Proceeds P κ N (ctx.lowerStart start) (· = N) :=
      proceeds_lowerStart hctx start (fun h => absurd h hsized) fun h => absurd h htyped
    refine (buries_loopFor hstart ?_ ?_ (hbody N)).weaken Set.Subset.rfl
    · intro test htest
      obtain ⟨e, -, rfl⟩ := Option.mem_map.mp htest
      exact offers_lowerCondition hctx fun h => absurd h htyped
    · cases step with
      | none => exact .nothing
      | some e => exact proceeds_runExpr hctx fun h => absurd h htyped

end Frames

theorem Place.exists_frames {c : List Stmt → List Stmt} (h : Place c) (ctx : Context) :
    ∃ frame, Frames ctx c frame := by
  induction h with
  | list before after => exact ⟨_, .list ctx before after⟩
  | block => exact ⟨_, .block ctx⟩
  | positive condition negative => exact ⟨_, .positive ctx condition negative⟩
  | negative condition positive => exact ⟨_, .negative ctx condition positive⟩
  | comp _ _ ih ih' =>
    obtain ⟨frame, hframe⟩ := ih
    obtain ⟨frame', hframe'⟩ := ih'
    exact ⟨_, hframe.comp hframe'⟩

theorem Spot.exists_frames {c : List Stmt → List Stmt} (h : Spot c) (ctx : Context) :
    ∃ frame, Frames ctx c frame := by
  induction h with
  | place h => exact h.exists_frames ctx
  | whileLoop condition => exact ⟨_, .whileLoop ctx condition⟩
  | forLoop start condition step => exact ⟨_, .forLoop ctx start condition step⟩
  | comp _ _ ih ih' =>
    obtain ⟨frame, hframe⟩ := ih
    obtain ⟨frame', hframe'⟩ := ih'
    exact ⟨_, hframe.comp hframe'⟩

/-! ## Whole bodies -/

/-- The state in which a body of a unit is begun. -/
def BodySource.start (source : BodySource) (unit : UnitState) : Builder where
  function := { name := source.name, returnType := source.returnType }
  strings := unit.strings
  nextLabel := unit.nextLabel
  log := unit.log.push (.loweringFunction source.name)

theorem exists_bodySteps_eq {frame : Context → Build Unit → Build Unit}
    (h : ∀ ctx, Surrounds (frame ctx) fun _ _ => True) (ctx : Context) (source : BodySource)
    (callInitializer : Bool) :
    ∃ (α : Type) (before : Build α) (inner : α → Context) (after : α → Build Unit),
      ∀ fill : Context → Build Unit, bodySteps ctx source (fun ctx => do
        if callInitializer then
          callVoid Linkage.globalInitializer []
        frame ctx (fill ctx)) = before >>= fun a => fill (inner a) >>= fun _ => after a := by
  choose β before after heq _ using h
  let inside (x : Option Receiver × Option RegisterId) : Context :=
    { ctx with function := source.name, receiver := x.1, returnCell := x.2 }
  refine ⟨Σ x, β (inside x), do
    let receiver ← openReceiver source.owner
    let returnCell ← openReturnCell source.returnType
    source.parameters.forM declareParameter
    if callInitializer then
      callVoid Linkage.globalInitializer []
    let b ← before (inside (receiver, returnCell))
    return ⟨(receiver, returnCell), b⟩, fun a => inside a.1,
    fun a => after (inside a.1) a.2 >>= fun _ => closeBody source.returnType a.1.2, fun fill => ?_⟩
  cases callInitializer <;> simp [bodySteps, heq, inside]

theorem pruneNoted_of_finishBody (h : finishBody s = .ok g s') :
    ∃ log, s.function.pruneNoted s.log = .ok g log := by
  obtain ⟨s0, s1, hget, h⟩ := EStateM.bind_eq_ok.mp h
  obtain ⟨h0, h1⟩ := get_eq_ok hget
  rw [h0, h1] at h
  obtain ⟨f, s2, hprune, _, s3, -, h⟩ := EStateM.bind2_eq_ok.mp h
  obtain ⟨_, -, rfl⟩ := EStateM.bind_pure_eq_ok.mp h
  obtain ⟨log, hpruned, -⟩ := logged_cases hprune
  exact ⟨log, hpruned⟩

theorem Plan.Completes.not_mem_layout {P : Plan} {dead : Set BlockId} {closed : Builder}
    (h : P.Completes dead closed) (hfinish : finishBody closed = .ok g s') (hid : id ∈ dead) :
    id ∉ g.layout := by
  obtain ⟨A, hcomplete, hexit, hdead⟩ := h.complete
  obtain ⟨log, hprune⟩ := pruneNoted_of_finishBody hfinish
  obtain ⟨g', log', hprune', hsound⟩ := hcomplete.pruneNoted closed.log
  rw [hprune] at hprune'
  injection hprune' with hg
  subst hg
  have hsame := (sameCode_of_finishBody hfinish).exit
  exact hsound.not_mem_layout (by rw [hsame, hexit]) (hdead id hid)

theorem Frames.buries_body {c : List Stmt → List Stmt} {frame : Build Unit → Build Unit}
    (h : Frames ctx c frame) {dead : Set BlockId} (htyped : ¬ P.typed) (hsized : ¬ P.sized)
    (hctx : ctx.Suits P κ) (hcall : P.vocabulary.calls Linkage.globalInitializer)
    (hstep : ∀ N, Buries P κ N step (fun _ => True) dead) (callInitializer : Bool) :
    Buries P κ N (do
      if callInitializer then
        callVoid Linkage.globalInitializer []
      frame step) (fun _ => True) dead := by
  have hframe := h.buries htyped hsized hctx hstep
  cases callInitializer with
  | false => simpa using hframe N
  | true =>
    have hcalled : Proceeds P κ N (callVoid Linkage.globalInitializer []) (· = N) :=
      .of_offers (Q := fun _ _ => True) fun _ _ _ _ _ => yields_callVoid hcall (by simp)
    simpa using hcalled.buries.bind hframe

/-- **Code after a jump is dropped.**  Whatever stands after a `return`, `break` or `continue`
in a list of statements, at any depth of a body: the blocks that are created or changed while it
is lowered are not laid out in the finished function.  The same holds of what follows a block
that such a list is in, which may still be built into those blocks. -/
theorem code_after_jump_is_dropped {p : Source.Program} {symbols : Source.Symbols} {placed : Placed}
    (hplaced : placeGlobals p = .ok placed) {c : List Stmt → List Stmt} (hc : Spot c)
    {pre post : List Stmt} {j : Stmt} (hj : Stops j) {owner : Option String} {f : FunctionDef}
    (hbody : f.body = c (pre ++ j :: post)) {callInitializer : Bool} {ctx : Context}
    (hctx : ctx =
      { symbols, structs := structsOf symbols, globals := placed.globals, function := "" })
    {unit unit' : UnitState} {g : Function}
    (h : lowerFunctionDef ctx owner callInitializer f unit = .ok g unit') :
    ∃ (α : Type) (before : Build α) (inner : α → Context) (after : α → Build Function) (a : α)
      (s1 s2 s3 s4 : Builder),
      (∀ l ≠ [], buildBody ctx (bodySource owner f)
        (fun ctx => ctx.lowerBody callInitializer (c l)) =
        before >>= fun a => (inner a).lowerStmts l >>= fun _ => after a) ∧
      before ((bodySource owner f).start unit) = .ok a s1 ∧
      (inner a).lowerStmts (pre ++ [j]) s1 = .ok () s2 ∧
      (inner a).lowerStmts post s2 = .ok () s3 ∧ after a s3 = .ok g s4 ∧
      ∀ id, s3.function.blocks.get? id ≠ s2.function.blocks.get? id → id ∉ g.layout := by
  choose frame hframe using fun ctx => hc.exists_frames ctx
  obtain ⟨α, before, inner, after, hfill⟩ := exists_bodySteps_eq
    (fun ctx => (hframe ctx).framed.surrounds)
    ctx (bodySource owner f) callInitializer
  have hsteps : ∀ l ≠ [], bodySteps ctx (bodySource owner f)
      (fun ctx => ctx.lowerBody callInitializer (c l)) =
        before >>= fun a => (inner a).lowerStmts l >>= fun _ => after a := by
    intro l hl
    rw [← hfill fun ctx => ctx.lowerStmts l]
    simp only [Context.lowerBody, ((hframe _).framed.eq l hl).2]
  -- the states of the run
  obtain ⟨s', hbuild⟩ : ∃ s', buildBody ctx (bodySource owner f)
      (fun ctx => ctx.lowerBody callInitializer f.body) ((bodySource owner f).start unit) =
        .ok g s' := by
    have hrun : runBody ctx (bodySource owner f) (fun ctx => ctx.lowerBody callInitializer f.body)
        { unit with log := unit.log.push (.loweringFunction (bodySource owner f).name) } =
          .ok g unit' := h
    simp only [runBody, EStateM.run] at hrun
    split at hrun
    · rename_i g' s' hbuild
      injection hrun with hg
      exact ⟨s', hg ▸ hbuild⟩
    · cases hrun
  rw [buildBody_eq, hbody] at hbuild
  obtain ⟨_, opened, hopen, _, closed, hclosed, hfinish⟩ := EStateM.bind2_eq_ok.mp hbuild
  rw [hsteps _ (by simp)] at hclosed
  obtain ⟨a, s1, hbefore, _, s3, hlist, hafter⟩ := EStateM.bind2_eq_ok.mp hclosed
  rw [List.append_cons, lowerStmts_append] at hlist
  obtain ⟨_, s2, h2, h3⟩ := EStateM.bind_eq_ok.mp hlist
  refine ⟨α, openBlocks >>= fun _ => before, inner, fun a => after a >>= fun _ => finishBody, a,
    s1, s2, s3, s', fun l hl => ?_, ?_, h2, h3, ?_, fun id hid => ?_⟩
  · rw [buildBody_eq, hsteps l hl]
    simp only [bind_assoc]
  · exact EStateM.bind_eq_ok.mpr ⟨_, _, hopen, hbefore⟩
  · exact EStateM.bind_eq_ok.mpr ⟨_, _, hafter, hfinish⟩
  -- the same run, in a walk that only goes on from its own states
  let U : UnitPlan := {
    symbols, globals := p.globalTyping, typed := False, sized := False
    vocabulary :=
      { structs := structsOf symbols, globals := placed.globals, calls := fun _ => True } }
  have hshares : ctx.Shares U := by
    subst hctx
    exact { covers := ⟨rfl, rfl, fun _ _ => trivial, fun _ _ _ => trivial, fun _ _ => trivial⟩
            structs := rfl
            global := find?_placeGlobals hplaced }
  let P : Plan := ⟨U, owner, f.returnType, opened⟩
  let fill (ctx : Context) : Build Unit :=
    Build.only (fun s => ctx = inner a ∧ s = s1) (ctx.lowerStmts (pre ++ j :: post))
  have hdrafts : Drafts (At P .start (some (.jump ⟨1⟩)) [waitingExit] ([], none)
      (symbols.outerTyping owner p.globalTyping)) (bodySteps ctx (bodySource owner f) fun ctx => do
        if callInitializer then
          callVoid Linkage.globalInitializer []
        frame ctx (fill ctx))
      fun _ => P.Completes {id | s3.function.blocks.get? id ≠ s2.function.blocks.get? id} := by
    refine drafts_bodySteps hshares rfl rfl (fun h => h.elim) fun ctx κ hsuits => ?_
    refine (hframe ctx).buries_body not_false not_false hsuits trivial (fun N => ?_) _
    refine buries_only not_false not_false hsuits hj ?_
    rintro s ⟨rfl, rfl⟩
    exact ⟨h2, h3⟩
  have hcompletes := hdrafts opened (at_openBlocks rfl rfl hopen rfl)
  have hrun : (before >>= fun a => fill (inner a) >>= fun _ => after a) opened = .ok () closed := by
    refine EStateM.bind2_eq_ok.mpr ⟨a, s1, hbefore, (), s3, ?_, hafter⟩
    rw [← hlist, ← lowerStmts_append, ← List.append_cons]
    exact if_pos ⟨rfl, rfl⟩
  rw [hfill, hrun] at hcompletes
  exact hcompletes.not_mem_layout hfinish hid

/-- Leaves its loop at once, in front of another one. -/
def leaver : FunctionDef :=
  let always : Expr := .literal { base := .bool } (.boolean true)
  { name := "main", returnType := { base := .void }, parameters := []
    body := [.whileLoop always [.breakLoop, .whileLoop always [.continueLoop]]] }

theorem code_after_jump_is_dropped_leaver :
    let ctx : Context := { symbols := {}, structs := structsOf {}, globals := [], function := "" }
    let always : Expr := .literal { base := .bool } (.boolean true)
    ∃ g unit, lowerFunctionDef ctx none false leaver { log := #[] } = .ok g unit ∧
      g.layout = [⟨0⟩, ⟨3⟩, ⟨4⟩, ⟨2⟩, ⟨1⟩] ∧ ∃ (inner : Context) (s2 s3 : Builder),
        inner.lowerStmts [.whileLoop always [.continueLoop]] s2 = .ok () s3 ∧
          ∀ id, s3.function.blocks.get? id ≠ s2.function.blocks.get? id → id ∉ g.layout := by
  intro ctx always
  have hfacts : (lowerFunctionDef ctx none false leaver { log := #[] }).passes (fun g =>
      g.layout == [⟨0⟩, ⟨3⟩, ⟨4⟩, ⟨2⟩, ⟨1⟩]) = true := by cbv
  obtain ⟨g, unit, hlower, hlayout⟩ := EStateM.exists_of_passes hfacts
  have hbody : leaver.body =
    [.whileLoop always ([] ++ .breakLoop :: [.whileLoop always [.continueLoop]])] := rfl
  obtain ⟨_, _, inner, _, a, s1, s2, s3, s4, -, -, -, hpost, -, hdropped⟩ :=
    code_after_jump_is_dropped (p := []) rfl (.whileLoop always) .breakLoop hbody rfl hlower
  exact ⟨g, unit, hlower, eq_of_beq hlayout, inner a, s2, s3, hpost, hdropped⟩

end MxStar.Flow
