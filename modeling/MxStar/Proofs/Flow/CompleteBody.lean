import MxStar.Proofs.Flow.DraftingStmt

/-!
# Complete bodies

A body starts with an entry, which goes to the exit, and an exit that waits until
the statements are built.  When the exit has been closed, every block is laid out
and ended: `Function.Complete`.  All of the code is typed right, also what stands around
the statements and is not seen in the source.
-/

namespace MxStar.Flow

open Build

/-- A function whose construction is over, but for its edge sets. -/
structure Function.Complete (f : Function) (A : BlockId → Set RegisterId) : Prop where
  draft : f.Draft A
  entry_free : A f.entry = ∅
  laidOut : f.layout.Perm f.blocks.indices
  first : f.layout.head? = some f.entry
  last : f.layout.getLast? = some f.exit
  ended : ∀ id b, f.blocks.get? id = some b → b.terminator.isSome
  returns : ∃ b v, f.blocks.get? f.exit = some b ∧ b.terminator = some (.ret v)

/-- What is known at the start of a body. -/
def Facts.start : Facts where
  registers := ∅
  blocks := {(⟨1⟩, ∅)}
  dead := ∅
  given := ∅
  exit := ⟨1⟩
  types := ∅
  strings := 0

def waitingExit : Waiting :=
  ⟨⟨1⟩, none, ∅⟩

section

variable {P : Plan} {κ : Facts} {T : Option Terminator} {W : List Waiting} {O : Surroundings}
  {N : Source.Typing}

open Plan

theorem get?_pair_cases {id : BlockId}
    (h : (Table.mk #[b, c] : Table .block Block).get? id = some d) :
    id = ⟨0⟩ ∧ d = b ∨ id = ⟨1⟩ ∧ d = c := by
  rcases id with ⟨_ | _ | n⟩
  · exact .inl ⟨rfl, (Option.some.inj h).symm⟩
  · exact .inr ⟨rfl, (Option.some.inj h).symm⟩
  · simp [Table.get?] at h

section

variable {f : Function} {exit entry : Block} (hblocks : f.blocks = ⟨#[entry, exit]⟩)
include hblocks

theorem draft_start (hgiven : f.given = [])
    (hentry : entry.instrs = #[] ∧ entry.terminator = some (.jump ⟨1⟩))
    (hexit : exit.instrs = #[] ∧ exit.terminator = none)
    (hopen : entry.finished = false ∧ exit.finished = false) (hfirst : f.entry = ⟨0⟩) :
    f.Draft fun _ => ∅ := by
  have hget : ∀ id b, f.blocks.get? id = some b → b.instrs = #[] ∧ b.finished = false ∧
      ∀ t, b.terminator = some t → t = .jump ⟨1⟩ := by
    intro id b hb
    rw [hblocks] at hb
    rcases get?_pair_cases hb with ⟨-, rfl⟩ | ⟨-, rfl⟩
    · exact ⟨hentry.1, hopen.1, fun t ht => by simpa [hentry.2, eq_comm] using ht⟩
    · exact ⟨hexit.1, hopen.2, fun t ht => by simp [hexit.2] at ht⟩
  refine ⟨by simp [hgiven], by simp [hgiven], ?_, ?_, ?_, ?_, ?_, ?_, ?_⟩
  · intro id b hb
    simp [(hget id b hb).1, written]
  · intro id id' b b' r hb _ hr _
    simp [(hget id b hb).1, written] at hr
  · intro id b r hb hr
    simp [(hget id b hb).1, written] at hr
  · intro id b hb
    simp [(hget id b hb).1]
  · intro id b hb
    simp [(hget id b hb).1, Ordered]
  · intro id b t hb ht
    obtain rfl := (hget id b hb).2.2 t ht
    refine ⟨by simp [Terminator.operands], ?_, ?_, by simp, by simp⟩
    · simp [Terminator.successors, hblocks, Table.size]
    · simp [Terminator.successors, hfirst]
  · intro id b hb hfinished
    simp [(hget id b hb).2.1] at hfinished

theorem Checking.holds_start {C : Checking} (hregs : f.registers = ∅)
    (hinstrs : entry.instrs = #[] ∧ exit.instrs = #[]) (hcells : f.cells = #[])
    (hterms : entry.terminator = some (.jump ⟨1⟩) ∧ exit.terminator = none) : C.Holds f := by
  refine ⟨by simp [hcells], fun r ty hr => ?_, fun id b hb => ?_, fun id b hb => ?_⟩
  · obtain ⟨info, hinfo, -⟩ := Function.registerType_eq_ok.mp hr
    rw [hregs] at hinfo
    cases hinfo
  · rw [hblocks] at hb
    rcases get?_pair_cases hb with ⟨-, rfl⟩ | ⟨-, rfl⟩
    · simp [hinstrs.1]
    · simp [hinstrs.2]
  · rw [hblocks] at hb
    rcases get?_pair_cases hb with ⟨-, rfl⟩ | ⟨-, rfl⟩
    · simp [hterms.1, C.ends_jump]
    · simp [hterms.2]

end

variable {returnType ty : Ty} {dead : Set BlockId}

theorem at_openBlocks {name : String} {a : Unit} (hfun : s.function = { name, returnType })
    (hscopes : s.scopes = {}) (h : openBlocks s = .ok a s') (horigin : P.origin = s') :
    At P .start (some (.jump ⟨1⟩)) [waitingExit] ([], none)
      (P.symbols.outerTyping P.owner P.globals) s' := by
  obtain ⟨function, current, scopes, strings, nextLabel, log⟩ := s
  simp only at hfun hscopes
  subst hfun hscopes
  injection h with _ hs'
  subst hs'
  refine ⟨⟨fun _ => ∅, draft_start rfl rfl ⟨rfl, rfl⟩ ⟨rfl, rfl⟩ ⟨rfl, rfl⟩ rfl, ?_,
    rfl, ?_, ?_, ?_,
    ?_, ?_, ?_, ?_, by simp [Facts.start], rfl, ⟨rfl, rfl⟩, ?_, rfl, ?_, ?_, Nat.zero_le _, ?_⟩,
    horigin ▸ .refl⟩
  · exact List.Perm.refl _
  · exact List.mem_singleton.mpr rfl
  · exact ⟨_, rfl, rfl, fun _ => Set.empty_subset _⟩
  · intro id hid hne
    exact absurd (List.mem_singleton.mp hid) hne
  · intro w hw
    obtain rfl := List.mem_singleton.mp hw
    exact ⟨by simp [Facts.start, waitingExit], by simp [waitingExit], _, rfl, rfl, rfl⟩
  · intro t ht
    cases ht
    exact fits_jump ⟨∅, by simp [Facts.start], Set.empty_subset _⟩
  · intro p hp
    obtain rfl := hp
    exact ⟨Nat.one_lt_two, fun h => absurd (Index.mk.inj h) Nat.one_ne_zero, rfl⟩
  · rintro ⟨id⟩ (hid : id < 2)
    rcases Nat.le_one_iff_eq_zero_or_eq_one.mp (Nat.le_of_lt_succ hid) with rfl | rfl
    · exact .inl rfl
    · exact .inr rfl
  · simp [Facts.start]
  · exact fun f _ => Checking.holds_start rfl rfl ⟨rfl, rfl⟩ rfl ⟨rfl, rfl⟩
  · simp [Facts.Describes, Facts.start]
  · exact fun name _ => rfl

/-! ## What stands before the statements -/

theorem drafts_addParameter :
    Drafts (fun s => Staged P κ T W O N s ∧ s.function.Unused r)
      (modifyFunction fun f => { f with parameters := f.parameters ++ [r] })
      fun _ => Staged P (κ.learn r) T W O N := by
  rintro s ⟨⟨A, hs⟩, hr⟩
  have hgiven : ∀ q, q ∈ Function.given { s.function with
      parameters := s.function.parameters ++ [r] } ↔ q ∈ s.function.given ∨ q = r := by
    intro q
    simp only [Function.given, List.mem_append, List.mem_singleton]
    tauto
  refine ⟨A, Stage.learn ?_ ((hgiven r).mpr (.inr rfl))⟩
  refine hs.grow ⟨rfl, rfl, rfl, rfl, rfl, rfl, rfl, .refl _, fun q hq => (hgiven q).mpr (.inl hq),
    fun _ _ => rfl⟩ ?_ rfl
    fun f hf => ⟨(hs.holds f hf).cells, (hs.holds f hf).flat, (hs.holds f hf).instrs,
      (hs.holds f hf).terminators⟩
  refine hs.draft.grow rfl rfl rfl (Nat.le_refl _) (fun q hq => (hgiven q).mpr (.inl hq)) ?_ ?_
  · have hnodup : (r :: s.function.given).Nodup :=
      List.nodup_cons.mpr ⟨hr.not_given, hs.draft.given_nodup⟩
    refine (List.Perm.nodup_iff ?_).mpr hnodup
    simp only [Function.given, List.append_assoc, List.singleton_append]
    exact List.perm_middle
  · intro q hq
    refine ((hgiven q).mp hq).imp_right ?_
    rintro rfl
    exact ⟨hr.lt, hr.not_written⟩

theorem drafts_parameter (hty : ty.IsFlat) {α : Type} {k : RegisterId → Build α}
    {post : α → Builder → Prop}
    (hk : ∀ r κ', κ ≤ κ' → κ'.Gives r ty → Drafts (At P κ' T W O N) (k r) post) :
    Drafts (At P κ T W O N) (do
      let register ← createRegister ty name
      modifyFunction fun f => { f with parameters := f.parameters ++ [register] }
      k register) post := by
  have hparam : Yields P κ T W O N (do
      let register ← createRegister ty name
      modifyFunction fun f => { f with parameters := f.parameters ++ [register] }
      return register) fun κ' r => κ'.Gives r ty := by
    refine yields_of_drafts ?_ fun s r s' hstep _ => ?_
    · refine Drafts.bind (drafts_createRegister hty name) fun register => ?_
      refine Drafts.bind drafts_addParameter fun _ => Drafts.pure fun s hs => ?_
      exact ⟨_, (κ.le_assume register ty).trans (Facts.le_learn _ register),
        ⟨Set.mem_insert _ _, Set.mem_insert _ _⟩, hs⟩
    · injection hstep with _ hs'
      subst hs'
      exact .tail (.single (.register s _)) (.parameter _ _)
  have hsteps := hparam.andThen hk
  simpa only [bind_assoc, pure_bind] using hsteps

theorem yields_openReceiver (owner : Option String) :
    Yields P κ T W O N (openReceiver owner) fun κ' receiver =>
      receiver.map Receiver.className = owner ∧
        ∀ r ∈ receiver, κ'.Gives r.register (.object r.className) := by
  cases owner with
  | none => exact .pure ⟨rfl, by simp⟩
  | some className =>
    refine drafts_parameter (show (Ty.object className).IsFlat from .inr trivial)
      fun register κ1 h1 hreg => ?_
    exact .pure fun s hs => ⟨κ1, T, N, h1, ⟨rfl, rfl, rfl, by simpa using hreg⟩, hs⟩

theorem Plan.stored_zero (hkept : ty.IsKept) (hvoid : ty ≠ .void) :
    P.Stored κ ty.shape (.constant ty.zero) := by
  refine ⟨_, P.has_constant κ _, fun _ => ?_⟩
  cases ty with
  | void => exact absurd rfl hvoid
  | cond => exact hkept.elim
  | _ => exact ⟨by simp [Ty.zero, Constant.ty, Ty.anyPointer], rfl⟩

theorem yields_openReturnCell (hkept : ty.IsKept) :
    Yields P κ T W O N (openReturnCell ty) fun κ' cell => ∀ r ∈ cell, κ'.Gives r ty.pointerTo := by
  unfold openReturnCell
  split
  · exact .pure (by simp)
  · rename_i hvoid
    refine .bind (yields_createCell hkept (fun _ => hvoid) _) fun cell κ1 h1 hcell => ?_
    refine .bind (yields_store (stored_zero hkept hvoid) (place_of_gives hkept hcell))
      fun _ κ2 h2 _ => .pure ?_
    simpa using hcell.mono h2

theorem extends_declareParameter (p : Source.Parameter) (hsized : P.sized → p.ty ≠ .void) :
    Extends P κ T W O N (declareParameter p)
      fun _ T' N' _ => T' = T ∧ N' = N.declare p.name p.ty := by
  have hkept := Ty.isKept_ofSource p.ty
  refine drafts_parameter hkept.flat fun register κ1 h1 hreg => ?_
  refine (yields_createCell hkept (fun h => Ty.ofSource_ne_void (hsized h)) _).andThen
    fun cell κ2 h2 hcell => ?_
  have hstored := (has_of_gives (P := P) (hreg.mono h2)).stored hkept
  refine (yields_store hstored (place_of_gives hkept hcell)).andThen fun _ κ3 h3 _ => ?_
  exact Extends.mono (extends_declare p.name (hcell.mono h3)) ((h1.trans h2).trans h3)
    fun _ _ _ _ _ h => h

def parameterTyping (parameters : List Source.Parameter) (N : Source.Typing) : Source.Typing :=
  parameters.foldl (fun known p => known.declare p.name p.ty) N

theorem extends_declareParameters (parameters : List Source.Parameter)
    (hsized : P.sized → ∀ p ∈ parameters, p.ty ≠ .void) :
    Extends P κ T W O N (parameters.forM declareParameter)
      fun _ T' N' _ => T' = T ∧ N' = parameterTyping parameters N := by
  induction parameters generalizing κ N with
  | nil => exact Drafts.pure fun s hs => ⟨κ, T, N, le_refl κ, ⟨rfl, rfl⟩, hs⟩
  | cons p rest ih =>
    refine Extends.bind (extends_declareParameter p fun h => hsized h p (.head _))
      fun _ κ1 T1 N1 _ hnames => ?_
    obtain ⟨rfl, rfl⟩ := hnames
    exact ih fun h q hq => hsized h q (.tail _ hq)

/-! ## Closing a body -/

/-- The body is complete, typed right and built by moves, and nothing leads to the blocks
`dead`. -/
structure Plan.Completes (P : Plan) (dead : Set BlockId) (s : Builder) : Prop where
  complete : ∃ A, s.function.Complete A ∧ A s.function.exit = ∅ ∧ ∀ id ∈ dead, Overreaches (A id)
  holds : ∀ f : Function, f.Extends s.function → (P.checking f).Holds s.function
  moves : Moves P.vocabulary P.origin s

/-- The exit is the last block of the layout and being filled. -/
structure Builder.Closing (s : Builder) : Prop where
  current : s.current = s.function.exit
  last : s.function.layout.getLast? = some s.function.exit
  unfinished : ∀ b, s.function.blocks.get? s.current = some b → b.finished = false

theorem Builder.Closing.define (hs : s.Closing) {instr : RegisterId → Instr}
    (h : define ty instr s = .ok o s') : s'.Closing := by
  obtain ⟨d, s1, hcreate, _, hemit, -⟩ := EStateM.bind2_pure_eq_ok.mp h
  obtain ⟨-, rfl⟩ := createRegister_eq_ok hcreate
  obtain ⟨b, hb, hcur, -, ⟨-, hf⟩ | ⟨hopen, hf⟩⟩ := emit_eq_ok hemit
  · refine ⟨?_, ?_, ?_⟩
    · rw [hcur, hf]
      exact hs.current
    · rw [hf]
      exact hs.last
    · rw [hcur, hf]
      exact hs.unfinished
  · refine ⟨?_, ?_, fun b' hb' => ?_⟩
    · rw [hcur, hf]
      exact hs.current
    · rw [hf]
      exact hs.last
    · rw [hcur, hf, Table.get?_modify, if_pos rfl, hb] at hb'
      cases hb'
      exact hopen

theorem drafts_return (hdead : dead ⊆ κ.dead)
    (hvalue : ∀ o ∈ value, ∃ ty, P.Has κ o ty ∧ ty ≠ .cond) :
    Drafts (fun s => At P κ T [] O N s ∧ s.Closing) (terminate (.ret value))
      fun _ => P.Completes dead := by
  refine .of_eq ?_ fun s e s' _ h => isStructural_of_terminate h
  rintro s a s' ⟨⟨⟨A, hs⟩, hmoved⟩, hclosing⟩ h
  have hreads : ∀ o ∈ (Terminator.ret value).operands, ∃ ty, P.Has κ o ty := by
    intro o ho
    cases value with
    | none => simp [Terminator.operands] at ho
    | some o' =>
      obtain ⟨ty, hty, -⟩ := hvalue o' rfl
      exact (List.mem_singleton.mp ho) ▸ ⟨ty, hty⟩
  have hmoves : Moves P.vocabulary s s' := by
    obtain ⟨log, rfl⟩ := terminate_cases h
    refine .tail (.single (.note s log)) (.finish _ _ fun o ho => ?_)
    obtain ⟨ty, hty⟩ := hreads o ho
    exact hty.known.mono hs.strings
  obtain ⟨b, hb, hcur, -, ⟨hfinished, -⟩ | ⟨hopen, hf⟩⟩ := terminate_eq_ok h
  · simp [hclosing.unfinished b hb] at hfinished
  have hends : s.function.Ends A s.current b.instrs.toList (.ret value) :=
    ⟨fun r hr => hs.mem_after hb hopen (hreads _ hr), by simp [Terminator.successors],
      by simp [Terminator.successors], by simp [Terminator.successors],
      fun _ _ => hclosing.current⟩
  refine ⟨⟨A, ⟨hs.draft.finish hb hf hends, ?_, ?_, ?_, ?_, ?_, ?_⟩,
    by rw [hf, hs.exit.1]; exact (hs.facts _ hs.exit.2).2.2, fun id hid =>
      (hs.dead id (hdead hid)).2⟩, ?_, hmoved.trans hmoves⟩
  · rw [hf]
    exact hs.entry
  · rw [hf, Table.indices_modify]
    simpa using hs.laidOut
  · rw [hf]
    exact hs.first
  · rw [hf]
    exact hclosing.last
  · intro id d hd
    rw [hf, Table.get?_modify] at hd
    split at hd
    · obtain rfl := ‹s.current = id›
      rw [hb] at hd
      cases hd
      rfl
    · have hid : id ∈ s.function.layout := by
        have hlt := (Table.mem_indices _ _).mpr (Table.lt_size_of_get? hd)
        simpa using hs.laidOut.mem_iff.mpr hlt
      exact hs.ended id hid (fun heq => ‹¬ s.current = id› heq.symm) d hd
  · refine ⟨{ b with terminator := some (.ret value), finished := true }, value, ?_, rfl⟩
    rw [hf, Table.get?_modify, if_pos hclosing.current, ← hclosing.current, hb]
    rfl
  · rw [hf]
    intro f hf'
    refine (hs.holds f hf').modify _ ((hs.holds f hf').instrs _ b hb) fun u hu => ?_
    cases hu
    refine ⟨fun o ho => ?_, fun _ => ?_⟩
    · obtain ⟨ty, hty⟩ := hreads o ho
      exact ⟨ty, hty.type f (hs.describes hf')⟩
    · cases value with
      | none => trivial
      | some o =>
        obtain ⟨ty, hty, hne⟩ := hvalue o rfl
        exact ⟨ty, hty.type f (hs.describes hf'), hne⟩

theorem drafts_closeBody (hdead : dead ⊆ κ.dead) (hkept : returnType.IsKept)
    (hcell : ∀ r ∈ returnCell, κ.Gives r returnType.pointerTo) (hexit : κ.exit = waitingExit.block)
    (hT : T.isSome) :
    Drafts (At P κ T [waitingExit] O N) (closeBody returnType returnCell)
      fun _ => P.Completes dead := by
  refine Drafts.get fun s hs => ?_
  obtain ⟨⟨A, hstage⟩, hmoved⟩ := id hs
  have hblock : s.function.exit = waitingExit.block := hstage.exit.1.trans hexit
  have hswitch : Drafts (fun s' => s' = s) (switchTo s.function.exit)
      fun _ s' => At P (κ.within ∅) none [] O N s' ∧ s'.Closing := by
    refine .of_eq ?_ fun _ _ _ _ h => by cases h
    rintro s' a s'' rfl h
    rw [hblock] at h
    injection h with _ hs''
    subst hs''
    refine ⟨⟨⟨A, hstage.enter (.refl _) hT⟩, hmoved.tail (.enter _ _)⟩, ?_, ?_, ?_⟩
    · exact hblock.symm
    · simp [hblock]
    · intro b hb
      obtain ⟨-, -, d, hd, -, hopen⟩ := hstage.waiting waitingExit (.head _)
      obtain rfl := Option.mem_unique hd hb
      exact hopen
  refine hswitch.bind fun _ => ?_
  cases returnCell with
  | none => exact drafts_return hdead (by simp)
  | some cell =>
    have haddr : (κ.within ∅).Gives cell returnType.pointerTo :=
      ⟨(hcell cell rfl).given, (hcell cell rfl).type⟩
    have hload : Drafts (fun s' => At P (κ.within ∅) none [] O N s' ∧ s'.Closing)
        (load (.register cell) returnType)
        fun o s' => (∃ κ', κ.within ∅ ≤ κ' ∧ P.Has κ' o returnType ∧ At P κ' none [] O N s') ∧
          s'.Closing := by
      rintro s' ⟨hat, hclosing⟩
      have hyields := yields_load (T := none) (W := []) (place_of_gives hkept haddr) s' hat
      cases hstep : load (.register cell) returnType s' with
      | ok o s'' =>
        rw [hstep] at hyields
        obtain ⟨κ', T', N', hle, ⟨rfl, rfl, ho⟩, hat'⟩ := hyields
        exact ⟨⟨κ', hle, ho, hat'⟩, hclosing.define hstep⟩
      | error e s'' =>
        rw [hstep] at hyields
        exact hyields
    refine hload.bind fun o => ?_
    rintro s' ⟨⟨κ', hle, ho, hat⟩, hclosing⟩
    exact drafts_return (hdead.trans (Facts.le_iff.mp hle).dead)
      (by simpa using ⟨_, ho, hkept.ne_cond⟩) s' ⟨hat, hclosing⟩

def bodySteps (ctx : Context) (source : BodySource) (statements : Context → Build Unit) :
    Build Unit := do
  let receiver ← openReceiver source.owner
  let returnCell ← openReturnCell source.returnType
  source.parameters.forM declareParameter
  statements { ctx with function := source.name, receiver, returnCell }
  closeBody source.returnType returnCell

theorem drafts_bodySteps {statements : Context → Build Unit} (hctx : ctx.Shares P.toUnitPlan)
    (howner : source.owner = P.owner) (hreturn : source.returnType = .ofSource P.returnType)
    (hsized : P.sized → ∀ p ∈ source.parameters, p.ty ≠ .void)
    (hstatements : ∀ ctx κ, ctx.Suits P κ → Buries P κ (parameterTyping source.parameters N)
      (statements ctx) (fun _ => True) dead) :
    Drafts (At P .start (some (.jump ⟨1⟩)) [waitingExit] ([], none) N)
      (bodySteps ctx source statements) fun _ => P.Completes dead := by
  have hkept : source.returnType.IsKept := hreturn ▸ Ty.isKept_ofSource P.returnType
  refine (yields_openReceiver _).andThen fun receiver κ1 h1 hrecv => ?_
  refine (yields_openReturnCell hkept).andThen fun returnCell κ2 h2 hcell => ?_
  refine (extends_declareParameters _ hsized).andThen fun _ κ3 T3 N3 h3 hnames => ?_
  obtain ⟨rfl, rfl⟩ := hnames
  have hsuits : Context.Suits { ctx with function := source.name, receiver, returnCell } P κ3 := {
    covers := ⟨hctx.covers.structs, hctx.covers.globals, hctx.covers.function, hctx.covers.method,
      hctx.covers.support⟩
    structs := hctx.structs
    global := hctx.global
    owner := hrecv.1.trans howner
    receiver := fun r hr => (hrecv.2 r hr).mono (h2.trans h3)
    returnCell := fun r hr => hreturn ▸ (hcell r hr).mono h3 }
  have hloops : κ3.AllowsLoops ([], none) := by simp [Facts.AllowsLoops]
  refine (hstatements _ κ3 hsuits (le_refl κ3) _ _ _ hloops rfl).andThen fun _ κ4 T4 N4 h4 hT4 => ?_
  refine drafts_closeBody (Facts.subset_of_bury_le h4) hkept
    (fun r hr => (hcell r hr).mono (h3.trans ((κ3.le_bury dead).trans h4))) ?_ hT4.1
  have h4 := (κ3.le_bury dead).trans h4
  exact (Facts.le_iff.mp (((h1.trans h2).trans h3).trans h4)).exit.symm

end

end MxStar.Flow
