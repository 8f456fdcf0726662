import MxStar.Proofs.Flow.BuildingBodies
import MxStar.Proofs.Flow.Position

/-!
# Steps that follow an evaluation

`Setting.Follows` relates a step that builds code to an evaluation: from where
control stands before the step, running that code in a state that agrees with the
one of the evaluation leads to where control stands after it, in states that agree
again.  It is a triple with a condition before and a condition after, and it has
the rules of one: for sequences (`Follows.bind`), for carrying along what no code
changes (`Follows.frame`), and one for each kind of instruction.

New code only gives values to new registers.  That is why an operand keeps its
value while the code of the next operand runs.
-/

namespace MxStar.Flow

open Build

section

variable {World α β γ δ : Type} {pre : Builder → State World → Prop} {k : α → Build γ}

/-- Registers that exist keep their values. -/
abbrev Builder.Spares (s : Builder) (fs fs' : State World) : Prop :=
  ∀ r : RegisterId, r.val < s.function.registers.size → fs'.registers r = fs.registers r

namespace Setting

/-- Each variable in scope, and the result, has a cell of its own. -/
structure Ready (X : Setting World) (s : Builder) : Prop where
  cells : s.function.CellsPlaced
  placed : s.scopes.Placed s.function
  result : ∀ r, X.result = some r →
    (∃ (n : Nat) (c : Cell), s.function.cells[n]? = some c ∧ c.register = r) ∧
      ∀ scope ∈ s.scopes.scopes, ¬ scope.Uses r

/-- An operand has a value, and it is not one of a later register. -/
structure Holds (X : Setting World) (s : Builder) (fs : State World) (o : Operand) (w : Word) :
    Prop where
  value : fs.value? X.environment o = some w
  old : ∀ r, o = .register r → r.val < s.function.registers.size

/-- What running the code between two states of a body comes to. -/
structure Reached (X : Setting World) (s s' : Builder) (t : Option Terminator) (fs : State World)
    (st' : Source.State World) (y : Position) (fs' : State World) : Prop where
  stands : s'.Stands t y
  agrees : X.Agrees s'.scopes st' fs'
  keeps : s.Spares fs fs'

structure Follows (X : Setting World) (known : Source.Typing)
    (pre : Builder → State World → Prop) (step : Build α) (ev : Source.Eval World β)
    (post : Builder → State World → α → β → Prop) : Prop where
  builds : ∀ bound, Builds False id bound step
  leads : ∀ ⦃s a s' t x fs st fuel⦄, step s = .ok a s' → X.Ready s → X.Knows known s.scopes →
    s.Stands t x → Grows s'.function X.function → X.Agrees s.scopes st fs → pre s fs →
      X.Leads fuel x fs (ev st) fun b st' y fs' =>
        X.Reached s s' t fs st' y fs' ∧ post s' fs' a b

variable {X : Setting World} {known : Source.Typing} {s s' : Builder} {t : Option Terminator}
  {x y : Position} {fs fs' : State World} {st st' : Source.State World} {ev : Source.Eval World β}
  {step : Build α}

theorem Ready.later (h : X.Ready s) (hlater : s.Later s') : X.Ready s' := by
  have hgrows := hlater.grows
  refine ⟨hlater.edits.cellsPlaced h.cells, ?_, ?_⟩
  · rw [hlater.scopes]
    exact h.placed.mono hgrows.cells
  · intro r hr
    obtain ⟨⟨n, c, hc, hcr⟩, hunused⟩ := h.result r hr
    rw [hlater.scopes]
    exact ⟨⟨n, c, hgrows.cells n c hc, hcr⟩, hunused⟩

variable {instr : RegisterId → Instr}

theorem Holds.mono (h : X.Holds s fs o w)
    (hsize : s.function.registers.size ≤ s'.function.registers.size) (hkeeps : s.Spares fs fs') :
    X.Holds s' fs' o w := by
  refine ⟨?_, fun r hr => (h.old r hr).trans_le hsize⟩
  cases o with
  | register r => exact (hkeeps r (h.old r rfl)).trans h.value
  | _ => exact h.value

theorem Holds.constant (c : Constant) : X.Holds s fs (.constant c) c.bits :=
  ⟨rfl, fun _ hr => by simp at hr⟩

theorem Reached.trans (h : X.Reached s s' t fs st y fs')
    (hsize : s.function.registers.size ≤ s'.function.registers.size)
    (h' : X.Reached s' s'' t' fs' st' x fs'') : X.Reached s s'' t' fs st' x fs'' := by
  refine ⟨h'.stands, h'.agrees, fun r hr => ?_⟩
  rw [h'.keeps r (hr.trans_le hsize), h.keeps r hr]

namespace Follows

variable {pre : Builder → State World → Prop} {post : Builder → State World → α → β → Prop}
  {post' : Builder → State World → γ → δ → Prop}

variable {k' : β → Source.Eval World δ} {f : α → γ} {g : β → δ}

theorem pure (h : ∀ s fs, pre s fs → post s fs a b) :
    X.Follows known pre (pure a) (pure b) post := by
  refine ⟨fun _ => .pure trivial, ?_⟩
  intro s a' s' t x fs st fuel hstep _ _ hstands _ hagrees hpre
  obtain ⟨rfl, rfl⟩ := EStateM.pure_eq_ok.mp hstep
  exact .done ⟨⟨hstands, hagrees, fun _ _ => rfl⟩, h _ _ hpre⟩

/-- One step after another.  The second one follows what the first evaluation can
come to. -/
theorem bind_of_returns (h : X.Follows known pre step ev post)
    (hbuilds : ∀ a bound, Builds False id bound (k a))
    (hk : ∀ a b, (∃ st st', ev st = .done b st') → X.Follows known (fun s fs => post s fs a b) (k a)
      (k' b) post') :
    X.Follows known pre (step >>= k) (ev >>= k') post' := by
  refine ⟨fun bound => .bind (h.builds bound) fun a _ => hbuilds a bound, ?_⟩
  intro s c s' t x fs st fuel hstep hready hknows hstands hG hagrees hpre
  obtain ⟨a, s1, h1, h2⟩ := EStateM.bind_eq_ok.mp hstep
  have hlater := (h.builds 0).later h1
  have hgrows2 := (hbuilds a _).grows h2
  refine (h.leads h1 hready hknows hstands (hgrows2.trans hG) hagrees hpre).bind ?_
  intro b st1 y fs1 hdone hgoal
  obtain ⟨hreached, hpost⟩ := hgoal
  rw [← hlater.scopes] at hknows
  refine ((hk a b ⟨st, st1, hdone⟩).leads h2 (hready.later hlater) hknows hreached.stands hG
    hreached.agrees hpost).mono ?_
  intro d st2 z fs2 hgoal2
  obtain ⟨hreached2, hpost2⟩ := hgoal2
  exact ⟨hreached.trans hlater.grows.size hreached2, hpost2⟩

theorem bind [Inhabited β] (h : X.Follows known pre step ev post)
    (hk : ∀ a b, X.Follows known (fun s fs => post s fs a b) (k a) (k' b) post') :
    X.Follows known pre (step >>= k) (ev >>= k') post' :=
  h.bind_of_returns (fun a => (hk a default).builds) fun a b _ => hk a b

theorem andThen {ev : Source.Eval World δ} (h : X.Follows known pre step (Pure.pure b) post)
    (hk : ∀ a, X.Follows known (fun s fs => post s fs a b) (k a) ev post') :
    X.Follows known pre (step >>= k) ev post' := by
  refine (h.bind_of_returns (fun a => (hk a).builds) fun a c hc => ?_ :
    X.Follows known pre (step >>= k) (Pure.pure b >>= fun _ => ev) post')
  obtain ⟨st, st', hc⟩ := hc
  obtain ⟨rfl, -⟩ : b = c ∧ _ := by simpa [Source.Eval.pure_apply] using hc
  exact hk a

theorem mono {pre' : Builder → State World → Prop} {post2 : Builder → State World → α → β → Prop}
    (h : X.Follows known pre step ev post)
    (hpre : ∀ s fs, pre' s fs → pre s fs)
    (hpost : ∀ s fs a b, post s fs a b → post2 s fs a b) :
    X.Follows known pre' step ev post2 := by
  refine ⟨h.builds, ?_⟩
  intro s a s' t x fs st fuel hstep hready hknows hstands hG hagrees hp
  refine (h.leads hstep hready hknows hstands hG hagrees (hpre s fs hp)).mono ?_
  intro b st' y fs' hgoal
  exact ⟨hgoal.1, hpost s' fs' a b hgoal.2⟩

theorem map (h : X.Follows known pre step ev fun s fs a b => post' s fs (f a) (g b)) :
    X.Follows known pre (f <$> step) (g <$> ev) post' := by
  refine ⟨fun bound => .map (h.builds bound), ?_⟩
  intro s c s' t x fs st fuel hstep hready hknows hstands hG hagrees hpre
  obtain ⟨a, h1, rfl⟩ := EStateM.map_eq_ok.mp hstep
  refine (h.leads h1 hready hknows hstands hG hagrees hpre).bind ?_
  intro b st' y fs' _ hgoal
  exact .done hgoal

theorem map_pure
    (h : X.Follows known pre step (Pure.pure b) fun s fs a b => post' s fs (f a) (g b)) :
    X.Follows known pre (f <$> step) (Pure.pure (g b)) post' :=
  h.map

theorem const (c : γ) (h : X.Follows known pre step (Pure.pure b) post) :
    X.Follows known pre step (Pure.pure c) fun s fs a d => d = c ∧ post s fs a b := by
  refine ⟨h.builds, ?_⟩
  intro s a s' t x fs st fuel hstep hready hknows hstands hG hagrees hpre
  obtain ⟨n, y, fs', hgoes, hreached, hpost⟩ : X.Leads fuel x fs (.done b st) _ :=
    h.leads hstep hready hknows hstands hG hagrees hpre
  exact ⟨n, y, fs', hgoes, hreached, rfl, hpost⟩

theorem adapt [Inhabited β]
    {post' : Builder → State World → γ → β → Prop} (h : X.Follows known pre step ev post)
    (hk : ∀ a b, X.Follows known (fun s fs => post s fs a b) (k a) (Pure.pure b) post') :
    X.Follows known pre (step >>= k) ev post' := by
  rw [← bind_pure ev]
  exact h.bind hk

theorem throw : X.Follows known pre (throw e) ev post := by
  refine ⟨fun _ => .throw, ?_⟩
  intro s a s' t x fs st fuel hstep
  exact absurd hstep EStateM.throw_ne_ok

end Follows

/-- What comes before code that is not run needs no code. -/
theorem Follows.skip {post : Builder → State World → γ → β → Prop} {Q : α → Prop}
    (hstep : ∀ s a s', step s = .ok a s' → s' = s ∧ Q a)
    (hbuilds : ∀ a bound, Builds False id bound (k a))
    (hk : ∀ a, Q a → X.Follows known pre (k a) ev post) :
    X.Follows known pre (step >>= k) ev post := by
  refine ⟨fun bound => .bind (Q := fun _ => True) ?_ fun a _ => hbuilds a bound, ?_⟩
  · refine .of_shared fun s a s' h _ => ?_
    obtain ⟨rfl, -⟩ := hstep s a s' h
    exact ⟨.refl, rfl, trivial⟩
  · intro s c s' t x fs st fuel h
    obtain ⟨a, s1, h1, h2⟩ := EStateM.bind_eq_ok.mp h
    obtain ⟨rfl, ha⟩ := hstep s a s1 h1
    exact (hk a ha).leads h2

variable {post : Builder → State World → α → β → Prop} {P : Builder → State World → Prop}

theorem Follows.of_pre (hbuilds : ∀ bound, Builds False id bound step)
    (h : ∀ s fs, pre s fs → X.Follows known pre step ev post) :
    X.Follows known pre step ev post := by
  refine ⟨hbuilds, ?_⟩
  intro s a s' t x fs st fuel hstep hready hknows hstands hG hagrees hpre
  exact (h s fs hpre).leads hstep hready hknows hstands hG hagrees hpre

/-- What no new code changes. -/
def Stable (P : Builder → State World → Prop) : Prop :=
  ∀ ⦃s s' fs fs'⦄, s'.scopes = s.scopes → s.function.registers.size ≤ s'.function.registers.size →
      s.Spares fs fs' → P s fs → P s' fs'

theorem Stable.and {Q : Builder → State World → Prop} (hP : Stable P) (hQ : Stable Q) :
    Stable fun s fs => P s fs ∧ Q s fs :=
  fun _ _ _ _ hscopes hsize hkeeps h =>
    ⟨hP hscopes hsize hkeeps h.1, hQ hscopes hsize hkeeps h.2⟩

theorem Stable.later (hP : Stable P) (hlater : s.Later s') (h : P s fs) : P s' fs :=
  hP hlater.scopes hlater.grows.size (fun _ _ => rfl) h

theorem stable_names (X : Setting World) (name : String) (address : Operand) (ty : Ty) :
    Stable fun (s : Builder) (_ : State World) => X.Names s.scopes name address ty := by
  intro s s' fs fs' hscopes _ _ h
  rw [hscopes]
  exact h

theorem Follows.frame (h : X.Follows known pre step ev post) (hP : Stable P) :
    X.Follows known (fun s fs => pre s fs ∧ P s fs) step ev
      fun s fs a b => post s fs a b ∧ P s fs := by
  refine ⟨h.builds, ?_⟩
  intro s a s' t x fs st fuel hstep hready hknows hstands hG hagrees hp
  obtain ⟨hpre, hframe⟩ := hp
  have hlater := (h.builds 0).later hstep
  refine (h.leads hstep hready hknows hstands hG hagrees hpre).mono ?_
  intro b st' y fs' hgoal
  obtain ⟨hreached, hpost⟩ := hgoal
  exact ⟨hreached, hpost, hP hlater.scopes hlater.grows.size hreached.keeps hframe⟩

theorem Follows.keep {pre A : Builder → State World → Prop} (hA : Stable A)
    (h : X.Follows known pre step ev post) (hpre : ∀ s fs, A s fs → pre s fs) :
    X.Follows known A step ev fun s fs a b => post s fs a b ∧ A s fs :=
  (h.frame hA).mono (fun s fs hs => ⟨hpre s fs hs, hs⟩) fun _ _ _ _ hs => hs

/-! ## Instructions -/

/-- An instruction does what an evaluation does, and then what `finish` says.  The
value and the state after it have the property `Q`. -/
def Executes (X : Setting World) (scopes : ScopeStack) (fs : State World)
    (r : Source.Result World β) (outcome : Step World) (finish : β → State World → State World)
    (Q : β → State World → Prop) : Prop :=
  match r with
  | .done b st => ∃ noted, outcome = .next (finish b noted) ∧ noted.registers = fs.registers ∧
      X.Agrees scopes st noted ∧ Q b (finish b noted)
  | .hung st => ∃ fs', outcome = .hung fs' ∧ X.Seen st fs'
  | .outOfFuel _ => False
  | .undefined => True

theorem follows_emit {Q : β → State World → Prop}
    (hexec : ∀ s st fs, X.Ready s → Grows s.function X.function → X.Agrees s.scopes st fs →
      pre s fs → X.Executes s.scopes fs (ev st) (i.exec X.environment X.program X.function fs)
      (fun _ noted => noted) Q) :
    X.Follows known pre (emit i) ev fun _ fs _ b => Q b fs := by
  refine ⟨fun _ => builds_emit i, ?_⟩
  intro s a s' t x fs st fuel hstep hready hknows hstands hG hagrees hpre
  have hbuilds : Builds False id s.function.blocks.size (emit i) := builds_emit i
  have hstarts := hexec s st fs hready ((hbuilds.grows hstep).trans hG) hagrees hpre
  obtain ⟨y, hstands', hgoes, hhangs⟩ := stands_emit hstep hstands hG
  have hscopes : s'.scopes = s.scopes := (hbuilds hstep (Nat.le_refl _)).2.1
  generalize ev st = r at hstarts
  cases r with
  | done b st' =>
    obtain ⟨noted, hnext, hregs, hagrees', hQ⟩ := hstarts
    rw [← hscopes] at hagrees'
    exact ⟨0, y, noted, hgoes fs noted hnext,
      ⟨hstands', hagrees', fun r _ => congrFun hregs r⟩, hQ⟩
  | hung st' =>
    obtain ⟨fs', hhung, hseen⟩ := hstarts
    exact ⟨0, fs', fun count => hhangs fs fs' hhung count, hseen⟩
  | outOfFuel st' => exact hstarts.elim
  | undefined => trivial

/-- What adding an instruction with a new destination comes to. -/
structure Defines (X : Setting World) (s s' : Builder) (t : Option Terminator) (x : Position)
    (ty : Ty) (i : Instr) (d : RegisterId) (y : Position) : Prop where
  fresh : d.val = s.function.registers.size
  old : d.val < s'.function.registers.size
  stands : s'.Stands t y
  type : X.function.registerType? d = some ty
  noCell : ∀ (n : Nat) c, X.function.cells[n]? = some c → c.register ≠ d
  next : ∀ fs fs', i.exec X.environment X.program X.function fs = .next fs' → X.Goes 0 x fs y fs'
  hangs : ∀ fs fs', i.exec X.environment X.program X.function fs = .hung fs' →
    ∀ count, X.proceed count x fs = .hung fs'

theorem defines_define (hstep : define ty instr s = .ok o s') (hplaced : s.function.CellsPlaced)
    (hstands : s.Stands t x) (hG : Grows s'.function X.function) :
    ∃ d y, o = .register d ∧ X.Defines s s' t x ty (instr d) d y := by
  obtain ⟨d, s1, hcreate, _, hemit, rfl⟩ := EStateM.bind2_pure_eq_ok.mp hstep
  have hbuilds : Builds False id s1.function.blocks.size (emit (instr d)) := builds_emit _
  have hgrows := hbuilds.grows hemit
  obtain ⟨hd, rfl⟩ := createRegister_eq_ok hcreate
  have hG1 := hgrows.trans hG
  obtain ⟨y, hstands', hgoes, hhangs⟩ := stands_emit hemit hstands hG
  have hfresh : d.val = s.function.registers.size := by rw [hd]; rfl
  refine ⟨d, y, rfl, hfresh, ?_, hstands', ?_, ?_, hgoes, hhangs⟩
  · refine Nat.lt_of_lt_of_le ?_ hgrows.size
    rw [hd]
    simp [Table.next, Table.size, Table.push]
  · refine hG1.registerType? ?_
    simp [Function.registerType?, Table.get?_push, hd]
  · intro n c hc heq
    rcases hG1.newCells n c hc with hold | hlater
    · have hlt := hplaced.lt_size hold
      rw [heq, hfresh] at hlt
      exact absurd hlt (Nat.lt_irrefl _)
    · rw [heq, hd] at hlater
      simp [Table.next, Table.size, Table.push] at hlater

section

variable {ty : Ty} {i : Instr} {d : RegisterId} {noted : State World}

theorem Defines.keeps (h : X.Defines s s' t x ty i d y) (hregs : noted.registers = fs.registers)
    (w : Word) : s.Spares fs (noted.assign d w) := by
  intro r hr
  have hne : r ≠ d := by
    rintro rfl
    exact absurd hr (h.fresh ▸ Nat.lt_irrefl _)
  simp [State.assign, hne, hregs]

theorem Defines.holds (h : X.Defines s s' t x ty i d y) (w : Word) :
    X.Holds s' (noted.assign d w) (.register d) w := by
  refine ⟨by simp [State.value?, State.assign], fun r hr => ?_⟩
  obtain rfl := Operand.register.inj hr
  exact h.old

end

theorem follows_define {ev : Source.Eval World Word} {Q : Word → State World → Prop}
    (hexec : ∀ s st fs d, X.Ready s → Grows s.function X.function → X.Agrees s.scopes st fs →
      pre s fs → X.function.registerType? d = some ty →
      X.Executes s.scopes fs (ev st) ((instr d).exec X.environment X.program X.function fs)
      (fun w noted => noted.assign d w) Q) :
    X.Follows known pre (define ty instr) ev fun s fs o w => X.Holds s fs o w ∧ Q w fs := by
  refine ⟨fun _ => builds_define ty instr, ?_⟩
  intro s o s' t x fs st fuel hstep hready hknows hstands hG hagrees hpre
  obtain ⟨d, y, rfl, hdefines⟩ := defines_define hstep hready.cells hstands hG
  have hdefine : Builds False id 0 (define ty instr) := builds_define ty instr
  have hlater := hdefine.later hstep
  have hstarts := hexec s st fs d hready (hlater.grows.trans hG) hagrees hpre hdefines.type
  generalize ev st = r at hstarts
  cases r with
  | done w st' =>
    obtain ⟨noted, hnext, hregs, hagrees', hQ⟩ := hstarts
    have hagrees2 : X.Agrees s'.scopes st' (noted.assign d w) := by
      rw [hlater.scopes]
      exact hagrees'.assign hdefines.noCell w
    exact ⟨0, y, noted.assign d w, hdefines.next fs _ hnext,
      ⟨hdefines.stands, hagrees2, hdefines.keeps hregs w⟩, hdefines.holds w, hQ⟩
  | hung st' =>
    obtain ⟨fs', hhung, hseen⟩ := hstarts
    exact ⟨0, fs', fun count => hdefines.hangs fs fs' hhung count, hseen⟩
  | outOfFuel st' => exact hstarts.elim
  | undefined => trivial

end Setting

end

end MxStar.Flow
