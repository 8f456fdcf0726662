import MxStar.Proofs.Flow.Joining
import MxStar.Proofs.Flow.LoweredOperators

/-!
# Expressions that branch

A cell of its own holds the result of an expression that branches.  Each arm stores
its value there, and where the arms meet it is read back.  No variable lives in that
cell, so the arms agree on everything else.
-/

namespace MxStar.Flow

open Build
open Source (Expr)

section

variable {World : Type}

namespace Setting

variable {X : Setting World} {symbols : Source.Symbols} {globals known : Source.Typing}
  {pre : Builder → State World → Prop}

/-! ## Cells for results -/

/-- A cell of the function that neither a variable nor the result uses. -/
def OwnCell (X : Setting World) (r : RegisterId) (ty : Ty) (s : Builder) (_ : State World) : Prop :=
  X.Spare s.scopes r ∧ r.val < s.function.registers.size ∧
    ∃ (n : Nat) (c : Cell), X.function.cells[n]? = some c ∧ c.register = r ∧ c.ty = ty

def CellHolds (X : Setting World) (r : RegisterId) (ty : Source.Ty) (fs : State World) (w : Word) :
    Prop :=
  ty.Admits w ∧ ∃ (n : Nat) (c : Cell), X.function.cells[n]? = some c ∧ c.register = r ∧
    c.ty = .ofSource ty ∧ fs.memory.read (Ty.ofSource ty).width (X.environment.cell n) = w

theorem stable_ownCell (X : Setting World) (r : RegisterId) (ty : Ty) :
    Stable (X.OwnCell r ty) := by
  intro s s' fs fs' hscopes hsize _ h
  rw [OwnCell, hscopes]
  exact ⟨h.1, h.2.1.trans_le hsize, h.2.2⟩

variable {r : RegisterId} {w : Word} {ty : Source.Ty}

theorem ownCell_createCell {ty : Ty} (h : createCell ty name s = .ok r s') (hready : X.Ready s)
    (hG : Grows s'.function X.function) (fs : State World) : X.OwnCell r ty s' fs := by
  obtain ⟨rfl, rfl⟩ := createCell_eq_ok h
  have hnew : ∀ (n : Nat) c, s.function.cells[n]? = some c →
      c.register ≠ s.function.registers.next := by
    intro n c hc heq
    have hlt := hready.cells.lt_size hc
    rw [heq] at hlt
    exact absurd hlt (Nat.lt_irrefl _)
  refine ⟨⟨?_, ?_⟩, ?_, ?_⟩
  · intro scope hscope
    exact hready.placed.ne_of_uses hnew hscope
  · intro hr
    obtain ⟨⟨n, c, hc, hcr⟩, -⟩ := hready.result _ hr
    exact hnew n c hc hcr
  · simp [Table.next, Table.size, Table.push]
  · refine ⟨s.function.cells.size, { register := s.function.registers.next, ty }, ?_, rfl, rfl⟩
    exact hG.cells _ _ (by simp)

theorem follows_createCell (ty : Ty) (name : Option String) :
    X.Follows known (fun _ _ => True) (createCell ty name) (pure ())
      fun s fs r _ => X.OwnCell r ty s fs := by
  refine ⟨fun _ => builds_createCell ty name, ?_⟩
  intro s r s' t x fs st fuel hstep hready hknows hstands hG hagrees _
  have hown := ownCell_createCell hstep hready hG fs
  have hstands' := stands_createCell hstep hstands
  obtain ⟨-, rfl⟩ := createCell_eq_ok hstep
  exact .done ⟨⟨hstands', hagrees, fun _ _ => rfl⟩, hown⟩

theorem exec_storeCell (hplaced : X.function.CellsPlaced) (hagrees : X.Agrees scopes st fs)
    (hc : X.function.cells[n]? = some c) (hscalar : c.ty.IsScalar)
    (hvalue : fs.value? X.environment o = some w) :
    (Instr.store o (.register c.register)).exec X.environment X.program X.function fs =
      .next (fs.store c.ty.width (X.environment.cell n) w) := by
  have haddr : fs.value? X.environment (.register c.register) =
      some (X.environment.cell n) := hagrees.cells n c hc
  have htype : X.function.storedType? X.program o (.register c.register) = some c.ty := by
    simp [Function.storedType?, hplaced.type n c hc, Ty.pointee?_pointerTo hscalar.isHollow]
  simp [Instr.exec, htype, hscalar.width?, hvalue, haddr, Step.ofOption]

theorem follows_storeCell (hX : X.Sound symbols globals) (hty : ty.isScalar = true) :
    X.Follows known (fun s fs => X.HoldsTyped ty s fs value w ∧ X.OwnCell r (.ofSource ty) s fs)
      (store value (.register r)) (pure w) fun _ fs _ w => X.CellHolds r ty fs w := by
  have hscalar := Ty.isScalar_ofSource hty
  refine follows_emit (Q := fun w fs => X.CellHolds r ty fs w)
    fun s st fs hready hG hagrees hpre => ?_
  obtain ⟨⟨hholds, hadmits⟩, hspare, -, n, c, hc, rfl, hcell⟩ := hpre
  refine ⟨fs.store c.ty.width (X.environment.cell n) w,
    exec_storeCell hX.placed hagrees hc (hcell ▸ hscalar) hholds.value, rfl,
    hagrees.store_spare hX.shelters hc hspare w, hadmits, n, c, hc, rfl, hcell, ?_⟩
  rw [hcell]
  exact hscalar.read_write _ _ (Ty.admits_ofSource.mpr hadmits)

theorem follows_loadCell (hty : ty.isScalar = true) :
    X.Follows known (fun _ fs => X.CellHolds r ty fs w) (load (.register r) (.ofSource ty)) (pure w)
      (X.HoldsTyped ty) := by
  have hscalar := Ty.isScalar_ofSource hty
  refine follows_define (Q := fun w _ => ty.Admits w)
    fun s st fs d hready hG hagrees hpre htype => ?_
  obtain ⟨hadmits, n, c, hc, rfl, hcell, hread⟩ := hpre
  have haddr : fs.value? X.environment (.register c.register) =
      some (X.environment.cell n) := hagrees.cells n c hc
  refine ⟨{ fs with trace := .load (Ty.ofSource ty).width (X.environment.cell n) :: fs.trace }, ?_,
    rfl, { hagrees with }, hadmits⟩
  simp [Instr.exec, htype, hscalar.width?, haddr, Step.ofOption, State.load, hread]

/-! ## Short circuits -/

/-- The right side runs only when the left one leaves the result open. -/
theorem follows_shortCircuit (hX : X.Sound symbols globals) (isAnd : Bool)
    (hleft : X.Follows known (fun _ _ => True) left evalLeft (X.HoldsTyped .bool))
    (hright : X.Follows known (fun _ _ => True) right evalRight (X.HoldsTyped .bool)) :
    X.Follows known (fun _ _ => True) (shortCircuit isAnd left right) (do
        let w ← evalLeft
        if decide (w = 0) == isAnd then pure (Word.ofBool !isAnd) else evalRight)
      (X.HoldsTyped .bool) := by
  rw [shortCircuit_eq]
  refine (follows_createCell .bool none).andThen fun result => ?_
  have hcell := X.stable_ownCell result (.ofSource .bool)
  refine (hleft.keep hcell fun _ _ _ => trivial).bind fun decided w => ?_
  have hpre := (X.stable_holdsTyped .bool decided w).and hcell
  have hshort : X.Follows known
      (fun s fs => X.HoldsTyped .bool s fs decided w ∧ X.OwnCell result (.ofSource .bool) s fs)
      (store (.constant (.bool !isAnd)) (.register result)) (pure (Word.ofBool !isAnd))
      fun _ fs _ w => X.CellHolds result .bool fs w := by
    refine (follows_storeCell hX rfl).mono (fun s fs h => ⟨⟨.constant _, fun _ => ?_⟩, h.2⟩)
      fun _ _ _ _ h => h
    cases isAnd
    · exact .inr rfl
    · exact .inl rfl
  have hrest : X.Follows known
      (fun s fs => X.HoldsTyped .bool s fs decided w ∧ X.OwnCell result (.ofSource .bool) s fs)
      (do store (← right) (.register result)) evalRight
      fun _ fs _ w => X.CellHolds result .bool fs w := by
    refine (hright.keep hpre fun _ _ _ => trivial).adapt fun o w' => ?_
    exact (follows_storeCell hX rfl).mono (fun s fs h => ⟨h.1, h.2.2⟩) fun _ _ _ _ h => h
  refine Follows.adapt (follows_withFork (X.CellHolds result .bool) hpre (fun bound => ?_) ?_)
    fun _ w => ?_
  · exact builds_withBlocks fun next rest short hnext hrest' hshort' =>
      builds_fork hshort' hrest' hnext (hshort.builds bound) (hrest.builds bound)
  · intro next rest short s s' t x fs st fuel hforks hstep hready hknows hstands hG hagrees hp
    refine leads_fork hshort hrest hforks.symm hstep hready hknows hstands hG hagrees hpre hp ?_
    have hvalue := hp.1.1.value
    cases isAnd <;> by_cases hw : w = 0 <;> simp [Terminator.exec, hvalue, hw]
  · exact (follows_loadCell rfl).adapt fun _ _ => follows_asCondition

/-! ## Choices -/

theorem isVoid_iff : ty.isVoid = true ↔ ty = .void := by
  obtain ⟨base, dimensions⟩ := ty
  simp [Source.Ty.isVoid, Source.Ty.void, and_comm]

theorem ne_void_of_isScalar (h : ty.isScalar = true) : ty ≠ .void := by
  rintro rfl
  exact absurd h (by decide)

theorem follows_choice {A : Builder → State World → Prop} (hA : Stable A) {chosen : Operand}
    (hchosen : ∀ s fs, A s fs → X.Holds s fs chosen w) {tag firstTag secondTag : String}
    {firstArm secondArm : Build Unit} {β : Type} {ev1 ev2 : Source.Eval World β}
    {post : State World → β → Prop}
    (hfirst : X.Follows known A firstArm ev1 fun _ fs _ b => post fs b)
    (hsecond : X.Follows known A secondArm ev2 fun _ fs _ b => post fs b) :
    X.Follows known A (withFork tag firstTag secondTag fun next first second =>
        fork (.branch chosen first second) first second next firstArm secondArm)
      (if w = 0 then ev2 else ev1) fun _ fs _ b => post fs b := by
  refine follows_withFork post hA (fun bound => ?_) ?_
  · exact builds_withBlocks fun next first second hnext hfirst' hsecond' =>
      builds_fork hfirst' hsecond' hnext (hfirst.builds bound) (hsecond.builds bound)
  · intro next first second s s' t x fs st fuel hforks hstep hready hknows hstands hG hagrees hp
    have hvalue := (hchosen s fs hp).value
    have hleads : X.Leads fuel x fs ((if (decide (w ≠ 0)) then ev1 else ev2) st) _ :=
      leads_fork hfirst hsecond hforks hstep hready hknows hstands hG hagrees hA hp
        (by simp [Terminator.exec, hvalue])
    simpa using hleads

section

variable {ty : Source.Ty} {condition : Build Operand} {positiveArm negativeArm : Build Lowered}
  {evalCondition : Source.Eval World Word}
  {evalPositive evalNegative : Source.Eval World Source.Answer}
  (hcond : X.Follows known (fun _ _ => True) condition evalCondition (X.HoldsTyped .bool))
  (hpos : X.Follows known (fun _ _ => True) positiveArm evalPositive (X.Denotes ty))
  (hneg : X.Follows known (fun _ _ => True) negativeArm evalNegative (X.Denotes ty))

include hcond hpos hneg

theorem follows_chooseInto_some (hX : X.Sound symbols globals) (hty : ty.isScalar = true)
    {cell : RegisterId} :
    X.Follows known (X.OwnCell cell (.ofSource ty))
      (chooseInto (some cell) ty condition positive negative positiveArm negativeArm)
      (evalCondition >>= fun w => (if w = 0 then evalNegative else evalPositive) >>=
        Source.Answer.ofChoice X.environment globals ty)
      (X.Denotes ty) := by
  rw [chooseInto_eq]
  have hcell := X.stable_ownCell cell (.ofSource ty)
  refine (hcond.keep hcell fun _ _ _ => trivial).bind fun chosen w => ?_
  have hpre := (X.stable_holdsTyped .bool chosen w).and hcell
  have harm : ∀ {arm : Build Lowered} {ev : Source.Eval World Source.Answer} (e : Expr),
      X.Follows known (fun _ _ => True) arm ev (X.Denotes ty) → X.Follows known
          (fun s fs => X.HoldsTyped .bool s fs chosen w ∧ X.OwnCell cell (.ofSource ty) s fs)
          (intoCell (some cell) e arm) (ev >>= Source.Answer.toValue X.environment globals)
          fun _ fs _ w => X.CellHolds cell ty fs w := by
    intro arm ev e h
    refine (h.keep hpre fun _ _ _ => trivial).bind fun lowered answer => ?_
    refine ((follows_toStorage hX hty e).frame hpre).adapt fun o w' => ?_
    exact (follows_storeCell hX hty).mono (fun s fs h => ⟨h.1, h.2.2⟩) fun _ _ _ _ h => h
  -- the value is read in the arm, before control comes together
  have heval : (if w = 0 then evalNegative else evalPositive) >>=
        Source.Answer.ofChoice X.environment globals ty =
      (if w = 0 then evalNegative >>= Source.Answer.toValue X.environment globals
        else evalPositive >>= Source.Answer.toValue X.environment globals) >>=
        fun w => pure (Source.Answer.value w) := by
    have hchoice : Source.Answer.ofChoice X.environment globals ty = fun answer =>
        answer.toValue X.environment globals >>= fun w => pure (Source.Answer.value w) := by
      funext answer
      exact if_neg (ne_void_of_isScalar hty)
    split <;> rw [hchoice, bind_assoc]
  rw [heval]
  refine (follows_choice hpre (fun s fs h => h.1.1) (harm positive hpos)
    (harm negative hneg)).bind fun _ w' => ?_
  exact .map_pure ((follows_loadCell hty).mono (fun _ _ h => h) fun s fs o w h => .value o w h)

theorem follows_chooseInto_none (hty : ty = .void) : X.Follows known (fun _ _ => True)
      (chooseInto none ty condition positive negative positiveArm negativeArm)
      (evalCondition >>= fun w => (if w = 0 then evalNegative else evalPositive) >>=
        Source.Answer.ofChoice X.environment globals ty)
      (X.Denotes ty) := by
  rw [chooseInto_eq]
  refine hcond.bind fun chosen w => ?_
  have hpre := X.stable_holdsTyped .bool chosen w
  have harm : ∀ {arm : Build Lowered} {ev : Source.Eval World Source.Answer} (e : Expr),
      X.Follows known (fun _ _ => True) arm ev (X.Denotes ty) →
        X.Follows known (fun s fs => X.HoldsTyped .bool s fs chosen w) (intoCell none e arm) ev
          fun _ _ _ _ => True := by
    intro arm ev e h
    refine (h.mono (fun _ _ _ => trivial) fun _ _ _ _ _ => trivial).adapt fun _ _ => ?_
    exact .pure fun _ _ _ => trivial
  refine (follows_choice hpre (fun s fs h => h.1) (harm positive hpos)
    (harm negative hneg)).bind fun _ answer => ?_
  rw [Source.Answer.ofChoice, if_pos hty]
  exact .pure fun _ _ _ => .nothing

theorem follows_choose (positive negative : Expr) (hX : X.Sound symbols globals)
    (hty : ty.isScalar = true ∨ ty = .void) : X.Follows known (fun _ _ => True)
      (choose ty condition positive negative positiveArm negativeArm)
      (evalCondition >>= fun w => (if w = 0 then evalNegative else evalPositive) >>=
        Source.Answer.ofChoice X.environment globals ty)
      (X.Denotes ty) := by
  rw [choose_eq]
  rcases hty with hscalar | hvoid
  · rw [if_neg (by simp [isVoid_iff, ne_void_of_isScalar hscalar])]
    refine (follows_createCell _ none).andThen fun cell => ?_
    exact follows_chooseInto_some hcond hpos hneg hX hscalar
  · rw [if_pos (isVoid_iff.mpr hvoid)]
    exact follows_chooseInto_none hcond hpos hneg hvoid

end

end Setting

end

end MxStar.Flow
