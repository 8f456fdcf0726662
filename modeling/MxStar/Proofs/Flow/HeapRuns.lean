import MxStar.Proofs.Flow.Joining

/-!
# Code that uses the heap

`Site.Does` is a triple for code whose effects are known one by one.  Before the code
some operands have known values and what the run has done so far, apart from registers
(`Past`), has a known property; after it the operands still have these values, the result
has one of its own, and the past has another property.  There are rules for sequences,
for each kind of instruction, for a new stack cell and for a loop that counts.

The triple knows the body that the code is part of (`Site`), and how many stack cells there
were when the code was begun.  So code can be told to keep to its own cells.
-/

namespace MxStar.Flow

open Build

section

variable {World α β γ δ : Type}

/-- What a run has done, apart from the values of its registers. -/
structure Past (World : Type) where
  memory : Memory
  world : World
  trace : List Action

def State.past (fs : State World) : Past World :=
  ⟨fs.memory, fs.world, fs.trace⟩

def Past.load (p : Past World) (a : Word) : Past World :=
  { p with trace := .load .word a :: p.trace }

def Past.store (p : Past World) (a w : Word) : Past World :=
  { p with memory := p.memory.write .word a w, trace := .store .word a w :: p.trace }

theorem Grows.cellCount (h : Grows f f') : f.cells.size ≤ f'.cells.size := by
  by_contra hlt
  have hcell := h.cells f'.cells.size _ (Array.getElem?_eq_getElem (Nat.lt_of_not_le hlt))
  simp at hcell

/-- A part of a body, as far as it is built, in the finished function. -/
structure Site (World : Type) extends Setting World where
  body : Function
  grows : Grows body function

namespace Site

def HasCells (X : Site World) (fs : State World) : Prop :=
  ∀ (n : Nat) c, X.function.cells[n]? = some c →
    fs.registers c.register = some (X.environment.cell n)

def HoldAll (X : Site World) (s : Builder) (fs : State World) (held : List (Operand × Word)) :
    Prop :=
  ∀ p ∈ held, X.Holds s fs p.1 p.2

/-- The code that a step builds in the body comes to an end.  Where operands were `held` and
the past was `J`, the result has what it `gains`, and the past is `J'`. -/
structure Does (X : Site World) (low : Nat) (held : List (Operand × Word))
    (J : Past World → Prop) (step : Build α) (gains : α → β → List (Operand × Word))
    (J' : α → β → Past World → Prop) : Prop where
  builds : ∀ bound, Builds False id bound step
  goes : ∀ ⦃s a s' t x fs⦄, step s = .ok a s' → s.function.CellsPlaced →
    low ≤ s.function.cells.size → s.Stands t x → Grows s'.function X.body → X.HasCells fs →
    X.HoldAll s fs held → J fs.past →
      ∃ n y fs' b, X.Goes n x fs y fs' ∧ s'.Stands t y ∧ X.HasCells fs' ∧
        s.Spares fs fs' ∧ X.HoldAll s' fs' (gains a b) ∧ J' a b fs'.past

variable {X : Site World} {low : Nat} {held : List (Operand × Word)} {J : Past World → Prop}
  {s s' : Builder} {fs : State World}

theorem HoldAll.mono (h : X.HoldAll s fs held)
    (hsize : s.function.registers.size ≤ s'.function.registers.size)
    (hkeeps : s.Spares fs fs') : X.HoldAll s' fs' held :=
  fun p hp => (h p hp).mono hsize hkeeps

def Known (held : List (Operand × Word)) (o : Operand) (w : Word) : Prop :=
  (o, w) ∈ held ∨ ∃ c, o = .constant c ∧ c.bits = w

theorem HoldAll.value (h : X.HoldAll s fs held) (ho : Known held o w) :
    fs.value? X.environment o = some w := by
  rcases ho with ho | ⟨c, rfl, rfl⟩
  · exact (h _ ho).value
  · rfl

namespace Does

variable {gains : α → β → List (Operand × Word)} {J' : α → β → Past World → Prop}

theorem pure (b : β) (hgains : gains a b ⊆ held) (h : ∀ p, J p → J' a b p) :
    X.Does low held J (Pure.pure a) gains J' := by
  refine ⟨fun _ => .pure trivial, ?_⟩
  intro s a' s' t x fs hstep _ _ hstands _ hcells hheld hJ
  obtain ⟨rfl, rfl⟩ := EStateM.pure_eq_ok.mp hstep
  exact ⟨0, x, fs, b, .refl, hstands, hcells, fun _ _ => rfl, fun p hp => hheld p (hgains hp),
    h _ hJ⟩

theorem bind [Inhabited β] {k : α → Build γ} {gains' : γ → δ → List (Operand × Word)}
    {J'' : γ → δ → Past World → Prop} (h : X.Does low held J step gains J')
    (hk : ∀ a b, X.Does low (gains a b ++ held) (J' a b) (k a) gains' J'') :
    X.Does low held J (step >>= k) gains' J'' := by
  refine ⟨fun bound => .bind (h.builds bound) fun a _ => (hk a default).builds bound, ?_⟩
  intro s c s' t x fs hstep hplaced hlow hstands hG hcells hheld hJ
  obtain ⟨a, s1, h1, h2⟩ := EStateM.bind_eq_ok.mp hstep
  have hlater := (h.builds 0).later h1
  have hgrows := (((hk a default).builds 0).later h2).grows
  obtain ⟨n, y, fs1, b, hgoes, hstands1, hcells1, hkeeps, hgains, hJ1⟩ :=
    h.goes h1 hplaced hlow hstands (hgrows.trans hG) hcells hheld hJ
  have hheld1 : X.HoldAll s1 fs1 (gains a b ++ held) := by
    intro p hp
    rcases List.mem_append.mp hp with hp | hp
    · exact hgains p hp
    · exact hheld.mono hlater.grows.size hkeeps p hp
  obtain ⟨m, z, fs2, d, hgoes2, hstands2, hcells2, hkeeps2, hgains2, hJ2⟩ :=
    (hk a b).goes h2 (hlater.edits.cellsPlaced hplaced) (hlow.trans hlater.grows.cellCount) hstands1
      hG hcells1 hheld1 hJ1
  exact ⟨m + n, z, fs2, d, hgoes.trans hgoes2, hstands2, hcells2,
    fun r hr => (hkeeps2 r (hr.trans_le hlater.grows.size)).trans (hkeeps r hr), hgains2, hJ2⟩

theorem mono {K : Past World → Prop} {K' : α → β → Past World → Prop}
    (h : X.Does low held J step gains J') (hJ : ∀ p, K p → J p)
    (hJ' : ∀ a b p, J' a b p → K' a b p) : X.Does low held K step gains K' := by
  refine ⟨h.builds, ?_⟩
  intro s a s' t x fs hstep hplaced hlow hstands hG hcells hheld hK
  obtain ⟨n, y, fs', b, hgoes, hstands', hcells', hkeeps, hgains, hpast⟩ :=
    h.goes hstep hplaced hlow hstands hG hcells hheld (hJ _ hK)
  exact ⟨n, y, fs', b, hgoes, hstands', hcells', hkeeps, hgains, hJ' a b _ hpast⟩

theorem of_past (hbuilds : ∀ bound, Builds False id bound step)
    (h : ∀ c, J c → X.Does low held (· = c) step gains J') :
    X.Does low held J step gains J' := by
  refine ⟨hbuilds, ?_⟩
  intro s a s' t x fs hstep hplaced hlow hstands hG hcells hheld hJ
  exact (h _ hJ).goes hstep hplaced hlow hstands hG hcells hheld rfl

theorem throw : X.Does low held J (throw e) gains J' := by
  refine ⟨fun _ => .throw, ?_⟩
  intro s a s' t x fs hstep
  exact absurd hstep EStateM.throw_ne_ok

end Does

/-! ## Instructions -/

theorem does_define {instr : RegisterId → Instr} {val : β → Word}
    {J' : Operand → β → Past World → Prop}
    (hexec : ∀ s fs d, X.HoldAll s fs held → J fs.past → X.function.registerType? d = some ty →
      ∃ (noted : State World) (b : β), (instr d).exec X.environment X.program X.function fs =
      .next (noted.assign d (val b)) ∧ noted.registers = fs.registers ∧
      J' (.register d) b noted.past) :
    X.Does low held J (define ty instr) (fun o b => [(o, val b)]) J' := by
  refine ⟨fun _ => builds_define ty instr, ?_⟩
  intro s o s' t x fs hstep hplaced _ hstands hG hcells hheld hJ
  obtain ⟨d, y, rfl, hdefines⟩ := Setting.defines_define hstep hplaced hstands (hG.trans X.grows)
  obtain ⟨noted, b, hnext, hregs, hJ'⟩ := hexec s fs d hheld hJ hdefines.type
  refine ⟨0, y, noted.assign d (val b), b, hdefines.next fs _ hnext, hdefines.stands, ?_,
    hdefines.keeps hregs _, ?_, hJ'⟩
  · intro n c hc
    rw [← hcells n c hc, ← hregs]
    exact if_neg (hdefines.noCell n c hc)
  · intro p hp
    obtain rfl := List.mem_singleton.mp hp
    exact hdefines.holds _

def Typed (X : Site World) (o : Operand) (ty : Ty) : Prop :=
  ∃ r, o = .register r ∧ X.function.registerType? r = some ty

theorem does_compute {instr : RegisterId → Instr}
    (hexec : ∀ s fs d, X.HoldAll s fs held → (instr d).exec X.environment X.program X.function fs =
      .next (fs.assign d w)) :
    X.Does low held J (define ty instr) (fun o (_ : Unit) => [(o, w)])
      fun o _ p => X.Typed o ty ∧ J p :=
  does_define fun s fs d hheld hJ htype => ⟨fs, (), hexec s fs d hheld, rfl, ⟨d, rfl, htype⟩, hJ⟩

section

variable {o o' : Operand} {w : Word} {ty : Ty}

theorem does_bitCast (ho : Known held o w) :
    X.Does low held J (bitCast o ty) (fun o (_ : Unit) => [(o, w)])
      fun o _ p => X.Typed o ty ∧ J p :=
  does_compute fun s fs d hheld => by simp [Instr.exec, hheld.value ho, Step.ofOption]

theorem does_elementAddress (ho : Known held o w) (ho' : Known held o' w') :
    X.Does low held J (elementAddress o ty o')
      (fun o (_ : Unit) => [(o, w + w' * BitVec.ofNat 32 ty.size)])
      fun o _ p => X.Typed o ty.pointerTo ∧ J p :=
  does_compute fun s fs d hheld => by
    simp [Instr.exec, hheld.value ho, hheld.value ho', Step.ofOption]

theorem does_compare (condition : Condition) (ho : Known held o w) (ho' : Known held o' w') :
    X.Does low held J (compare condition o o')
      (fun o (_ : Unit) => [(o, Word.ofBool (condition.holds w w'))])
      fun o _ p => X.Typed o .cond ∧ J p :=
  does_compute fun s fs d hheld => by
    simp [Instr.exec, hheld.value ho, hheld.value ho', Step.ofOption]

theorem does_arith (op : ArithOp) (ho : Known held o w) (ho' : Known held o' w') :
    X.Does low held J (arith op o o') (fun o (_ : Unit) => [(o, op.apply w w')]) fun _ _ => J := by
  have hty : X.Does low held J (operandType o) (fun _ (_ : Unit) => []) fun _ _ => J := by
    refine ⟨fun _ => builds_operandType o, ?_⟩
    intro s a s' t x fs hstep _ _ hstands _ hcells _ hJ
    obtain ⟨rfl, -⟩ := operandType_eq_ok hstep
    exact ⟨0, x, fs, (), .refl, hstands, hcells, fun _ _ => rfl, by simp [HoldAll], hJ⟩
  refine hty.bind fun ty _ => (does_compute fun s fs d hheld => ?_).mono (fun _ hJ => hJ)
    fun _ _ _ h => h.2
  have hheld' : X.HoldAll s fs held := hheld
  simp [Instr.exec, hheld'.value ho, hheld'.value ho', Step.ofOption]

def PointsToWord (X : Site World) (o : Operand) : Prop :=
  ∃ ty : Ty, X.Typed o ty.pointerTo ∧ ty.isHollow = false ∧ ty.width? = some .word

theorem does_loadInt (ho : Known held o a) {K : Past World → Prop}
    (hJ : ∀ p, J p → p.memory.read .word a = w ∧ K (p.load a)) :
    X.Does low held J (load o .int) (fun o (_ : Unit) => [(o, w)]) fun _ _ => K := by
  refine does_define fun s fs d hheld hpast htype => ?_
  obtain ⟨rfl, hK⟩ := hJ _ hpast
  refine ⟨{ fs with trace := .load .word a :: fs.trace }, (), ?_, rfl, hK⟩
  simp [Instr.exec, htype, hheld.value ho, Step.ofOption, State.load, Ty.width?, Ty.size, wordSize,
    Machine.Width.ofSize, State.past]

theorem does_storeWord (ho : Known held o w) (ho' : Known held o' a) {K : Past World → Prop}
    (hJ : ∀ p, J p → X.PointsToWord o' ∧ K (p.store a w)) :
    X.Does low held J (store o o') (fun _ (_ : Unit) => []) fun _ _ => K := by
  refine ⟨fun _ => builds_emit _, ?_⟩
  intro s u s' t x fs hstep _ _ hstands hG hcells hheld hpast
  obtain ⟨y, hstands', hgoes, -⟩ := stands_emit hstep hstands (hG.trans X.grows)
  obtain ⟨⟨ty, ⟨r, rfl, htype⟩, hhollow, hwidth⟩, hK⟩ := hJ _ hpast
  have hstored : X.function.storedType? X.program o (.register r) = some ty := by
    simp [Function.storedType?, htype, Ty.pointee?_pointerTo hhollow]
  refine ⟨0, y, fs.store .word a w, (), hgoes _ _ ?_, hstands', hcells, fun _ _ => rfl,
    by simp [HoldAll], hK⟩
  simp [Instr.exec, hstored, hwidth, hheld.value ho, hheld.value ho', Step.ofOption]

theorem does_call {K : Word → Past World → Prop} (ho : Known held o w)
    (hcall : ∀ p, J p → ∃ world m a, X.environment.call p.world function [w] p.memory =
      some (world, m, a) ∧ K a ⟨m, world, .call function [w] :: p.trace⟩) :
    X.Does low held J (callValue function [o] ty) (fun o a => [(o, a)]) fun _ => K := by
  refine does_define fun s fs d hheld hpast _ => ?_
  obtain ⟨world, m, a, hcall, hK⟩ := hcall _ hpast
  refine ⟨⟨fs.registers, m, world, .call function [w] :: fs.trace⟩, a, ?_, rfl, hK⟩
  have hcall' : X.environment.call fs.world function [w] fs.memory = some (world, m, a) := hcall
  simp [Instr.exec, hheld.value ho, State.call, hcall']

end

theorem Does.withCell {k : RegisterId → Build α}
    {gains : α → β → List (Operand × Word)} {J' : α → β → Past World → Prop}
    (hbuilds : ∀ r bound, Builds False id bound (k r))
    (hk : ∀ (r : RegisterId) (n : Nat), low ≤ n →
      X.body.cells[n]? = some { register := r, ty := .int } →
      X.PointsToWord (.register r) →
        X.Does (n + 1) ((.register r, X.environment.cell n) :: held) J (k r) gains J') :
    X.Does low held J (createCell .int none >>= k) gains J' := by
  refine ⟨fun bound => .bind (builds_createCell _ _) fun r _ => hbuilds r bound, ?_⟩
  intro s a s' t x fs hstep hplaced hlow hstands hG hcells hheld hJ
  obtain ⟨r, s1, h1, h2⟩ := EStateM.bind_eq_ok.mp hstep
  have hcreate : Builds False id 0 (createCell .int none) := builds_createCell _ _
  have hlater := hcreate.later h1
  have hG1 := ((hbuilds r _).grows h2).trans hG
  have hplaced1 := hlater.edits.cellsPlaced hplaced
  obtain ⟨hr, hs1⟩ := createCell_eq_ok h1
  have hcell1 : s1.function.cells[s.function.cells.size]? = some { register := r, ty := .int } := by
    rw [hs1, hr]
    simp
  have hcell := hG1.cells _ _ hcell1
  have htype := (hG1.trans X.grows).registerType? (hplaced1.type _ _ hcell1)
  have hheld1 : X.HoldAll s1 fs
      ((.register r, X.environment.cell s.function.cells.size) :: held) := by
    intro p hp
    rcases List.mem_cons.mp hp with rfl | hp
    · refine ⟨hcells _ _ (X.grows.cells _ _ hcell), fun q hq => ?_⟩
      obtain rfl := Operand.register.inj hq
      exact hplaced1.lt_size hcell1
    · exact hheld.mono hlater.grows.size (fun _ _ => rfl) p hp
  have hsize : s.function.cells.size + 1 ≤ s1.function.cells.size := by
    rw [hs1]
    simp
  obtain ⟨n, y, fs', b, hgoes, hstands', hcells', hkeeps, hgains, hJ'⟩ :=
    (hk r _ hlow hcell ⟨.int, ⟨r, rfl, htype⟩, rfl, rfl⟩).goes h2 hplaced1 hsize
      (stands_createCell h1 hstands) hG hcells hheld1 hJ
  exact ⟨n, y, fs', b, hgoes, hstands', hcells',
    fun q hq => hkeeps q (hq.trans_le hlater.grows.size), hgains, hJ'⟩

end Site

/-! ## Loops that count -/

/-- **The rule for a loop that counts.**  If the test tells whether a round is missing and each
round leads from one property to the next, the loop ends with the last one. -/
theorem Site.Does.loop {X : Site World} {low : Nat} {held : List (Operand × Word)}
    {J : Nat → Past World → Prop} {n : Nat} {test : Build Operand} {body : Build Unit}
    (htest : ∀ i, X.Does low held (fun p => i ≤ n ∧ J i p) test
      (fun o (_ : Unit) => [(o, Word.ofBool (decide (i < n)))]) fun _ _ => J i)
    (hbody : ∀ i, X.Does low held (fun p => i < n ∧ J i p) body (fun _ (_ : Unit) => [])
      fun _ _ => J (i + 1)) :
    X.Does low held (J 0) (countedLoop test body) (fun _ (_ : Unit) => []) fun _ _ => J n := by
  have hbuildsTest := (htest 0).builds
  have hbuildsBody := (hbody 0).builds
  refine ⟨fun bound => builds_countedLoop (hbuildsTest bound) (hbuildsBody bound), ?_⟩
  intro s u s' t x fs hstep hplaced hlow hstands hG hcells hheld hJ
  obtain ⟨next, condition, block, s0, hlater0, hstands0, hforks, hrest⟩ :=
    withBlocks_eq_ok hstands hstep
  obtain ⟨_, hcond⟩ := hforks.firstWaits
  obtain ⟨_, hblock⟩ := hforks.secondWaits
  obtain ⟨_, s1, h1, _, s2, h2, hrest⟩ := EStateM.bind2_eq_ok.mp hrest
  obtain ⟨more, s3, h3, _, s4, h4, hrest⟩ := EStateM.bind2_eq_ok.mp hrest
  obtain ⟨_, s7, harm, h7⟩ := EStateM.bind_eq_ok.mp hrest
  obtain ⟨_, s5, h5, _, s6, h6, hback⟩ := EStateM.bind2_eq_ok.mp harm
  have hlater2 : s1.Later s2 := (builds_switchTo (Nat.zero_le _)).later h2
  have hlater3 : s2.Later s3 := (hbuildsTest 0).later h3
  have hlater4 : s3.Later s4 := (builds_terminate _).later h4
  have hlater5 : s4.Later s5 := (builds_switchTo (Nat.zero_le _)).later h5
  have hlater6 : s5.Later s6 := (hbuildsBody 0).later h6
  have hlater7 : s6.Later s7 := (builds_jump _).later hback
  have hlater8 : s7.Later s' := (builds_switchTo (Nat.zero_le _)).later h7
  have hbefore : s.Later s2 := hlater0.trans (((builds_jump _).later h1).trans hlater2)
  have hwithin := hlater3.trans (hlater4.trans hlater5)
  have hG7 := hlater8.grows.trans hG
  have hG6 := hlater7.grows.trans hG7
  have hG4 := hlater5.grows.trans (hlater6.grows.trans hG6)
  have hG3 := hlater4.grows.trans hG4
  have hG1 := (hlater2.grows.trans (hlater3.grows.trans hG3)).trans X.grows
  -- the blocks that are not being built wait
  have hjump : Builds False id s0.function.blocks.size (jump condition) := builds_jump _
  have hbranch : Builds False id s3.function.blocks.size (terminate (.branch more block next)) :=
    builds_terminate _
  have hwaits : ∀ {b t}, condition ≠ b → s0.Waits b t → s4.Waits b t := fun hne hwaits =>
    hbranch.waits h4 ((hbuildsTest _).waits h3 (waits_switchTo h2 hne (hjump.waits h1 hwaits)))
  have hcond1 := hjump.waits h1 hcond
  have hblock4 := hwaits hforks.apart hblock
  have hnext := waits_armAt hbuildsBody harm hforks.secondNext
    (hwaits hforks.firstNext hforks.nextWaits)
  have hplaced2 := hbefore.edits.cellsPlaced hplaced
  have hlow2 := hlow.trans hbefore.grows.cellCount
  have htested : ∀ i fs, i ≤ n → X.HasCells fs → X.HoldAll s2 fs held → J i fs.past →
      ∃ m fs', X.Goes m (.start condition) fs (.start (if i < n then block else next)) fs' ∧
        X.HasCells fs' ∧ s2.Spares fs fs' ∧ J i fs'.past := by
    intro i fs hi hcells hheld hJ
    obtain ⟨m, y, fs', -, hgoes, hstands3, hcells', hkeeps, hmore, hJ'⟩ := (htest i).goes h3
      hplaced2 hlow2 (stands_switchTo h2 hcond1) hG3 hcells hheld ⟨hi, hJ⟩
    have hends : X.Goes 0 y fs' (.start (if i < n then block else next)) fs' := by
      refine goes_terminate h4 hstands3 (hG4.trans X.grows) ?_
      by_cases hlt : i < n <;>
        simp [Terminator.exec, hmore.value (.inl List.mem_cons_self), Word.ofBool, hlt]
    exact ⟨_, fs', ((goes_enter hcond1 hG1).trans hgoes).trans hends, hcells', hkeeps, hJ'⟩
  -- by the number of rounds that are missing
  have hrounds : ∀ missing i fs, i + missing = n → X.HasCells fs → X.HoldAll s2 fs held →
      J i fs.past → ∃ m fs', X.Goes m (.start condition) fs (.start next) fs' ∧ X.HasCells fs' ∧
        s2.Spares fs fs' ∧ J n fs'.past := by
    intro missing
    induction missing with
    | zero =>
      intro i fs hi hcells hheld hJ
      obtain rfl : i = n := hi
      have hended := htested i fs (Nat.le_refl _) hcells hheld hJ
      rwa [if_neg (Nat.lt_irrefl _)] at hended
    | succ missing ih =>
      intro i fs hi hcells hheld hJ
      have hlt : i < n := by omega
      obtain ⟨m, fs1, hgoes, hcells1, hkeeps, hJ1⟩ := htested i fs hlt.le hcells hheld hJ
      rw [if_pos hlt] at hgoes
      obtain ⟨m', z, fs2, -, hgoes2, hstands6, hcells2, hkeeps2, -, hJ2⟩ := (hbody i).goes h6
        (hwithin.edits.cellsPlaced hplaced2) (hlow2.trans hwithin.grows.cellCount)
        (stands_switchTo h5 hblock4) hG6 hcells1 (hheld.mono hwithin.grows.size hkeeps) ⟨hlt, hJ1⟩
      have hkept : s2.Spares fs fs2 :=
        fun r hr => (hkeeps2 r (hr.trans_le hwithin.grows.size)).trans (hkeeps r hr)
      obtain ⟨m'', fs3, hgoes3, hcells3, hkeeps3, hJ3⟩ :=
        ih (i + 1) fs2 (by omega) hcells2 (hheld.mono (Nat.le_refl _) hkept) hJ2
      have hround := (hgoes.trans (goes_enter hblock4 (hG4.trans X.grows))).trans
        (hgoes2.trans (goes_jump hback hstands6 (hG7.trans X.grows)))
      exact ⟨_, fs3, hround.trans hgoes3, hcells3,
        fun r hr => (hkeeps3 r hr).trans (hkept r hr), hJ3⟩
  obtain ⟨m, fs', hgoes, hcells', hkeeps, hJ'⟩ := hrounds n 0 fs (Nat.zero_add n) hcells
    (hheld.mono hbefore.grows.size fun _ _ => rfl) hJ
  have hwhole := ((goes_jump h1 hstands0 hG1).trans hgoes).trans
    (goes_enter hnext (hG7.trans X.grows))
  exact ⟨_, .inside next 0, fs', (), hwhole, stands_switchTo h7 hnext, hcells',
    fun r hr => hkeeps r (hr.trans_le hbefore.grows.size), by simp [Site.HoldAll], hJ'⟩

end

end MxStar.Flow
