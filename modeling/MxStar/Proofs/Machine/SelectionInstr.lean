import MxStar.Proofs.Machine.SelectionCode

/-!
# Instructions of a graph, one by one

For every instruction of a graph, the code selected for it does what it does
(`performs_selectInstr`).  Arithmetic against a constant may use an immediate if
the number fits; a comparison is built from the two that the machine has; a
multiple of an element's size is a shift where it can be; and the arguments of a
call are all built before the first argument register is written.
-/

namespace MxStar.Machine

open MxStar.Flow (Operand RegisterId)

/-! ## Words -/

theorem immediate?_eq_some (h : immediate? op rhs = some (immOp, value)) :
    ∃ c, rhs = .constant c ∧ immOp.encodes value = true ∧
      ∀ a, immOp.apply a value = op.apply a c.bits := by
  simp only [immediate?, Option.filter_eq_some_iff] at h
  obtain ⟨h, hfits⟩ := h
  have hlow : ∀ b : Word, (b &&& 31).toNat < 32 := by
    intro b
    rw [BitVec.toNat_and]
    exact Nat.lt_of_le_of_lt Nat.and_le_right (by decide)
  cases rhs with
  | constant c =>
    refine ⟨c, rfl, ?_⟩
    cases op with
    | add =>
      obtain ⟨rfl, rfl⟩ : AluImmOp.addi = immOp ∧ c.bits = value := by simpa using h
      exact ⟨hfits, fun a => rfl⟩
    | sub =>
      simp only at h
      split at h
      · simp at h
      · obtain ⟨rfl, rfl⟩ : AluImmOp.addi = immOp ∧ -c.bits = value := by simpa using h
        exact ⟨hfits, fun a => (BitVec.sub_eq_add_neg a c.bits).symm⟩
    | and =>
      obtain ⟨rfl, rfl⟩ : AluImmOp.andi = immOp ∧ c.bits = value := by simpa using h
      exact ⟨hfits, fun a => rfl⟩
    | or =>
      obtain ⟨rfl, rfl⟩ : AluImmOp.ori = immOp ∧ c.bits = value := by simpa using h
      exact ⟨hfits, fun a => rfl⟩
    | xor =>
      obtain ⟨rfl, rfl⟩ : AluImmOp.xori = immOp ∧ c.bits = value := by simpa using h
      exact ⟨hfits, fun a => rfl⟩
    | shl =>
      obtain ⟨rfl, rfl⟩ : AluImmOp.slli = immOp ∧ c.bits &&& 31 = value := by simpa using h
      exact ⟨by simpa [AluImmOp.encodes] using hlow c.bits,
        fun a => Word.shiftLeft_and_low a c.bits⟩
    | ashr =>
      obtain ⟨rfl, rfl⟩ : AluImmOp.srai = immOp ∧ c.bits &&& 31 = value := by simpa using h
      exact ⟨by simpa [AluImmOp.encodes] using hlow c.bits,
        fun a => Word.shiftRight_and_low a c.bits⟩
    | mul => simp at h
    | sdiv => simp at h
    | srem => simp at h
  | _ => cases op <;> simp at h

theorem apply_aluOp (op : Flow.ArithOp) (a b : Word) : (aluOp op).apply a b = op.apply a b := by
  cases op <;> rfl

theorem ofBool_slt_xor_one (a b : Word) : Word.ofBool (b.slt a) ^^^ 1 = Word.ofBool (a.sle b) := by
  rw [BitVec.sle_eq_not_slt]
  cases b.slt a <;> rfl

theorem ult_one (a : Word) : a.ult 1 = (a == 0) := by
  rw [Bool.eq_iff_iff, BitVec.ult_iff_lt, beq_iff_eq, BitVec.lt_def, BitVec.toNat_eq]
  show a.toNat < 1 ↔ a.toNat = 0
  omega

theorem zero_ult (a : Word) : (0 : Word).ult a = (a != 0) := by
  rw [Bool.eq_iff_iff, BitVec.ult_iff_lt, bne_iff_ne, BitVec.lt_def, ne_eq, BitVec.toNat_eq]
  show 0 < a.toNat ↔ ¬ a.toNat = 0
  omega

theorem xor_beq_zero (a b : Word) : (a ^^^ b == 0) = (a == b) := by
  rw [Bool.eq_iff_iff, beq_iff_eq, beq_iff_eq]
  exact BitVec.xor_eq_zero_iff

theorem xor_bne_zero (a b : Word) : (a ^^^ b != 0) = (a != b) := by
  rw [bne, bne, xor_beq_zero]

/-! ## Parts of instructions -/

section

variable {World : Type} {n n' : Naming} {d : RegisterId} {s : State (Store World)}

theorem effect_aluImm {σ : Type} (B : Backing σ) (store : σ) (get : Register → Word)
    (h : op.encodes value = true) (rd rs : Register) :
    (Instr.aluImm op rd rs value).effect B store get =
      .write rd (op.apply (get rs) value) store := by
  simp only [Instr.effect, h, if_true]

variable {ty : Flow.Ty}

theorem effect_equality (isEqual : Bool) (rd difference : Register) :
    (if isEqual then Instr.aluImm .sltiu rd difference 1
      else .alu .sltu rd .zero difference).effect B s.store s.get =
      .write rd (Word.ofBool (if isEqual then s.get difference == 0 else s.get difference != 0))
        s.store := by
  cases isEqual with
  | true =>
    rw [if_pos rfl, if_pos rfl, effect_aluImm _ _ _ (by decide), ← ult_one]
    rfl
  | false =>
    rw [if_neg (by decide), if_neg (by decide), ← zero_ult]
    simp only [Instr.effect, AluOp.apply, State.get_zero]

theorem computes_selectEquality (hn : n.Sound)
    (h : selectEquality isEqual rd a b n = .ok (code, n')) :
    n'.Sound ∧ n.Grows n' ∧ ∀ (B : Backing (Store World)) (N : Naming), n'.Grows N →
      ∀ s : State (Store World), Computes B N n.virtuals s code rd
        (Word.ofBool (if isEqual then s.get a == s.get b else s.get a != s.get b)) := by
  by_cases hb : b = .zero
  · subst hb
    obtain ⟨rfl, rfl⟩ : [if isEqual then Instr.aluImm .sltiu rd a 1 else .alu .sltu rd .zero a] =
        code ∧ n = n' := by
      simpa [selectEquality, bind, StateT.bind, Except.bind, pure, StateT.pure, Except.pure] using h
    refine ⟨hn, .refl n, fun B N _ s => computes_single ?_⟩
    rw [effect_equality, State.get_zero]
  · obtain ⟨rfl, rfl⟩ : [Instr.alu .xor (.virtual ⟨n.virtuals⟩) a b,
        if isEqual then Instr.aluImm .sltiu rd (.virtual ⟨n.virtuals⟩) 1
          else .alu .sltu rd .zero (.virtual ⟨n.virtuals⟩)] = code ∧
        { n with virtuals := n.virtuals + 1 } = n' := by
      simpa [selectEquality, hb, bind, StateT.bind, Except.bind, pure, StateT.pure, Except.pure,
        fresh, modifyGet, MonadStateOf.modifyGet, StateT.modifyGet] using h
    refine ⟨hn.fresh, n.grows_fresh, fun B N hN s => ?_⟩
    refine computes_pair (hn.isTemporary_fresh hN) le_rfl rfl fun t hvalue _ => ?_
    rw [effect_equality, hvalue]
    simp only [AluOp.apply, xor_beq_zero, xor_bne_zero]

variable {N : Naming} {i : Flow.Instr} {base address : Operand} {rs : List Register}
  {function : String}

theorem computes_opposite (hn : n.Sound) (hN : Naming.Grows { n with virtuals := n.virtuals + 1 } N)
    (s : State (Store World)) :
    Computes B N n.virtuals s
      [.alu .slt (.virtual ⟨n.virtuals⟩) b a, .aluImm .xori rd (.virtual ⟨n.virtuals⟩) 1] rd
      (Word.ofBool ((s.get a).sle (s.get b))) := by
  refine computes_pair (hn.isTemporary_fresh hN) le_rfl rfl fun t hvalue _ => ?_
  rw [effect_aluImm _ _ _ (by decide), hvalue, ← ofBool_slt_xor_one]
  rfl

/-- **A comparison is built from those the machine has.** -/
theorem computes_selectCondition (hn : n.Sound)
    (h : selectCondition condition rd a b n = .ok (code, n')) :
    n'.Sound ∧ n.Grows n' ∧ ∀ (B : Backing (Store World)) (N : Naming), n'.Grows N →
      ∀ s : State (Store World), Computes B N n.virtuals s code rd
        (Word.ofBool (condition.holds (s.get a) (s.get b))) := by
  cases condition with
  | slt =>
    obtain ⟨rfl, rfl⟩ := Select.pure_eq_ok.mp h
    exact ⟨hn, .refl n, fun B N _ s => computes_single rfl⟩
  | sgt =>
    obtain ⟨rfl, rfl⟩ := Select.pure_eq_ok.mp h
    exact ⟨hn, .refl n, fun B N _ s => computes_single rfl⟩
  | sle =>
    simp only [selectCondition, fresh_bind] at h
    obtain ⟨rfl, rfl⟩ := Select.pure_eq_ok.mp h
    exact ⟨hn.fresh, n.grows_fresh, fun B N hN s => computes_opposite hn hN s⟩
  | sge =>
    simp only [selectCondition, fresh_bind] at h
    obtain ⟨rfl, rfl⟩ := Select.pure_eq_ok.mp h
    exact ⟨hn.fresh, n.grows_fresh, fun B N hN s => computes_opposite hn hN s⟩
  | eq => exact computes_selectEquality hn h
  | ne => exact computes_selectEquality hn h

theorem computes_addOffset {base : Register} (hn : n.Sound)
    (h : addOffset rd base offset n = .ok (code, n')) :
    n'.Sound ∧ n.Grows n' ∧ ∀ (B : Backing (Store World)) (N : Naming), n'.Grows N →
      Settled N n.virtuals base →
      ∀ s : State (Store World), Computes B N n.virtuals s code rd (s.get base + offset) := by
  simp only [addOffset] at h
  split at h
  · rename_i hfits
    obtain ⟨rfl, rfl⟩ := Select.pure_eq_ok.mp h
    refine ⟨hn, .refl n, fun B N _ _ s => computes_single ?_⟩
    exact effect_aluImm B s.store s.get
      (show AluImmOp.addi.encodes offset = true from hfits) rd base
  · rw [fresh_bind] at h
    obtain ⟨rfl, rfl⟩ := Select.pure_eq_ok.mp h
    refine ⟨hn.fresh, n.grows_fresh, fun B N hN hbase s => ?_⟩
    have htemp := hn.isTemporary_fresh hN
    refine computes_pair htemp le_rfl rfl fun t hvalue hother => ?_
    have hne : base ≠ .virtual ⟨n.virtuals⟩ := by
      rintro rfl
      exact hbase _ rfl le_rfl htemp
    simp only [Instr.effect, AluOp.apply, hvalue, hother base hne]

theorem shiftLeft_two (a : Word) : a.shiftLeft 2 = a * BitVec.ofNat 32 4 := by
  show a <<< 2 = a * 4#32
  exact BitVec.shiftLeft_eq_mul_twoPow a 2

theorem prepares_scale (hn : n.Sound) (h : scale index ty.size n = .ok ((r, code), n')) :
    n'.Sound ∧ n.Grows n' ∧ ∀ (B : Backing (Store World)) (N : Naming), n'.Grows N →
      Settled N n.virtuals index → Settled N n'.virtuals r ∧
      ∀ s : State (Store World), ∃ s', Runs B code s s' ∧ Keeps N n.virtuals s s' ∧
        s'.get r = s.get index * BitVec.ofNat 32 ty.size := by
  rcases ty.size_eq with hsize | hsize | hsize
  · rw [hsize] at h ⊢
    simp only [scale, show ¬ (0 = 1) by decide, show ¬ (1 <<< Nat.log2 0 = 0) by decide, if_false,
      fresh_bind] at h
    obtain ⟨⟨rfl, rfl⟩, rfl⟩ := Select.pure_pair_eq_ok.mp h
    refine ⟨hn.fresh.fresh, n.grows_fresh.trans (Naming.grows_fresh _), fun B N hN _ => ?_⟩
    have hfactor := hn.isTemporary_fresh ((Naming.grows_fresh _).trans hN)
    have hscaled := hn.fresh.isTemporary_fresh hN
    refine ⟨settled_of_lt (by simp), fun s => ?_⟩
    refine ⟨_, Runs.append (Runs.write rfl) (Runs.write rfl),
      (keeps_set hfactor le_rfl _).trans (keeps_set hscaled (Nat.le_succ _) _), ?_⟩
    rw [State.get_set_self _ _ (by simp)]
    simp only [AluOp.apply]
    rw [State.get_set_self _ _ (by simp)]
    simp
  · rw [hsize] at h ⊢
    simp only [scale, if_true] at h
    obtain ⟨⟨rfl, rfl⟩, rfl⟩ := Select.pure_pair_eq_ok.mp h
    refine ⟨hn, .refl n, fun B N _ hindex => ⟨hindex, fun s => ?_⟩⟩
    exact ⟨s, Runs.nil, Keeps.refl s, by simp⟩
  · rw [hsize] at h ⊢
    simp only [scale, show ¬ (wordSize = 1) by decide,
      show 1 <<< Nat.log2 wordSize = wordSize by decide, if_false, if_true, fresh_bind] at h
    obtain ⟨⟨rfl, rfl⟩, rfl⟩ := Select.pure_pair_eq_ok.mp h
    refine ⟨hn.fresh, n.grows_fresh, fun B N hN _ => ?_⟩
    refine ⟨settled_of_lt (Nat.lt_succ_self _), fun s => ?_⟩
    refine ⟨_, Runs.write (effect_aluImm _ _ _ (by decide) _ _),
      keeps_set (hn.isTemporary_fresh hN) le_rfl _, ?_⟩
    rw [State.get_set_self _ _ (by simp)]
    exact shiftLeft_two (s.get index)

/-! ## Instructions -/

/-- The code does what happens to the state of the graph. -/
structure Follows (sel : Selector) (E : Environment World) (n n' : Naming)
    (exec : Flow.State World → Flow.Step World) (code : List Instr) : Prop where
  sound : n'.Sound
  grows : n.Grows n'
  next : ∀ N, N.Sound → n'.Grows N → ∀ fs s fs', Carries sel E N fs s → exec fs = .next fs' →
    ∃ s', Runs (sel.backing E) code s s' ∧ Carries sel E N fs' s'
  hung : ∀ N, N.Sound → n'.Grows N → ∀ fs s fs', Carries sel E N fs s → exec fs = .hung fs' →
    ∃ s', Hangs (sel.backing E) code s s' ∧ Seen fs' s'.store

/-- The code does what an instruction of the graph does. -/
abbrev Performs (sel : Selector) (E : Environment World) (sp : Word) (n n' : Naming)
    (i : Flow.Instr) (code : List Instr) : Prop :=
  Follows sel E n n' (fun fs => i.exec (E.flow sp) sel.program sel.source fs) code

variable {sel : Selector} {E : Environment World} {sp : Word} {code : List Instr}

theorem performs_computes (hsound : n'.Sound) (hgrows : n.Grows n') (hv : n'.values[d]? = some v)
    (hcell : sel.slot? d = none) (hcall : ∀ d function arguments, i ≠ .call d function arguments)
    (h : ∀ fs fs', i.exec (E.flow sp) sel.program sel.source fs = .next fs' →
      ∃ w, fs' = fs.assign d w ∧ ∀ N, n'.Grows N → ∀ s, Carries sel E N fs s →
      Computes (sel.backing E) N n.virtuals s code (.virtual v) w) :
    Performs sel E sp n n' i code where
  sound := hsound
  grows := hgrows
  next := by
    intro N hN hN' fs s fs' C hexec
    obtain ⟨w, rfl, hcomputes⟩ := h fs fs' hexec
    exact C.computes hN (hN'.values d v hv) hcell (hcomputes N hN' s C)
  hung := by
    intro N _ _ fs s fs' _ hexec
    exact absurd hexec (Flow.Instr.exec_ne_hung hcall)

theorem performs_selectArith (hn : n.Sound) (hcell : sel.slot? d = none)
    (h : sel.selectArith op d lhs rhs n = .ok (code, n')) :
    Performs sel E sp n n' (.arith op d lhs rhs) code := by
  simp only [Selector.selectArith] at h
  obtain ⟨⟨rs1, code1⟩, n1, hlhs, h⟩ := Select.bind_eq_ok.mp h
  have P1 : Prepares sel E sp n n1 lhs rs1 code1 := prepares_operand hn hlhs
  have hexec : ∀ fs fs', (Flow.Instr.arith op d lhs rhs).exec (E.flow sp) sel.program sel.source fs
      = .next fs' → ∃ a b, fs.value? (E.flow sp) lhs = some a ∧ fs.value? (E.flow sp) rhs = some b ∧
        fs' = fs.assign d (op.apply a b) := by
    intro fs fs' hexec
    simp only [Flow.Instr.exec, Flow.Step.ofOption_eq_next, bind, Option.bind_eq_some_iff, pure,
      Option.some.injEq] at hexec
    obtain ⟨a, ha, b, hb, rfl⟩ := hexec
    exact ⟨a, b, ha, hb, rfl⟩
  cases himm : immediate? op rhs with
  | some imm =>
    obtain ⟨immOp, value⟩ := imm
    simp only [himm] at h
    obtain ⟨rd, hrd, rfl⟩ := Select.bind_pure_eq_ok.mp h
    obtain ⟨hsound, hgrows, v, rfl, hv⟩ := valueRegister_eq_ok P1.sound hrd
    obtain ⟨c, rfl, hencodes, happly⟩ := immediate?_eq_some himm
    refine performs_computes hsound (P1.grows.trans hgrows) hv hcell (by simp)
      fun fs fs' hnext => ?_
    obtain ⟨a, b, ha, hb, rfl⟩ := hexec fs fs' hnext
    refine ⟨_, rfl, fun N hN s C => ?_⟩
    obtain rfl : c.bits = b := Option.some.inj hb
    obtain ⟨s1, hrun, hkeeps, hget⟩ := P1.delivers N (hgrows.trans hN) fs s a C ha
    refine ⟨code1, _, s1, rfl, hrun, hkeeps, ?_⟩
    rw [effect_aluImm _ _ _ hencodes, hget, happly]
  | none =>
    simp only [himm] at h
    obtain ⟨⟨rs2, code2⟩, n2, hrhs, rd, hrd, rfl⟩ := Select.bind2_pure_eq_ok.mp h
    have P2 : Prepares sel E sp n1 n2 rhs rs2 code2 := prepares_operand P1.sound hrhs
    obtain ⟨hsound, hgrows, v, rfl, hv⟩ := valueRegister_eq_ok P2.sound hrd
    refine performs_computes hsound (P1.grows.trans (P2.grows.trans hgrows)) hv hcell (by simp)
      fun fs fs' hnext => ?_
    obtain ⟨a, b, ha, hb, rfl⟩ := hexec fs fs' hnext
    refine ⟨_, rfl, fun N hN s C => ?_⟩
    obtain ⟨s1, hrun, hkeeps, hget1, hget2⟩ := P1.two P2 (hgrows.trans hN) C ha hb
    refine ⟨code1 ++ code2, _, s1, rfl, hrun, hkeeps, ?_⟩
    simp only [Instr.effect, hget1, hget2, apply_aluOp]

theorem performs_selectCompare (hn : n.Sound) (hcell : sel.slot? d = none)
    (h : sel.selectCompare condition d lhs rhs n = .ok (code, n')) :
    Performs sel E sp n n' (.compare condition d lhs rhs) code := by
  simp only [Selector.selectCompare] at h
  obtain ⟨⟨a, code1⟩, n1, hlhs, ⟨b, code2⟩, n2, hrhs, h⟩ := Select.bind2_eq_ok.mp h
  obtain ⟨rd, n3, hrd, test, htest, rfl⟩ := Select.bind2_pure_eq_ok.mp h
  have P1 : Prepares sel E sp n n1 lhs a code1 := prepares_operand hn hlhs
  have P2 : Prepares sel E sp n1 n2 rhs b code2 := prepares_operand P1.sound hrhs
  obtain ⟨hsound3, hgrows3, v, rfl, hv⟩ := valueRegister_eq_ok P2.sound hrd
  obtain ⟨hsound4, hgrows4, hcomputes⟩ := computes_selectCondition hsound3 htest
  refine performs_computes hsound4 (P1.grows.trans (P2.grows.trans (hgrows3.trans hgrows4)))
    (hgrows4.values d v hv) hcell (by simp) fun fs fs' hnext => ?_
  simp only [Flow.Instr.exec, Flow.Step.ofOption_eq_next, bind, Option.bind_eq_some_iff, pure,
    Option.some.injEq] at hnext
  obtain ⟨x, hx, y, hy, rfl⟩ := hnext
  refine ⟨_, rfl, fun N hN s C => ?_⟩
  obtain ⟨s1, hrun, hkeeps, hget1, hget2⟩ := P1.two P2 (hgrows3.trans (hgrows4.trans hN)) C hx hy
  have hcode := hcomputes (sel.backing E) N hN s1
  rw [hget1, hget2] at hcode
  exact hcode.prepend hrun hkeeps (P1.grows.trans (P2.grows.trans hgrows3)).virtuals

theorem performs_unary (compute : Word → Word) (final : Register → Register → Instr) (hn : n.Sound)
    (hcell : sel.slot? d = none) (hcall : ∀ d function arguments, i ≠ .call d function arguments)
    (hfinal : ∀ (B : Backing (Store World)) (s : State (Store World)) rd rs,
      (final rd rs).effect B s.store s.get = .write rd (compute (s.get rs)) s.store)
    (hexec : ∀ fs, i.exec (E.flow sp) sel.program sel.source fs = .ofOption
      ((fs.value? (E.flow sp) o).map fun w => fs.assign d (compute w)))
    (h : (do
      let (rs, code) ← sel.operand o
      let rd ← valueRegister d
      return code ++ [final rd rs] : Select (List Instr)) n = .ok (code, n')) :
    Performs sel E sp n n' i code := by
  obtain ⟨⟨rs, code1⟩, n1, ho, rd, hrd, rfl⟩ := Select.bind2_pure_eq_ok.mp h
  have P : Prepares sel E sp n n1 o rs code1 := prepares_operand hn ho
  obtain ⟨hsound, hgrows, v, rfl, hv⟩ := valueRegister_eq_ok P.sound hrd
  refine performs_computes hsound (P.grows.trans hgrows) hv hcell hcall fun fs fs' hnext => ?_
  rw [hexec, Flow.Step.ofOption_eq_next, Option.map_eq_some_iff] at hnext
  obtain ⟨w, hw, rfl⟩ := hnext
  refine ⟨_, rfl, fun N hN s C => ?_⟩
  obtain ⟨s1, hrun, hkeeps, hget⟩ := P.delivers N (hgrows.trans hN) fs s w C hw
  refine ⟨code1, _, s1, rfl, hrun, hkeeps, ?_⟩
  rw [hfinal, hget]

section

variable {rs rd : Register} {code1 add : List Instr} {n1 n2 : Naming} {offset : Word}
  (hn : n.Sound) (hbase : sel.operand base n = .ok ((rs, code1), n1))
  (hrd : valueRegister d n1 = .ok (rd, n2)) (hadd : addOffset rd rs offset n2 = .ok (add, n'))
include hn hbase hrd hadd

/-- The value of an operand plus a number, in the register that stands for `d`. -/
theorem computes_operandOffset (E : Environment World) (sp : Word) :
    n'.Sound ∧ n.Grows n' ∧ ∃ v, n'.values[d]? = some v ∧
      ∀ N, n'.Grows N → ∀ fs s a, Carries sel E N fs s → fs.value? (E.flow sp) base = some a →
        Computes (sel.backing E) N n.virtuals s (code1 ++ add) (.virtual v) (a + offset) := by
  have P1 : Prepares sel E sp n n1 base rs code1 := prepares_operand hn hbase
  obtain ⟨hsound2, hgrows2, v, rfl, hv⟩ := valueRegister_eq_ok P1.sound hrd
  obtain ⟨hsound3, hgrows3, hcomputes⟩ := computes_addOffset hsound2 hadd
  refine ⟨hsound3, P1.grows.trans (hgrows2.trans hgrows3), v, hgrows3.values d v hv,
    fun N hN fs s a C ha => ?_⟩
  have hN1 := hgrows2.trans (hgrows3.trans hN)
  obtain ⟨s1, hrun, hkeeps, hget⟩ := P1.delivers N hN1 fs s a C ha
  have hcode := hcomputes (sel.backing E) N hN ((P1.settled N hN1).mono hgrows2.virtuals) s1
  rw [hget] at hcode
  exact hcode.prepend hrun hkeeps (P1.grows.trans hgrows2).virtuals

theorem performs_addOffset (hcell : sel.slot? d = none)
    (hcall : ∀ d function arguments, i ≠ .call d function arguments)
    (h : ∀ fs fs', i.exec (E.flow sp) sel.program sel.source fs = .next fs' →
      ∃ a, fs.value? (E.flow sp) base = some a ∧ fs' = fs.assign d (a + offset)) :
    Performs sel E sp n n' i (code1 ++ add) := by
  obtain ⟨hsound, hgrows, v, hv, hcomputes⟩ := computes_operandOffset hn hbase hrd hadd E sp
  refine performs_computes hsound hgrows hv hcell hcall fun fs fs' hnext => ?_
  obtain ⟨a, ha, rfl⟩ := h fs fs' hnext
  exact ⟨_, rfl, fun N hN s C => hcomputes N hN fs s a C ha⟩

end

theorem performs_selectElement (hn : n.Sound) (hcell : sel.slot? d = none)
    (h : sel.selectElement d base element index n = .ok (code, n')) :
    Performs sel E sp n n' (.elementAddress d base element index) code := by
  simp only [Selector.selectElement] at h
  obtain ⟨⟨rs, code1⟩, n1, hbase, h⟩ := Select.bind_eq_ok.mp h
  have P1 : Prepares sel E sp n n1 base rs code1 := prepares_operand hn hbase
  have hexec : ∀ fs fs', (Flow.Instr.elementAddress d base element index).exec (E.flow sp)
      sel.program sel.source fs = .next fs' → ∃ a i, fs.value? (E.flow sp) base = some a ∧
        fs.value? (E.flow sp) index = some i ∧
        fs' = fs.assign d (a + i * BitVec.ofNat 32 element.size) := by
    intro fs fs' hexec
    simp only [Flow.Instr.exec, Flow.Step.ofOption_eq_next, bind, Option.bind_eq_some_iff, pure,
      Option.some.injEq] at hexec
    obtain ⟨a, ha, i, hi, rfl⟩ := hexec
    exact ⟨a, i, ha, hi, rfl⟩
  by_cases hconstant : ∃ c, index = .constant c
  · obtain ⟨c, rfl⟩ := hconstant
    obtain ⟨rd, n2, hrd, add, hadd, rfl⟩ := Select.bind2_pure_eq_ok.mp h
    refine performs_addOffset hn hbase hrd hadd hcell (by simp) fun fs fs' hnext => ?_
    obtain ⟨a, i, ha, hi, rfl⟩ := hexec fs fs' hnext
    obtain rfl : c.bits = i := Option.some.inj hi
    exact ⟨a, ha, rfl⟩
  · have h : (do
        let (index, more) ← sel.operand index
        let (scaled, scaling) ← scale index element.size
        let rd ← valueRegister d
        return code1 ++ more ++ scaling ++ [.alu .add rd rs scaled] : Select (List Instr)) n1 =
        .ok (code, n') := by
      cases index with
      | constant c => exact absurd ⟨c, rfl⟩ hconstant
      | _ => exact h
    obtain ⟨⟨ri, code2⟩, n2, hindex, ⟨scaled, scaling⟩, n3, hscale, h⟩ := Select.bind2_eq_ok.mp h
    obtain ⟨rd, hrd, rfl⟩ := Select.bind_pure_eq_ok.mp h
    have P2 : Prepares sel E sp n1 n2 index ri code2 := prepares_operand P1.sound hindex
    obtain ⟨hsound3, hgrows3, hscaled⟩ := prepares_scale P2.sound hscale
    obtain ⟨hsound4, hgrows4, v, rfl, hv⟩ := valueRegister_eq_ok hsound3 hrd
    refine performs_computes hsound4 (P1.grows.trans (P2.grows.trans (hgrows3.trans hgrows4)))
      hv hcell (by simp) fun fs fs' hnext => ?_
    obtain ⟨a, i, ha, hi, rfl⟩ := hexec fs fs' hnext
    refine ⟨_, rfl, fun N hN s C => ?_⟩
    have hN3 := hgrows4.trans hN
    have hN2 := hgrows3.trans hN3
    obtain ⟨s1, hrun1, hkeeps1, hget1, hget2⟩ := P1.two P2 hN2 C ha hi
    obtain ⟨-, hdelivers⟩ := hscaled (sel.backing E) N hN3 (P2.settled N hN2)
    obtain ⟨s2, hrun2, hkeeps2, hget⟩ := hdelivers s1
    have hbase' : s2.get rs = a := by
      rw [hkeeps2.get _ ((P1.settled N (P2.grows.trans hN2)).mono P2.grows.virtuals), hget1]
    refine ⟨code1 ++ code2 ++ scaling, _, s2, rfl, hrun1.append hrun2,
      hkeeps1.trans (hkeeps2.mono (P1.grows.trans P2.grows).virtuals), ?_⟩
    simp only [Instr.effect, AluOp.apply, hbase', hget, hget2]

theorem selectMember_eq_ok (h : sel.selectMember d base struct field n = .ok (code, n')) :
    ∃ layout member rs prepare rd add n1 n2, sel.program.struct? struct = some layout ∧
      layout.members[field]? = some member ∧ sel.operand base n = .ok ((rs, prepare), n1) ∧
      valueRegister d n1 = .ok (rd, n2) ∧
      addOffset rd rs (BitVec.ofNat 32 member.offset) n2 = .ok (add, n') ∧
      code = prepare ++ add := by
  simp only [Selector.selectMember] at h
  cases hstruct : sel.program.struct? struct with
  | none =>
    simp only [hstruct] at h
    simp [throw, throwThe, MonadExceptOf.throw, StateT.lift, bind, Except.bind] at h
  | some layout =>
    simp only [hstruct] at h
    cases hmember : layout.members[field]? with
    | none =>
      simp only [hmember] at h
      simp [throw, throwThe, MonadExceptOf.throw, StateT.lift, bind, Except.bind] at h
    | some member =>
      simp only [hmember] at h
      obtain ⟨⟨rs, prepare⟩, n1, hbase, rd, n2, hrd, h⟩ := Select.bind2_eq_ok.mp h
      obtain ⟨add, hadd, rfl⟩ := Select.bind_pure_eq_ok.mp h
      exact ⟨layout, member, rs, prepare, rd, add, n1, n2, rfl, hmember, hbase, hrd, hadd, rfl⟩

theorem performs_selectMember (hn : n.Sound) (hcell : sel.slot? d = none)
    (h : sel.selectMember d base struct field n = .ok (code, n')) :
    Performs sel E sp n n' (.memberAddress d base struct field) code := by
  obtain ⟨layout, member, rs, code1, rd, add, n1, n2, hstruct, hmember, hbase, hrd, hadd, rfl⟩ :=
    selectMember_eq_ok h
  refine performs_addOffset hn hbase hrd hadd hcell (by simp) fun fs fs' hnext => ?_
  simp only [Flow.Instr.exec, Flow.Step.ofOption_eq_next, bind, Option.bind_eq_some_iff, pure,
    Option.some.injEq, Flow.Program.memberOffset?, hstruct, hmember, exists_eq_left'] at hnext
  obtain ⟨a, ha, rfl⟩ := hnext
  exact ⟨a, ha, rfl⟩

theorem storedType?_of_storedType (h : sel.storedType value address = .ok ty) :
    sel.source.storedType? sel.program value address = some ty := by
  simp only [Selector.storedType] at h
  cases hknown : sel.pointeeType? address with
  | error e => simp [hknown, bind, Except.bind] at h
  | ok known =>
    have hfind : sel.source.storedType? sel.program value address =
        known.or (sel.source.operandType? value) := by
      cases address with
      | register r =>
        simp only [Selector.pointeeType?] at hknown
        cases hty : sel.source.registerType r with
        | error e => simp [hty, bind, Except.bind] at hknown
        | ok ty =>
          simp only [hty, bind, Except.bind] at hknown
          split at hknown
          · simp [throw, throwThe, MonadExceptOf.throw] at hknown
          · cases hknown
            simp [Flow.Function.storedType?, Flow.Function.registerType?_of_registerType hty]
      | global name =>
        cases hknown
        rfl
      | constant c =>
        cases hknown
        rfl
      | string id =>
        cases hknown
        rfl
    rw [hfind]
    cases known with
    | some ty' =>
      obtain rfl : ty' = ty := by simpa [hknown, bind, Except.bind, pure, Except.pure] using h
      rfl
    | none =>
      simp only [hknown, bind, Except.bind] at h
      exact Flow.Function.operandType?_of_operandType h

theorem performs_load (hn : n.Sound) (hcell : sel.slot? d = none)
    (h : sel.selectInstr (.load d address) n = .ok (code, n')) :
    Performs sel E sp n n' (.load d address) code := by
  simp only [Selector.selectInstr] at h
  obtain ⟨ty, htype, h⟩ := Select.lift_bind_eq_ok.mp h
  obtain ⟨⟨base, offset, code1⟩, n1, haddr, rd, hrd, rfl⟩ := Select.bind2_pure_eq_ok.mp h
  have L : Locates sel E sp n n1 address base offset code1 := locates_address hn haddr
  obtain ⟨hsound, hgrows, v, rfl, hv⟩ := valueRegister_eq_ok L.sound hrd
  refine ⟨hsound, L.grows.trans hgrows, ?_, fun N _ _ fs s fs' _ hexec =>
    absurd hexec (Flow.Instr.exec_ne_hung (by simp))⟩
  intro N hN hN' fs s fs' C hnext
  simp only [Flow.Instr.exec, Flow.Step.ofOption_eq_next, bind, Option.bind_eq_some_iff, pure,
    Option.some.injEq, Flow.Function.registerType?_of_registerType htype] at hnext
  obtain ⟨_, rfl, width, hwidth, a, ha, rfl⟩ := hnext
  obtain rfl := Flow.Ty.eq_ofSize_of_width? hwidth
  obtain ⟨s1, hrun, hkeeps, hpoints⟩ := L.delivers N (hgrows.trans hN') fs s a C ha
  have C1 := C.keeps hkeeps
  have heffect : (Instr.load (.ofSize ty.size) (.virtual v) base offset).effect (sel.backing E)
      s1.store s1.get = .write (.virtual v) (s1.store.load (.ofSize ty.size) a).1
        (s1.store.load (.ofSize ty.size) a).2 := by
    simp only [Instr.effect, hpoints.load]
  refine ⟨_, hrun.append (Runs.write heffect), ?_⟩
  have hvalue : (s1.store.load (.ofSize ty.size) a).1 = fs.memory.read (.ofSize ty.size) a := by
    simp only [Store.load, C1.seen.memory]
  rw [hvalue]
  have C2 : Carries sel E N { fs with trace := .load (.ofSize ty.size) a :: fs.trace }
      { s1 with store := (s1.store.load (.ofSize ty.size) a).2 } :=
    C1.transfer rfl (fun _ => rfl) rfl
      ⟨C1.seen.memory, C1.seen.world, by simp [Store.load, C1.seen.trace, observed]⟩ C1.outgoing
  exact C2.assign hN (hN'.values d v hv) hcell _

theorem performs_store (hn : n.Sound)
    (h : sel.selectInstr (.store value address) n = .ok (code, n')) :
    Performs sel E sp n n' (.store value address) code := by
  simp only [Selector.selectInstr] at h
  obtain ⟨ty, htype, h⟩ := Select.lift_bind_eq_ok.mp h
  obtain ⟨⟨rs, code1⟩, n1, hvalue, ⟨base, offset, code2⟩, n2, haddr, h⟩ :=
    Select.bind2_eq_ok.mp h
  obtain ⟨rfl, rfl⟩ := Select.pure_eq_ok.mp h
  have P : Prepares sel E sp n n1 value rs code1 := prepares_operand hn hvalue
  have L : Locates sel E sp n1 n2 address base offset code2 := locates_address P.sound haddr
  refine ⟨L.sound, P.grows.trans L.grows, ?_, fun N _ _ fs s fs' _ hexec =>
    absurd hexec (Flow.Instr.exec_ne_hung (by simp))⟩
  intro N hN hN' fs s fs' C hnext
  simp only [Flow.Instr.exec, Flow.Step.ofOption_eq_next, bind, Option.bind_eq_some_iff, pure,
    Option.some.injEq, storedType?_of_storedType htype, exists_eq_left'] at hnext
  obtain ⟨width, hwidth, w, hw, a, ha, rfl⟩ := hnext
  obtain rfl := Flow.Ty.eq_ofSize_of_width? hwidth
  obtain ⟨s1, hrun1, hkeeps1, hget1⟩ := P.delivers N (L.grows.trans hN') fs s w C hw
  have C1 := C.keeps hkeeps1
  obtain ⟨s2, hrun2, hkeeps2, hpoints⟩ := L.delivers N hN' fs s1 a C1 ha
  have C2 := C1.keeps hkeeps2
  have hget : s2.get rs = w := by rw [hkeeps2.get _ (P.settled N (L.grows.trans hN')), hget1]
  have heffect : (Instr.store (.ofSize ty.size) rs base offset).effect (sel.backing E)
      s2.store s2.get = .next (s2.store.save (.ofSize ty.size) a w) := by
    simp only [Instr.effect, hpoints.store, hget]
  refine ⟨_, (hrun1.append hrun2).append (Runs.next heffect), ?_⟩
  refine C2.transfer rfl (fun _ => rfl) rfl ⟨?_, C2.seen.world, ?_⟩ C2.outgoing
  · simp only [Store.save, Flow.State.store, C2.seen.memory]
  · simp [Store.save, Flow.State.store, C2.seen.trace, observed]

/-! ## Calls -/

theorem runs_outgoing (sel : Selector) (E : Environment World) (rs : List Register) (k : Nat)
    (s : State (Store World)) :
    ∃ s', Runs (sel.backing E)
        ((rs.zipIdx k).map fun (r, i) => .store .word r .sp (.outgoing i)) s s' ∧
      s'.registers = s.registers ∧ s'.store.memory = s.store.memory ∧
      s'.store.world = s.store.world ∧ s'.store.trace = s.store.trace ∧
      ∀ m, s'.store.outgoing m =
        if m < k then s.store.outgoing m else (rs[m - k]?.map s.get).or (s.store.outgoing m) := by
  induction rs generalizing k s with
  | nil => exact ⟨s, Runs.nil, rfl, rfl, rfl, rfl, by simp⟩
  | cons r rs ih =>
    let store : Store World :=
      { s.store with outgoing := fun m => if m = k then some (s.get r) else s.store.outgoing m }
    have heffect : (Instr.store .word r .sp (.outgoing k)).effect (sel.backing E) s.store s.get =
        .next store := rfl
    obtain ⟨s', hrun, hregs, hmemory, hworld, htrace, houtgoing⟩ := ih (k + 1) { s with store }
    refine ⟨s', ?_, hregs, hmemory, hworld, htrace, fun m => ?_⟩
    · rw [List.zipIdx_cons, List.map_cons, ← List.singleton_append]
      exact (Runs.next heffect).append hrun
    · rw [houtgoing m]
      rcases Nat.lt_trichotomy m k with hlt | rfl | hgt
      · simp [store, hlt, Nat.lt_succ_of_lt hlt, Nat.ne_of_lt hlt]
      · simp [store]
      · have hk : m - k = m - (k + 1) + 1 := by omega
        have hge : ¬ m < k + 1 := by omega
        simp [store, hk, hge, Nat.not_lt_of_lt hgt, Nat.ne_of_gt hgt]
        rfl

/-- Argument registers are filled one after the other.  What is moved does not
stand in one of them, so nothing is overwritten before it is read. -/
theorem runs_moves (B : Backing (Store World)) (as : List Physical) (rs : List Register)
    (s : State (Store World)) (hnodup : as.Nodup) (hzero : Physical.zero ∉ as)
    (hsource : ∀ r ∈ rs, ∀ p, r = .physical p → p = .zero) :
    ∃ s', Runs B (List.zipWith (fun a r => .mv (.physical a) r) as rs) s s' ∧
      s'.store = s.store ∧ (∀ r, (∀ a ∈ as, r ≠ .physical a) → s'.get r = s.get r) ∧
      (as.take rs.length).map (fun p => s'.get (.physical p)) = (rs.take as.length).map s.get := by
  induction as generalizing rs s with
  | nil => exact ⟨s, Runs.nil, rfl, fun _ _ => rfl, by simp⟩
  | cons a as ih =>
    cases rs with
    | nil => exact ⟨s, Runs.nil, rfl, fun _ _ => rfl, by simp⟩
    | cons r rs =>
      rw [List.nodup_cons] at hnodup
      have hza : a ≠ .zero := fun h => hzero (h ▸ (.head _))
      have hread : ∀ q ∈ rs, (s.set (.physical a) (s.get r)).get q = s.get q := by
        intro q hq
        refine State.get_set_of_ne _ _ ?_
        intro heq
        exact hza (hsource q (.tail _ hq) a heq)
      obtain ⟨s', hrun, hstore, hget, hmap⟩ := ih rs (s.set (.physical a) (s.get r)) hnodup.2
        (fun h => hzero (.tail _ h))
        (fun q hq => hsource q (.tail _ hq))
      refine ⟨s', ?_, hstore, ?_, ?_⟩
      · rw [List.zipWith_cons_cons, ← List.singleton_append]
        exact Runs.append (Runs.write rfl) hrun
      · intro q hq
        rw [hget q fun p hp => hq p (List.mem_cons_of_mem _ hp)]
        exact State.get_set_of_ne _ _ (hq a (.head _))
      · have hself : s'.get (.physical a) = s.get r := by
          rw [hget (.physical a) fun p hp heq => hnodup.1 (Register.physical.inj heq ▸ hp)]
          exact State.get_set_self _ _ (by simpa using hza)
        simp only [List.length_cons, List.take_succ_cons, List.map_cons, hself, hmap]
        congr 1
        exact List.map_congr_left fun q hq => hread q (List.mem_of_mem_take hq)

def callPrefix (rs : List Register) : List Instr :=
  ((rs.drop Physical.arguments.length).zipIdx.map fun (r, i) => .store .word r .sp (.outgoing i)) ++
    List.zipWith (fun a r => .mv (.physical a) r) Physical.arguments rs

theorem runs_callPrefix (hsource : ∀ r ∈ rs, ∀ p, r = .physical p → p = .zero)
    (houtgoing : s.store.outgoing = fun _ => none) :
    ∃ s', Runs (sel.backing E) (callPrefix rs) s s' ∧
      (∀ v, s'.get (.virtual v) = s.get (.virtual v)) ∧ s'.get .sp = s.get .sp ∧
      s'.store.memory = s.store.memory ∧ s'.store.world = s.store.world ∧
      s'.store.trace = s.store.trace ∧
      ∀ symbol : String, ({
        symbol
        arguments := (Physical.arguments.take (min rs.length Physical.arguments.length)).map
          fun p => s'.get (.physical p)
        stack := s'.store.outgoing } : Call) = .pass symbol (rs.map s.get) := by
  obtain ⟨s1, hrun1, hregs, hmemory, hworld, htrace, hstack⟩ :=
    runs_outgoing sel E (rs.drop Physical.arguments.length) 0 s
  obtain ⟨s2, hrun2, hstore, hget, hmap⟩ :=
    runs_moves (sel.backing E) Physical.arguments rs s1 (by decide) (by decide) hsource
  have hget1 : s1.get = s.get := by
    funext r
    simp only [State.get, hregs]
  refine ⟨s2, hrun1.append hrun2, ?_, ?_, ?_, ?_, ?_, ?_⟩
  · intro v
    rw [hget _ (by simp), hget1]
  · rw [hget _ (by decide), hget1]
  · rw [hstore, hmemory]
  · rw [hstore, hworld]
  · rw [hstore, htrace]
  · intro symbol
    have hargs : (Physical.arguments.take (min rs.length Physical.arguments.length)).map
        (fun p => s2.get (.physical p)) = (rs.map s.get).take Physical.arguments.length := by
      rw [← List.take_take, List.take_length, hmap, hget1, List.map_take]
    have hwords : s2.store.outgoing = fun m => (rs.map s.get)[Physical.arguments.length + m]? := by
      funext m
      rw [hstore, hstack m, houtgoing]
      simp
    simp only [Call.pass, hargs, hwords]

section

variable {fs : Flow.State World} (C : Carries sel E N fs s)
  (hsource : ∀ r ∈ rs, ∀ p, r = .physical p → p = .zero)
include C hsource

theorem runs_call {after : Physical → Word}
    (hcall : E.call fs.world (.pass function (rs.map s.get)) fs.memory =
      some (world, memory, after)) :
    ∃ s', Runs (sel.backing E)
        (callPrefix rs ++ [.call function (min rs.length Physical.arguments.length)]) s s' ∧
      Carries sel E N { fs with
        world, memory, trace := .call function (rs.map s.get) :: fs.trace } s' ∧
      s'.get (.physical Physical.result) = after Physical.result := by
  obtain ⟨s1, hrun, hvirtual, hsp, hmemory, hworld, htrace, hpass⟩ :=
    runs_callPrefix (E := E) hsource C.outgoing
  have heffect : (Instr.call function (min rs.length Physical.arguments.length)).effect
      (sel.backing E) s1.store s1.get = .clobber after { s1.store with
        world, memory, outgoing := fun _ => none
        trace := .call (.pass function (rs.map s.get)) :: s.store.trace } := by
    simp only [Instr.effect, Environment.backing, hpass, hworld, hmemory, htrace, C.seen.world,
      C.seen.memory, hcall]
  refine ⟨_, hrun.append (Runs.clobber heffect), ?_, ?_⟩
  · refine C.transfer rfl (fun v => ?_) ?_ ⟨rfl, rfl, ?_⟩ rfl
    · rw [State.get_clobber_virtual]
      exact hvirtual v
    · rw [Register.sp, State.get_clobber_physical, if_neg (by decide)]
      exact hsp
    · simp [observed, C.seen.trace]
  · rw [State.get_clobber_physical, if_pos (by decide)]

theorem hangs_call (hcall : E.call fs.world (.pass function (rs.map s.get)) fs.memory = none) :
    ∃ s', Hangs (sel.backing E)
        (callPrefix rs ++ [.call function (min rs.length Physical.arguments.length)]) s s' ∧
      Seen { fs with trace := .call function (rs.map s.get) :: fs.trace } s'.store := by
  obtain ⟨s1, hrun, -, -, hmemory, hworld, htrace, hpass⟩ :=
    runs_callPrefix (E := E) hsource C.outgoing
  have heffect : (Instr.call function (min rs.length Physical.arguments.length)).effect
      (sel.backing E) s1.store s1.get = .halt .hung { s1.store with
        outgoing := fun _ => none
        trace := .call (.pass function (rs.map s.get)) :: s.store.trace } := by
    simp only [Instr.effect, Environment.backing, hpass, hworld, hmemory, htrace, C.seen.world,
      C.seen.memory, hcall]
  refine ⟨_, (Hangs.halt heffect).prepend hrun, ?_⟩
  exact ⟨hmemory.trans C.seen.memory, hworld.trans C.seen.world, by simp [observed, C.seen.trace]⟩

end

theorem performs_selectCall {d : Option RegisterId} (hn : n.Sound)
    (hcell : ∀ r, d = some r → sel.slot? r = none)
    (h : sel.selectCall d function arguments n = .ok (code, n')) :
    Performs sel E sp n n' (.call d function arguments) code := by
  simp only [Selector.selectCall] at h
  obtain ⟨⟨rs, code1⟩, n1, hos, h⟩ := Select.bind_eq_ok.mp h
  have P : PreparesAll sel E sp n n1 arguments rs code1 := preparesAll_operands hn hos
  rw [noteCall_bind] at h
  generalize hcount : (rs.drop Physical.arguments.length).length = count at h
  have hsound2 := P.sound.noteCall count
  have hgrows2 := n1.grows_noteCall count
  -- what the instruction does, from the values of its arguments
  have hexec : ∀ fs step, (Flow.Instr.call d function arguments).exec (E.flow sp) sel.program
      sel.source fs = step → step ≠ .stuck → ∃ ws, arguments.mapM
        (fs.value? (E.flow sp)) = some ws ∧
        fs.call (E.flow sp) d function ws = step := by
    intro fs step hstep hstuck
    simp only [Flow.Instr.exec] at hstep
    split at hstep
    · exact ⟨_, by assumption, hstep⟩
    · exact absurd hstep.symm hstuck
  have hhung : ∀ N, (n1.noteCall count).Grows N → ∀ fs s fs', Carries sel E N fs s →
      (Flow.Instr.call d function arguments).exec (E.flow sp) sel.program sel.source fs =
        .hung fs' → ∃ s', Hangs (sel.backing E) (code1 ++ (callPrefix rs ++
          [.call function (min rs.length Physical.arguments.length)])) s s' ∧
            Seen fs' s'.store := by
    intro N hN fs s fs' C hstep
    obtain ⟨ws, hws, hfs'⟩ := hexec fs _ hstep (by simp)
    obtain ⟨s1, hrun, hkeeps, rfl⟩ := P.delivers N (hgrows2.trans hN) fs s ws C hws
    cases hcall : E.call fs.world (.pass function (rs.map s1.get)) fs.memory with
    | some answer => simp [Flow.State.call, Environment.flow, hcall] at hfs'
    | none =>
      obtain ⟨s2, hhangs, hseen⟩ := hangs_call (C.keeps hkeeps) P.source hcall
      obtain rfl : { fs with trace := .call function (rs.map s1.get) :: fs.trace } = fs' := by
        simpa [Flow.State.call, Environment.flow, hcall] using hfs'
      exact ⟨s2, hhangs.prepend hrun, hseen⟩
  have hnext : ∀ N, (n1.noteCall count).Grows N → ∀ fs s fs', Carries sel E N fs s →
      (Flow.Instr.call d function arguments).exec (E.flow sp) sel.program sel.source fs =
        .next fs' → ∃ fs1 s1, Runs (sel.backing E) (code1 ++ (callPrefix rs ++
          [.call function (min rs.length Physical.arguments.length)])) s s1 ∧
          Carries sel E N fs1 s1 ∧
            fs' = d.elim fs1 fun r => fs1.assign r (s1.get (.physical Physical.result)) := by
    intro N hN fs s fs' C hstep
    obtain ⟨ws, hws, hfs'⟩ := hexec fs _ hstep (by simp)
    obtain ⟨s1, hrun, hkeeps, rfl⟩ := P.delivers N (hgrows2.trans hN) fs s ws C hws
    cases hcall : E.call fs.world (.pass function (rs.map s1.get)) fs.memory with
    | none => simp [Flow.State.call, Environment.flow, hcall] at hfs'
    | some answer =>
      obtain ⟨world, memory, after⟩ := answer
      obtain ⟨s2, hrun2, C2, hresult⟩ := runs_call (C.keeps hkeeps) P.source hcall
      refine ⟨_, s2, hrun.append hrun2, C2, ?_⟩
      rw [hresult]
      simp only [Flow.State.call, Environment.flow, hcall, Option.map_some,
        Flow.Step.next.injEq] at hfs'
      cases d <;> exact hfs'.symm
  cases d with
  | none =>
    obtain ⟨rfl, rfl⟩ := Select.pure_eq_ok.mp h
    refine ⟨hsound2, P.grows.trans hgrows2, ?_, ?_⟩
    · intro N _ hN fs s fs' C hstep
      obtain ⟨fs1, s1, hrun, C1, rfl⟩ := hnext N hN fs s fs' C hstep
      exact ⟨s1, by simpa [callPrefix] using hrun, C1⟩
    · intro N _ hN fs s fs' C hstep
      simpa [callPrefix] using hhung N hN fs s fs' C hstep
  | some r =>
    obtain ⟨rd, hrd, rfl⟩ := Select.bind_pure_eq_ok.mp h
    obtain ⟨hsound3, hgrows3, v, rfl, hv⟩ := valueRegister_eq_ok hsound2 hrd
    have hcode : ∀ (stores moves : List Instr) (call move : Instr),
        code1 ++ stores ++ moves ++ [call, move] =
          (code1 ++ ((stores ++ moves) ++ [call])) ++ [move] := by simp
    rw [hcode]
    refine ⟨hsound3, P.grows.trans (hgrows2.trans hgrows3), ?_, ?_⟩
    · intro N hN hN' fs s fs' C hstep
      obtain ⟨fs1, s1, hrun, C1, rfl⟩ := hnext N (hgrows3.trans hN') fs s fs' C hstep
      exact ⟨_, hrun.append (Runs.write rfl), C1.assign hN (hN'.values r v hv) (hcell r rfl) _⟩
    · intro N _ hN fs s fs' C hstep
      obtain ⟨s', hhangs, hseen⟩ := hhung N (hgrows3.trans hN) fs s fs' C hstep
      exact ⟨s', hhangs.append _, hseen⟩

/-! ## All instructions -/

theorem performs_selectInstr (hn : n.Sound) (hcell : ∀ r, i.assigned? = some r → sel.slot? r = none)
    (h : sel.selectInstr i n = .ok (code, n')) : Performs sel E sp n n' i code := by
  cases i with
  | alloca d ty =>
    obtain ⟨rfl, rfl⟩ := Select.pure_eq_ok.mp h
    refine ⟨hn, .refl n, ?_, fun N _ _ fs s fs' _ hexec =>
      absurd hexec (Flow.Instr.exec_ne_hung (by simp))⟩
    intro N _ _ fs s fs' C hexec
    obtain rfl := Flow.Step.next.inj hexec
    exact ⟨s, Runs.nil, C⟩
  | load d address => exact performs_load hn (hcell d rfl) h
  | store value address => exact performs_store hn h
  | arith op d lhs rhs => exact performs_selectArith hn (hcell d rfl) h
  | compare condition d lhs rhs => exact performs_selectCompare hn (hcell d rfl) h
  | zeroExtend d value =>
    refine performs_unary id .mv hn (hcell d rfl) (by simp) (fun _ _ _ _ => rfl) ?_ h
    intro fs
    cases hvalue : fs.value? (E.flow sp) value <;> simp [Flow.Instr.exec, hvalue]
  | bitCast d value =>
    refine performs_unary id .mv hn (hcell d rfl) (by simp) (fun _ _ _ _ => rfl) ?_ h
    intro fs
    cases hvalue : fs.value? (E.flow sp) value <;> simp [Flow.Instr.exec, hvalue]
  | truncate d value =>
    refine performs_unary (· &&& 1) (.aluImm .andi · · 1) hn (hcell d rfl) (by simp)
      (fun B s rd rs => effect_aluImm B s.store s.get (by decide) rd rs) ?_ h
    intro fs
    cases hvalue : fs.value? (E.flow sp) value <;> simp [Flow.Instr.exec, hvalue]
  | elementAddress d base element index => exact performs_selectElement hn (hcell d rfl) h
  | memberAddress d base struct field => exact performs_selectMember hn (hcell d rfl) h
  | call d function arguments => exact performs_selectCall hn hcell h

end

end MxStar.Machine
