import MxStar.Proofs.Machine.FrameUse
import MxStar.Proofs.Machine.References
import MxStar.Proofs.Machine.SelectionRun
import MxStar.Proofs.Machine.Temporaries

/-!
# What selected code is like

Selection prepares operands in registers, names the register of the result and
puts one instruction behind.  One walk over its steps shows what is needed of the
code it returns, apart from what that code does:

* It needs nothing from before it but the virtual registers of the values that the
  instruction of the graph reads (`Piece.exposed`): everything else it reads it has
  written itself.  Of the physical registers that liveness follows it reads only those
  that carry arguments and results (`Instr.Modest`).
* It uses the frame as it is meant to be used (`CodeFramed`).
* It mentions exactly the labels that the instruction of the graph names, in the same
  order, so no label comes from anywhere else and there are no comments but those that
  are asked for.

A piece of code knows which registers are `ready` to be read behind it, and one more
instruction may be put behind it that reads only those (`Piece.step`).
-/

namespace MxStar.Machine

open MxStar.Flow (Operand RegisterId)

/-- The instruction reads no physical register that does not carry arguments or
results, and names virtual registers and blocks that exist. -/
structure Instr.Modest (virtuals blocks : Nat) (i : Instr) : Prop where
  arguments : ∀ p, .physical p ∈ i.uses → p ∈ Physical.arguments
  below : ∀ v, i.Names v → v.val < virtuals
  targets : ∀ target ∈ i.targets, target.val < blocks

theorem Instr.Modest.mono {virtuals virtuals' blocks blocks' : Nat} {i : Instr}
    (h : i.Modest virtuals blocks) (hvirts : virtuals ≤ virtuals') (hblocks : blocks ≤ blocks') :
    i.Modest virtuals' blocks' where
  arguments := h.arguments
  below := fun v hv => (h.below v hv).trans_le hvirts
  targets := fun target htarget => (h.targets target htarget).trans_le hblocks

/-- The virtual register of one of the registers `used` of the graph. -/
def Named (n : Naming) (used : RegisterId → Prop) (r : Register) : Prop :=
  ∃ q v, used q ∧ n.values[q]? = some v ∧ r = .virtual v

theorem Named.grows {used : RegisterId → Prop} (h : Named n used r) (hgrows : n.Grows n') :
    Named n' used r := by
  obtain ⟨q, v, hq, hv, rfl⟩ := h
  exact ⟨q, v, hq, hgrows.values q v hv, rfl⟩

theorem Named.mono {used used' : RegisterId → Prop} (h : Named n used r)
    (hused : ∀ q, used q → used' q) : Named n used' r := by
  obtain ⟨q, v, hq, hv, rfl⟩ := h
  exact ⟨q, v, hused q hq, hv, rfl⟩

/-- Code that is selected while the names `n` become `n'`, in a function of so many blocks.
It mentions what is `said`. -/
structure Written (u : FrameUse) (blocks : Nat) (n n' : Naming) (said : List Mention)
    (code : List Instr) : Prop where
  sound : n.Sound → n'.Sound
  grows : n.Grows n'
  modest : n.Sound → ∀ i ∈ code, i.Modest n'.virtuals blocks
  framed : n'.Within u → CodeFramed u code
  mentions : Machine.mentions code = said

/-- A register that can be read after a piece of code: liveness does not follow it, the code
has written it, or it is one of the values `used`. -/
def Provided (n : Naming) (used : RegisterId → Prop) (code : List Instr) (r : Register) : Prop :=
  r.isTracked = true →
    (r ∈ code.flatMap Instr.defs ∧ ∀ p, r = .physical p → p ∈ Physical.arguments) ∨ Named n used r

/-- Selected code that reads the values of the registers `used` of the graph.  The registers
`ready` can be read behind it. -/
structure Piece (u : FrameUse) (n n' : Naming) (used : RegisterId → Prop) (said : List Mention)
    (ready : List Register) (code : List Instr) : Prop extends Written u 0 n n' said code where
  plain : ∀ i ∈ code, i.isTerminator = false
  exposed : ∀ r ∈ liveBefore code ∅, Named n' used r
  provided : ∀ r ∈ ready, Provided n' used code r

/-- Selected code that computes the value of a register of the graph, if there is one. -/
structure Defines (u : FrameUse) (n n' : Naming) (used : RegisterId → Prop) (said : List Mention)
    (d : Option RegisterId) (code : List Instr) : Prop extends Piece u n n' used said [] code where
  written : ∀ q, d = some q → ∃ v, n'.values[q]? = some v ∧ .virtual v ∈ code.flatMap Instr.defs

/-- An instruction that may stand where the registers `ready` can be read. -/
structure Instr.Fits (u : FrameUse) (n : Naming) (ready : List Register) (i : Instr) : Prop where
  reads : ∀ r ∈ i.reads, r.isTracked = true → r ∈ ready
  writes : n.Sound → ∀ v, .virtual v ∈ i.writes → v.val < n.virtuals
  framed : n.Within u → i.Framed u

/-- An instruction that computes `rd` from registers that are `ready`. -/
structure Instr.Makes (u : FrameUse) (said : List Mention) (ready : List Register)
    (rd : Register) (i : Instr) : Prop where
  plain : i.isTerminator = false
  mentions : i.mentions = said
  reads : ∀ r ∈ i.reads, r.isTracked = true → r ∈ ready
  writes : i.writes = [rd]
  framed : i.Framed u

/-- The registers of the graph, cells apart, among operands. -/
def Selector.Reads (sel : Selector) (os : List Operand) (q : RegisterId) : Prop :=
  .register q ∈ os ∧ sel.slot? q = none

@[simp]
theorem Register.isTracked_virtual (v : VirtualId) : (Register.virtual v).isTracked = true := rfl

@[simp]
theorem Register.isTracked_zero : Register.zero.isTracked = false := rfl

@[simp]
theorem Register.isTracked_sp : Register.sp.isTracked = false := rfl

theorem Physical.isAllocatable_of_mem_arguments (h : p ∈ Physical.arguments) :
    p.isAllocatable = true := by
  have hall : ∀ p ∈ Physical.arguments, p.isAllocatable = true := by decide
  exact hall p h

section

variable {u : FrameUse} {blocks : Nat} {n n1 n' : Naming} {used : RegisterId → Prop}
  {said said' : List Mention} {ready : List Register} {code more : List Instr} {i : Instr}
  {r : Register} {v : VirtualId}

namespace Written

theorem later (W : Written u blocks n n1 said code) (hsound : n1.Sound → n'.Sound)
    (hgrows : n1.Grows n') : Written u blocks n n' said code where
  sound := hsound ∘ W.sound
  grows := W.grows.trans hgrows
  modest := fun hn i hi => (W.modest hn i hi).mono hgrows.virtuals le_rfl
  framed := fun h => W.framed (h.of_grows hgrows)
  mentions := W.mentions

theorem mono (W : Written u 0 n n' said code) : Written u blocks n n' said code :=
  { W with modest := fun hn i hi => (W.modest hn i hi).mono le_rfl (Nat.zero_le _) }

theorem nil (n : Naming) : Written u blocks n n [] [] :=
  ⟨id, .refl n, by simp, by simp [CodeFramed], rfl⟩

theorem append (W : Written u blocks n n1 said code) (V : Written u blocks n1 n' said' more) :
    Written u blocks n n' (said ++ said') (code ++ more) where
  sound := V.sound ∘ W.sound
  grows := W.grows.trans V.grows
  modest := fun hn => List.forall_mem_append.mpr
    ⟨(W.later V.sound V.grows).modest hn, V.modest (W.sound hn)⟩
  framed := fun h => List.forall_mem_append.mpr ⟨W.framed (h.of_grows V.grows), V.framed h⟩
  mentions := by rw [mentions_append, W.mentions, V.mentions]

end Written

namespace Provided

theorem append_right (h : Provided n used code r) (more : List Instr) :
    Provided n used (code ++ more) r := fun htracked =>
  (h htracked).imp_left (.imp_left fun hr => by
    rw [List.flatMap_append]
    exact List.mem_append_left _ hr)

theorem of_mem_writes (h : r ∈ i.writes) (hr : ∀ p, r = .physical p → p ∈ Physical.arguments) :
    Provided n used (code ++ [i]) r := by
  intro htracked
  refine Or.inl ⟨?_, hr⟩
  simp [Instr.mem_defs, h, htracked]

end Provided

namespace Piece

theorem nil (n : Naming) : Piece u n n used [] [] [] :=
  ⟨Written.nil n, by simp, by simp [liveBefore], by simp⟩

theorem later (P : Piece u n n1 used said ready code) (hsound : n1.Sound → n'.Sound)
    (hgrows : n1.Grows n') : Piece u n n' used said ready code where
  toWritten := P.toWritten.later hsound hgrows
  plain := P.plain
  exposed := fun r hr => (P.exposed r hr).grows hgrows
  provided := fun r hr htracked => (P.provided r hr htracked).imp_right (·.grows hgrows)

section

variable (P : Piece u n n' used said ready code)
include P

theorem fresh : Piece u n { n' with virtuals := n'.virtuals + 1 } used said ready code :=
  P.later (·.fresh) n'.grows_fresh

theorem cons (h : Provided n' used code r) : Piece u n n' used said (r :: ready) code :=
  { P with provided := List.forall_mem_cons.mpr ⟨h, P.provided⟩ }

theorem only (ready' : List Register) (h : ∀ r ∈ ready', r ∈ ready) :
    Piece u n n' used said ready' code :=
  { P with provided := fun r hr => P.provided r (h r hr) }

end

theorem extend (P : Piece u n n1 used said ready code) (W : Written u 0 n1 n' said' more)
    (hplain : ∀ i ∈ more, i.isTerminator = false)
    (hexposed : ∀ r ∈ liveBefore more ∅, r ∈ code.flatMap Instr.defs ∨ Named n' used r) :
    Piece u n n' used (said ++ said') ready (code ++ more) where
  toWritten := P.toWritten.append W
  plain := List.forall_mem_append.mpr ⟨P.plain, hplain⟩
  exposed := by
    intro r hr
    rw [liveBefore_append, mem_liveBefore_iff] at hr
    rcases hr with hr | ⟨hr, hdefs⟩
    · exact (P.exposed r hr).grows W.grows
    · exact (hexposed r hr).resolve_left hdefs
  provided := fun r hr => ((P.later W.sound W.grows).provided r hr).append_right more

theorem append (P : Piece u n n1 used said ready code) (Q : Piece u n1 n' used said' ready' more) :
    Piece u n n' used (said ++ said') ready (code ++ more) :=
  P.extend Q.toWritten Q.plain fun r hr => Or.inr (Q.exposed r hr)

section

variable (P : Piece u n n' used said ready code)
include P

section

variable (hi : i.Fits u n' ready)
include hi

theorem uses : ∀ r ∈ i.uses,
      (r ∈ code.flatMap Instr.defs ∧ ∀ p, r = .physical p → p ∈ Physical.arguments) ∨
        Named n' used r := by
  intro r hr
  obtain ⟨hread, htracked⟩ := Instr.mem_uses.mp hr
  exact P.provided r (hi.reads r hread htracked) htracked

theorem modest_of_fits (htargets : ∀ target ∈ i.targets, target.val < blocks) (hn : n.Sound) :
    i.Modest n'.virtuals blocks where
  arguments := by
    intro p hp
    rcases P.uses hi _ hp with ⟨-, h⟩ | ⟨q, v, -, -, h⟩
    · exact h p rfl
    · cases h
  below := by
    rintro v (hv | hv)
    · rcases P.uses hi _ (Instr.mem_uses.mpr ⟨hv, rfl⟩) with ⟨h, -⟩ | ⟨q, w, -, hw, h⟩
      · obtain ⟨j, hj, hdefs⟩ := List.mem_flatMap.mp h
        exact (P.modest hn j hj).below v (Or.inr (Instr.mem_defs.mp hdefs).1)
      · obtain rfl := Register.virtual.inj h
        exact (P.sound hn).lt q v hw
    · exact hi.writes (P.sound hn) v hv
  targets := htargets

theorem written_of_fits (htargets : ∀ target ∈ i.targets, target.val < blocks) :
    Written u blocks n n' (said ++ i.mentions) (code ++ [i]) where
  sound := P.sound
  grows := P.grows
  modest := fun hn => List.forall_mem_append.mpr ⟨P.toWritten.mono.modest hn, by
    simpa using P.modest_of_fits hi htargets hn⟩
  framed := fun h => List.forall_mem_append.mpr ⟨P.framed h, by simpa using hi.framed h⟩
  mentions := by simp [P.mentions]

theorem exposed_of_fits : ∀ r ∈ liveBefore (code ++ [i]) ∅, Named n' used r := by
  intro r hr
  rw [liveBefore_append, mem_liveBefore_iff] at hr
  rcases hr with hr | ⟨hr, hdefs⟩
  · exact P.exposed r hr
  · refine (P.uses hi r ?_).resolve_left fun h => hdefs h.1
    simpa [liveBefore, Instr.mem_liveBefore] using hr

end

theorem step (hplain : i.isTerminator = false) (hi : i.Fits u n' ready) :
    Piece u n n' used (said ++ i.mentions) ready (code ++ [i]) where
  toWritten := P.written_of_fits hi (by
    cases i <;> simp [Instr.targets, Instr.isTerminator] at hplain ⊢)
  plain := List.forall_mem_append.mpr ⟨P.plain, by simpa using hplain⟩
  exposed := P.exposed_of_fits hi
  provided := fun r hr => (P.provided r hr).append_right [i]

theorem put (hi : i.Makes u said' ready (.virtual v)) (hv : n'.Sound → v.val < n'.virtuals) :
    Piece u n n' used (said ++ said') (.virtual v :: ready) (code ++ [i]) := by
  have hfits : i.Fits u n' ready := by
    refine ⟨hi.reads, fun hn w hw => ?_, fun _ => hi.framed⟩
    rw [hi.writes, List.mem_singleton] at hw
    obtain rfl := Register.virtual.inj hw
    exact hv hn
  rw [← hi.mentions]
  exact (P.step hi.plain hfits).cons (.of_mem_writes (by simp [hi.writes]) (by simp))

theorem putNew (hi : i.Makes u said' ready (.virtual ⟨n'.virtuals⟩)) :
    Piece u n { n' with virtuals := n'.virtuals + 1 } used (said ++ said')
      (.virtual ⟨n'.virtuals⟩ :: ready) (code ++ [i]) :=
  P.fresh.put hi fun _ => Nat.lt_succ_self _

theorem temporary (hi : i.Makes u [] ready (.virtual ⟨n'.virtuals⟩)) :
    Piece u n { n' with virtuals := n'.virtuals + 1 } used said
      (.virtual ⟨n'.virtuals⟩ :: ready) (code ++ [i]) := by
  simpa using P.putNew hi

end

theorem value (P : Piece u n n1 used said ready code) (hq : used q)
    (h : valueRegister q n1 = .ok (r, n')) : Piece u n n' used said (r :: ready) code := by
  obtain ⟨hsound, hgrows, v, rfl, hv⟩ := exists_of_valueRegister h
  exact (P.later hsound hgrows).cons fun _ => Or.inr ⟨q, v, hq, hv, rfl⟩

theorem target (P : Piece u n n1 used said ready code) (h : valueRegister d n1 = .ok (r, n')) :
    Piece u n n' used said ready code ∧ ∃ v, r = .virtual v ∧ n'.values[d]? = some v := by
  obtain ⟨hsound, hgrows, hv⟩ := exists_of_valueRegister h
  exact ⟨P.later hsound hgrows, hv⟩

theorem defines_none (P : Piece u n n' used said ready code) : Defines u n n' used said none code :=
  ⟨P.only [] (by simp), by simp⟩

theorem define (P : Piece u n n' used said ready code) (hv : n'.values[d]? = some v)
    (hi : i.Makes u [] ready (.virtual v)) :
    Defines u n n' used said (some d) (code ++ [i]) where
  toPiece := by simpa using (P.put hi fun hn => hn.lt d v hv).only [] (by simp)
  written := by
    rintro q hq
    cases hq
    exact ⟨v, hv, by simp [Instr.mem_defs, hi.writes]⟩

theorem finish (P : Piece u n n1 used said ready code) (final : Register → Instr)
    (hfinal : ∀ v, (final (.virtual v)).Makes u [] ready (.virtual v)) (h : (do
      let rd ← valueRegister d
      return code ++ [final rd] : Select (List Instr)) n1 = .ok (more, n')) :
    Defines u n n' used said (some d) more := by
  obtain ⟨rd, hrd, rfl⟩ := Select.bind_pure_eq_ok.mp h
  obtain ⟨Q, v, rfl, hv⟩ := P.target hrd
  exact Q.define hv (hfinal v)

end Piece

end

/-! ## Operands -/

attribute [local simp] Instr.reads Instr.writes Instr.operands

section

variable {u : FrameUse} {sel : Selector} (hslots : sel.source.cells.size ≤ u.slots) {n n1 : Naming}
  {os : List Operand} {said : List Mention} {ready : List Register} {code : List Instr}
include hslots

variable (P : Piece u n n1 (sel.Reads os) said ready code)
include P

theorem Piece.operand (ho : o ∈ os) (h : sel.operand o n1 = .ok ((r, more), n')) :
    Piece u n n' (sel.Reads os) (said ++ o.references.map .label) (r :: ready) (code ++ more) := by
  cases o with
  | register q =>
    simp only [Selector.operand] at h
    cases hslot : sel.slot? q with
    | some slot =>
      simp only [hslot, fresh_bind] at h
      obtain ⟨⟨rfl, rfl⟩, rfl⟩ := Select.pure_pair_eq_ok.mp h
      exact P.putNew ⟨rfl, rfl, by simp, rfl, rfl, (Selector.lt_of_slot? hslot).trans_le hslots⟩
    | none =>
      simp only [hslot] at h
      obtain ⟨rd, hvalue, ⟨⟩⟩ := Select.bind_pure_eq_ok.mp h
      simpa [Operand.references] using P.value ⟨ho, hslot⟩ hvalue
  | constant c =>
    simp only [Selector.operand] at h
    split at h
    · obtain ⟨⟨rfl, rfl⟩, rfl⟩ := Select.pure_pair_eq_ok.mp h
      simpa [Operand.references] using P.cons (r := .zero) (by simp [Provided])
    · rw [fresh_bind] at h
      obtain ⟨⟨rfl, rfl⟩, rfl⟩ := Select.pure_pair_eq_ok.mp h
      exact P.putNew ⟨rfl, rfl, by simp, rfl, rfl⟩
  | global name | string id =>
    simp only [Selector.operand, fresh_bind] at h
    obtain ⟨⟨rfl, rfl⟩, rfl⟩ := Select.pure_pair_eq_ok.mp h
    exact P.putNew ⟨rfl, rfl, by simp, rfl, rfl⟩

/-- **An address is prepared** behind other code: memory is reached through an object of the
frame or through a pointer. -/
theorem Piece.address (ho : o ∈ os)
    (hsuits : ∀ q slot, o = .register q → sel.slot? q = some slot → u.suits slot width)
    (h : sel.address o n1 = .ok ((base, offset, more), n')) :
    Piece u n n' (sel.Reads os) (said ++ o.references.map .label) (base :: ready) (code ++ more) ∧
      ∀ access, offset.Within u base access width := by
  cases o with
  | register q =>
    simp only [Selector.address] at h
    cases hslot : sel.slot? q with
    | some slot =>
      simp only [hslot] at h
      obtain ⟨⟨rfl, rfl, rfl⟩, rfl⟩ := Select.pure_triple_eq_ok.mp h
      refine ⟨?_, fun _ => ⟨rfl, (Selector.lt_of_slot? hslot).trans_le hslots, ?_⟩⟩
      · simpa [Operand.references] using P.cons (r := .sp) (by simp [Provided])
      · exact hsuits q slot rfl hslot
    | none =>
      simp only [hslot] at h
      obtain ⟨rd, hvalue, ⟨⟩⟩ := Select.bind_pure_eq_ok.mp h
      have hq : sel.Reads os q := ⟨ho, hslot⟩
      exact ⟨by simpa [Operand.references] using P.value hq hvalue, fun _ => trivial⟩
  | constant c | global name | string id =>
    simp only [Selector.address] at h
    obtain ⟨⟨r, c⟩, hoperand, ⟨⟩⟩ := Select.bind_pure_eq_ok.mp h
    exact ⟨P.operand hslots ho hoperand, fun _ => trivial⟩

theorem Piece.operands (hrest : ∀ o ∈ rest, o ∈ os)
    (h : sel.operands rest n1 = .ok ((rs, more), n')) :
    Piece u n n' (sel.Reads os) (said ++ (rest.flatMap Operand.references).map .label)
      (rs ++ ready) (code ++ more) := by
  induction rest generalizing code n1 rs more said ready with
  | nil =>
    obtain ⟨⟨rfl, rfl⟩, rfl⟩ := Select.pure_pair_eq_ok.mp h
    simpa using P
  | cons o rest ih =>
    simp only [Selector.operands] at h
    obtain ⟨⟨r, code1⟩, n2, ho, ⟨rs', code2⟩, hos, ⟨⟩⟩ := Select.bind2_pure_eq_ok.mp h
    have Q := ih (P.operand hslots (hrest o (.head _)) ho) (fun o ho => hrest o (.tail _ ho)) hos
    simpa using Q.only (r :: (rs' ++ ready)) (by simp +contextual [or_imp])

end

/-! ## Instructions -/

section

variable {u : FrameUse} {n n1 n' : Naming} {used : RegisterId → Prop} {said : List Mention}
  {ready : List Register} {code more : List Instr} {d : RegisterId} {v : VirtualId}

section

variable (P : Piece u n n1 used said ready code) (hv : n1.values[d]? = some v)
include P hv

theorem Piece.addOffset (hbase : base ∈ ready)
    (h : addOffset (.virtual v) base offset n1 = .ok (more, n')) :
    Defines u n n' used said (some d) (code ++ more) := by
  simp only [Machine.addOffset] at h
  split at h
  · rename_i hfits
    obtain ⟨rfl, rfl⟩ := Select.pure_eq_ok.mp h
    exact P.define hv ⟨rfl, rfl, by simp [hbase], rfl, rfl, hfits⟩
  · rw [fresh_bind] at h
    obtain ⟨rfl, rfl⟩ := Select.pure_eq_ok.mp h
    have Q := P.temporary (i := .li (.virtual ⟨n1.virtuals⟩) offset) ⟨rfl, rfl, by simp, rfl, rfl⟩
    rw [List.append_cons]
    exact Q.define hv ⟨rfl, rfl, by simp [hbase], rfl, rfl⟩

variable (ha : a ∈ ready) (hb : b ∈ ready)
include ha hb

theorem Piece.selectEquality (h : selectEquality isEqual (.virtual v) a b n1 = .ok (more, n')) :
    Defines u n n' used said (some d) (code ++ more) := by
  -- the difference is tested in one of two ways
  have htest : ∀ {n2 : Naming} {c : List Instr} {ready : List Register} {difference : Register},
      Piece u n n2 used said ready (code ++ c) → difference ∈ ready → n2.values[d]? = some v →
      Defines u n n2 used said (some d) (code ++ (c ++ [if isEqual
        then .aluImm .sltiu (.virtual v) difference 1
        else .alu .sltu (.virtual v) .zero difference])) := by
    intro n2 c ready difference Q hdifference hv
    rw [← List.append_assoc]
    cases isEqual with
    | true => exact Q.define hv ⟨rfl, rfl, by simp [hdifference], rfl, rfl, by decide⟩
    | false => exact Q.define hv ⟨rfl, rfl, by simp [hdifference], rfl, rfl⟩
  simp only [Machine.selectEquality] at h
  split at h
  · obtain ⟨rfl, rfl⟩ := Select.pure_eq_ok.mp h
    exact htest (by simpa using P) ha hv
  · rw [fresh_bind, pure_bind] at h
    obtain ⟨rfl, rfl⟩ := Select.pure_eq_ok.mp h
    exact htest (P.temporary ⟨rfl, rfl, by simp [ha, hb], rfl, rfl⟩) (.head _) hv

theorem Piece.selectCondition (h : selectCondition condition (.virtual v) a b n1 = .ok (more, n')) :
    Defines u n n' used said (some d) (code ++ more) := by
  -- a comparison and its negation
  have hnegated : ∀ {x y : Register}, x ∈ ready → y ∈ ready →
      Defines u n { n1 with virtuals := n1.virtuals + 1 } used said (some d) (code ++
        [.alu .slt (.virtual ⟨n1.virtuals⟩) x y,
          .aluImm .xori (.virtual v) (.virtual ⟨n1.virtuals⟩) 1]) := by
    intro x y hx hy
    rw [List.append_cons]
    have Q := P.temporary (i := .alu .slt (.virtual ⟨n1.virtuals⟩) x y)
      ⟨rfl, rfl, by simp [hx, hy], rfl, rfl⟩
    exact Q.define hv ⟨rfl, rfl, by simp, rfl, rfl, by decide⟩
  simp only [Machine.selectCondition] at h
  cases condition with
  | slt | sgt =>
    obtain ⟨rfl, rfl⟩ := Select.pure_eq_ok.mp h
    exact P.define hv ⟨rfl, rfl, by simp [ha, hb], rfl, rfl⟩
  | sle =>
    obtain ⟨rfl, rfl⟩ := Select.pure_eq_ok.mp h
    exact hnegated hb ha
  | sge =>
    obtain ⟨rfl, rfl⟩ := Select.pure_eq_ok.mp h
    exact hnegated ha hb
  | eq | ne => exact P.selectEquality hv ha hb h

end

theorem Piece.scale (P : Piece u n n1 used said ready code) (hindex : index ∈ ready) {ty : Flow.Ty}
    (h : scale index ty.size n1 = .ok ((r, more), n')) :
    Piece u n n' used said (r :: ready) (code ++ more) := by
  simp only [Machine.scale] at h
  split at h
  · obtain ⟨⟨rfl, rfl⟩, rfl⟩ := Select.pure_pair_eq_ok.mp h
    simpa using P.cons (P.provided index hindex)
  · split at h
    · rw [fresh_bind] at h
      obtain ⟨⟨rfl, rfl⟩, rfl⟩ := Select.pure_pair_eq_ok.mp h
      refine P.temporary ⟨rfl, rfl, by simp [hindex], rfl, rfl, ?_⟩
      rcases ty.size_eq with hsize | hsize | hsize <;> rw [hsize] <;> decide
    · simp only [fresh_bind] at h
      obtain ⟨⟨rfl, rfl⟩, rfl⟩ := Select.pure_pair_eq_ok.mp h
      have Q := P.temporary (i := .li (.virtual ⟨n1.virtuals⟩) (BitVec.ofNat 32 ty.size))
        ⟨rfl, rfl, by simp, rfl, rfl⟩
      have R := Q.temporary (i := .alu .mul (.virtual ⟨n1.virtuals + 1⟩) index
        (.virtual ⟨n1.virtuals⟩)) ⟨rfl, rfl, by simp [hindex], rfl, rfl⟩
      rw [List.append_cons]
      exact R.only _ (by simp +contextual)

variable (P : Piece u n n' used said ready code)
include P

theorem Piece.steps (more : List Instr)
    (hmore : ∀ i ∈ more, i.isTerminator = false ∧ i.mentions = [] ∧ i.Fits u n' ready) :
    Piece u n n' used said ready (code ++ more) := by
  induction more generalizing code with
  | nil => simpa using P
  | cons i rest ih =>
    obtain ⟨⟨hplain, hsilent, hi⟩, hrest⟩ := List.forall_mem_cons.mp hmore
    rw [List.append_cons]
    exact ih (by simpa [hsilent] using P.step hplain hi) hrest

theorem Piece.passWords {values : List Register} (hvalues : ∀ r ∈ values, r ∈ ready)
    (hcount : values.length ≤ n'.outgoing) :
    Piece u n n' used said ready (code ++ values.zipIdx.map
      fun (r, i) => .store .word r .sp (.outgoing i)) := by
  refine P.steps _ fun i hi => ?_
  obtain ⟨⟨q, k⟩, hq, rfl⟩ := List.mem_map.mp hi
  obtain ⟨hk, -⟩ := List.getElem?_eq_some_iff.mp (List.mem_zipIdx_iff_getElem?.mp hq)
  refine ⟨rfl, rfl, ?_, by simp, fun h => ?_⟩
  · simp [hvalues q (List.fst_mem_of_mem_zipIdx hq)]
  · exact ⟨rfl, rfl, hk.trans_le (hcount.trans h.outgoing)⟩

theorem Piece.passRegisters (values : List Register) (hvalues : ∀ r ∈ values, r ∈ ready) :
    Piece u n n' used said
      ((Physical.arguments.take (min values.length Physical.arguments.length)).map .physical)
      (code ++ List.zipWith (fun a r => .mv (.physical a) r) Physical.arguments values) := by
  have Q := P.steps (List.zipWith (fun a r => .mv (.physical a) r) Physical.arguments values)
    fun i hi => by
      rw [← List.map_uncurry_zip_eq_zipWith] at hi
      obtain ⟨⟨a, r⟩, hp, rfl⟩ := List.mem_map.mp hi
      obtain ⟨ha, hr⟩ := List.of_mem_zip hp
      refine ⟨rfl, rfl, ?_, by simp, fun _ => ?_⟩
      · simp [hvalues r hr]
      · exact Physical.isAllocatable_of_mem_arguments ha
  refine { Q with provided := fun r hr _ => Or.inl ?_ }
  obtain ⟨p, hp, rfl⟩ := List.mem_map.mp hr
  obtain ⟨k, hk⟩ := List.mem_iff_getElem?.mp hp
  rw [List.getElem?_take] at hk
  split at hk
  · rename_i hlt
    have hmem := List.mem_of_getElem? hk
    obtain ⟨r, hr⟩ : ∃ r, values[k]? = some r := ⟨_, List.getElem?_eq_getElem (by omega)⟩
    refine ⟨?_, fun q hq => Register.physical.inj hq ▸ hmem⟩
    rw [List.flatMap_append]
    refine List.mem_append_right _ (List.mem_flatMap.mpr ⟨.mv (.physical p) r, ?_, ?_⟩)
    · refine List.mem_of_getElem? (i := k) ?_
      simp [List.getElem?_zipWith, hk, hr]
    · simpa [Instr.mem_defs, Register.isTracked] using Physical.isAllocatable_of_mem_arguments hmem
  · simp at hk

end

theorem Piece.compute {used : RegisterId → Prop} {result : List Instr}
    (P : Piece u n n1 used said ready code) {rest : Register → Select (List Instr)}
    (hrest : ∀ {n2 n' v more}, Piece u n n2 used said ready code → n2.values[d]? = some v →
      rest (.virtual v) n2 = .ok (more, n') → Defines u n n' used said (some d) (code ++ more))
    (h : (do
      let rd ← valueRegister d
      return code ++ (← rest rd) : Select (List Instr)) n1 = .ok (result, n')) :
    Defines u n n' used said (some d) result := by
  obtain ⟨rd, n2, hrd, more, hmore, rfl⟩ := Select.bind2_pure_eq_ok.mp h
  obtain ⟨Q, v, rfl, hv⟩ := P.target hrd
  exact hrest Q hv hmore

section

variable {u : FrameUse} {sel : Selector} (hslots : sel.source.cells.size ≤ u.slots)
  {n n' : Naming} {code : List Instr} {d : RegisterId}
include hslots

theorem piece_first (os : List Operand) (h : sel.operand o n = .ok ((r, code), n')) :
    Piece u n n' (sel.Reads (o :: os)) (o.references.map .label) [r] code :=
  (Piece.nil n).operand hslots (.head _) h

theorem defines_selectArith (h : sel.selectArith op d lhs rhs n = .ok (code, n')) :
    Defines u n n' (sel.Reads [lhs, rhs]) (([lhs, rhs].flatMap Operand.references).map .label)
      (some d) code := by
  simp only [Selector.selectArith] at h
  obtain ⟨⟨rs1, code1⟩, n1, hlhs, h⟩ := Select.bind_eq_ok.mp h
  have P1 := piece_first hslots [rhs] hlhs
  cases himmediate : immediate? op rhs with
  | some p =>
    simp only [himmediate] at h
    obtain ⟨c, hconstant, hencodes, -⟩ := immediate?_eq_some himmediate
    simpa [hconstant, Operand.references] using
      P1.finish (.aluImm p.1 · rs1 p.2) (fun _ => ⟨rfl, rfl, by simp, rfl, rfl, hencodes⟩) h
  | none =>
    simp only [himmediate] at h
    obtain ⟨⟨rs2, code2⟩, n2, hrhs, h⟩ := Select.bind_eq_ok.mp h
    simpa using (P1.operand hslots (by simp) hrhs).finish (.alu (aluOp op) · rs1 rs2)
      (fun _ => ⟨rfl, rfl, by simp, rfl, rfl⟩) h

theorem defines_selectCompare (h : sel.selectCompare condition d lhs rhs n = .ok (code, n')) :
    Defines u n n' (sel.Reads [lhs, rhs]) (([lhs, rhs].flatMap Operand.references).map .label)
      (some d) code := by
  simp only [Selector.selectCompare] at h
  obtain ⟨⟨a, code1⟩, n1, hlhs, ⟨b, code2⟩, n2, hrhs, h⟩ := Select.bind2_eq_ok.mp h
  have P2 := (piece_first hslots [rhs] hlhs).operand hslots (by simp) hrhs
  simpa using P2.compute (fun Q hv => Q.selectCondition hv (by simp) (by simp)) h

theorem defines_selectElement {base : Operand} {element : Flow.Ty}
    (h : sel.selectElement d base element index n = .ok (code, n')) :
    Defines u n n' (sel.Reads [base, index]) (([base, index].flatMap Operand.references).map .label)
      (some d) code := by
  simp only [Selector.selectElement] at h
  obtain ⟨⟨b, code1⟩, n1, hbase, h⟩ := Select.bind_eq_ok.mp h
  have P1 := piece_first hslots [index] hbase
  cases index with
  | constant c =>
    simpa [Operand.references] using P1.compute (fun Q hv => Q.addOffset hv (by simp)) h
  | register _ | global _ | string _ =>
    obtain ⟨⟨i, code2⟩, n2, hindex, ⟨scaled, code3⟩, n3, hscale, h⟩ := Select.bind2_eq_ok.mp h
    have P3 := (P1.operand hslots (by simp) hindex).scale (by simp) hscale
    simpa using P3.finish (.alu .add · b scaled) (fun _ => ⟨rfl, rfl, by simp, rfl, rfl⟩) h

theorem defines_selectMember {base : Operand}
    (h : sel.selectMember d base struct field n = .ok (code, n')) :
    Defines u n n' (sel.Reads [base]) (base.references.map .label) (some d) code := by
  simp only [Selector.selectMember] at h
  cases hlayout : sel.program.struct? struct with
  | none => simp only [hlayout] at h; cases h
  | some layout =>
    simp only [hlayout] at h
    cases hmember : layout.members[field]? with
    | none => simp only [hmember] at h; cases h
    | some member =>
      simp only [hmember] at h
      obtain ⟨⟨b, code1⟩, n1, hbase, h⟩ := Select.bind_eq_ok.mp h
      exact (piece_first hslots [] hbase).compute (fun Q hv => Q.addOffset hv (by simp)) h

theorem defines_selectCall {destination : Option RegisterId} {symbol : String}
    {arguments : List Operand}
    (h : sel.selectCall destination symbol arguments n = .ok (code, n')) :
    Defines u n n' (sel.Reads arguments)
      ((arguments.flatMap Operand.references).map .label ++ [.label (.call symbol)])
      destination code := by
  simp only [Selector.selectCall] at h
  obtain ⟨⟨values, code1⟩, n1, hvalues, h⟩ := Select.bind_eq_ok.mp h
  rw [noteCall_bind] at h
  have P1 := (Piece.nil n).operands hslots (fun o ho => ho) hvalues
  have P2 := P1.later (·.noteCall _)
    (n1.grows_noteCall (values.drop Physical.arguments.length).length)
  have P3 := (P2.passWords (fun r hr => by simpa using List.mem_of_mem_drop hr)
    (le_max_right _ _)).passRegisters values (by simp)
  have P4 := (P3.step (i := .call symbol (min values.length Physical.arguments.length)) rfl
    ⟨fun r hr _ => hr, by simp, fun h => h.calls rfl⟩).cons (r := .physical Physical.result)
      (.of_mem_writes (List.mem_map_of_mem (by decide))
        fun p hp => Register.physical.inj hp ▸ by decide)
  cases destination with
  | none =>
    obtain ⟨rfl, rfl⟩ := Select.pure_eq_ok.mp h
    exact P4.defines_none
  | some d =>
    obtain ⟨rd, n3, hrd, h⟩ := Select.bind_eq_ok.mp h
    rw [List.append_cons] at h
    obtain ⟨rfl, rfl⟩ := Select.pure_eq_ok.mp h
    obtain ⟨P5, v, rfl, hv⟩ := P4.target hrd
    exact P5.define hv ⟨rfl, rfl, by simp, rfl, rfl⟩

attribute [local simp] Flow.Instr.references Flow.Instr.operands Flow.Instr.assigned?
  Flow.Instr.destination?

/-- **The code of an instruction** reads the values of its operands, computes the
value of its destination and mentions what the instruction names. -/
theorem defines_selectInstr (hsuits : sel.Suits u.suits i)
    (h : sel.selectInstr i n = .ok (code, n')) :
    Defines u n n' (sel.Reads i.operands) (i.references.map .label) i.assigned? code := by
  -- one operand and one instruction on it
  have hunary : ∀ {d : RegisterId} {o : Operand} (instr : Register → Register → Instr),
      (∀ v rs, (instr (.virtual v) rs).Makes u [] [rs] (.virtual v)) → (do
        let p ← sel.operand o
        let rd ← valueRegister d
        return p.2 ++ [instr rd p.1] : Select (List Instr)) n = .ok (code, n') →
      Defines u n n' (sel.Reads [o]) (o.references.map .label) (some d) code := by
    intro d o instr hinstr h
    obtain ⟨⟨rs, code1⟩, n1, ho, h⟩ := Select.bind_eq_ok.mp h
    exact (piece_first hslots [] ho).finish (instr · rs) (fun v => hinstr v rs) h
  cases i with
  | alloca d ty =>
    obtain ⟨rfl, rfl⟩ := Select.pure_eq_ok.mp h
    exact (Piece.nil n).defines_none
  | load d address =>
    simp only [Selector.selectInstr] at h
    obtain ⟨ty, hty, h⟩ := Select.lift_bind_eq_ok.mp h
    obtain ⟨⟨base, offset, code1⟩, n1, haddr, h⟩ := Select.bind_eq_ok.mp h
    have P0 : Piece u n n (sel.Reads [address]) [] [] [] := Piece.nil n
    obtain ⟨P, hwithin⟩ := P0.address hslots (.head _)
      (fun r slot heq hslot => (hsuits r slot ty hslot).1 d (by rw [heq]) hty) haddr
    simpa using P.finish (.load (.ofSize ty.size) · base offset)
        (fun _ => ⟨rfl, rfl, by simp, rfl, rfl, hwithin .use⟩) h
  | store value address =>
    simp only [Selector.selectInstr] at h
    obtain ⟨ty, hty, h⟩ := Select.lift_bind_eq_ok.mp h
    obtain ⟨⟨rs, code1⟩, n1, hvalue, ⟨base, offset, code2⟩, n2, haddr, h⟩ :=
      Select.bind2_eq_ok.mp h
    obtain ⟨rfl, rfl⟩ := Select.pure_eq_ok.mp h
    obtain ⟨P, hwithin⟩ := (piece_first hslots [address] hvalue).address hslots (by simp)
      (fun r slot heq hslot => (hsuits r slot ty hslot).2 value (by rw [heq]) (heq ▸ hty)) haddr
    simpa [Instr.mentions, Instr.references] using
      (P.step (i := .store (.ofSize ty.size) rs base offset) rfl
        ⟨by simp, by simp, fun _ => hwithin .define⟩).defines_none
  | arith op d lhs rhs => simpa using defines_selectArith hslots h
  | compare condition d lhs rhs => simpa using defines_selectCompare hslots h
  | zeroExtend d value | bitCast d value =>
    simpa using hunary .mv (fun _ _ => ⟨rfl, rfl, by simp, rfl, rfl⟩) h
  | truncate d value =>
    simpa using hunary (fun rd rs => .aluImm .andi rd rs 1)
        (fun _ _ => ⟨rfl, rfl, by simp, rfl, rfl, by decide⟩) h
  | elementAddress d base element index => simpa using defines_selectElement hslots h
  | memberAddress d base struct field => simpa using defines_selectMember hslots h
  | call d function arguments => simpa using defines_selectCall hslots h

end

/-! ## Blocks -/

section

variable {u : FrameUse} {sel : Selector} {n n' : Naming} {code : List Instr}

variable {listing : Except Error String}

theorem piece_comment (u : FrameUse) (n : Naming) (used : RegisterId → Prop)
    (h : sel.comment listing = .ok code) :
    Piece u n n used (mentions code) [] code ∧ ∀ x ∈ mentions code, ∃ text, listing = .ok text ∧
      x = .comment (Text.withoutControls text) := by
  simp only [Selector.comment] at h
  split at h
  · obtain ⟨text, htext, rfl⟩ := Except.bind_pure_eq_ok.mp h
    refine ⟨(Piece.nil n).step (i := .comment _) rfl ⟨by simp, by simp, fun _ => trivial⟩, ?_⟩
    simp [Instr.mentions, htext]
  · cases h
    exact ⟨Piece.nil n, by simp⟩

/-- The code at the end of a block, which reads the values of the terminator's
operands.  Its last instruction goes to the places of the successors. -/
structure Ends (u : FrameUse) (sel : Selector) (n n' : Naming) (t : Flow.Terminator)
    (code : List Instr) : Prop
    extends Written u sel.source.layout.length n n' (mentions code) code where
  exposed : ∀ r ∈ liveBefore code ∅, Named n' (sel.Reads t.operands) r
  targets : ∀ i ∈ code, ∀ target ∈ i.targets, ∃ b ∈ t.successors,
    sel.source.layout[target.val]? = some b
  named : Machine.mentions code = (t.evaluated.flatMap Operand.references).map .label
  last : ∃ body i, code = body ++ [i] ∧ (∀ j ∈ body, j.isTerminator = false) ∧
    i.isTerminator = true ∧ ∀ b ∈ t.successors, ∃ target ∈ i.targets, sel.position b = .ok target

variable {t : Flow.Terminator} {place : BlockId} {id : Flow.BlockId} {b : Flow.Block}

theorem Piece.ends (P : Piece u n n' (sel.Reads t.operands) said ready code)
    (hi : i.Fits u n' ready) (hterm : i.isTerminator = true)
    (hsaid : said ++ i.mentions = (t.evaluated.flatMap Operand.references).map .label)
    (hsuccs : ∀ b ∈ t.successors, ∃ target ∈ i.targets, sel.position b = .ok target)
    (htargets : ∀ target ∈ i.targets, ∃ b ∈ t.successors, sel.position b = .ok target) :
    Ends u sel n n' t (code ++ [i]) := by
  have htargets : ∀ target ∈ i.targets, ∃ b ∈ t.successors,
      sel.source.layout[target.val]? = some b := fun target h => by
    obtain ⟨b, hb, hat⟩ := htargets target h
    exact ⟨b, hb, getElem?_of_position hat⟩
  have W : Written u sel.source.layout.length n n' _ _ := P.written_of_fits hi fun target h => by
    obtain ⟨b, -, hb⟩ := htargets target h
    exact (List.getElem?_eq_some_iff.mp hb).1
  refine ⟨W.mentions ▸ W, P.exposed_of_fits hi, ?_, W.mentions.trans hsaid,
    code, i, rfl, P.plain, hterm, hsuccs⟩
  refine List.forall_mem_append.mpr ⟨fun j hj target htarget => ?_, by simpa using htargets⟩
  have hplain := P.plain j hj
  cases j <;> simp_all [Instr.targets, Instr.isTerminator]

theorem ends_jump {b : Flow.BlockId} (n : Naming) (ht : t.evaluated = [])
    (hb : ∀ c, c ∈ t.successors ↔ c = b) (hplace : sel.position b = .ok place) :
    Ends u sel n n t [.jump place] := by
  refine (Piece.nil n).ends ⟨by simp, by simp, fun _ => trivial⟩ rfl (by simp [ht, Instr.mentions,
    Instr.references]) (fun c hc => ⟨place, by simp [Instr.targets], (hb c).mp hc ▸ hplace⟩)
    fun target htarget => ?_
  obtain rfl := List.mem_singleton.mp htarget
  exact ⟨b, (hb b).mpr rfl, hplace⟩

variable (hslots : sel.source.cells.size ≤ u.slots)
include hslots

/-- **The code of a terminator** reads the values of its operands. -/
theorem ends_selectTerminator (h : sel.selectTerminator t n = .ok (code, n')) :
    Ends u sel n n' t code := by
  cases t with
  | jump destination =>
    simp only [Selector.selectTerminator] at h
    obtain ⟨place, hat, h⟩ := Select.lift_bind_eq_ok.mp h
    obtain ⟨rfl, rfl⟩ := Select.pure_eq_ok.mp h
    exact ends_jump n rfl (by simp [Flow.Terminator.successors]) hat
  | branch condition positive negative =>
    obtain ⟨place, place', hpos, hneg, hcode⟩ := selectBranch_eq_ok h
    rcases hcode with ⟨rfl, rfl, rfl⟩ | ⟨hne, r, code1, ho, rfl⟩
    · exact ends_jump n' (if_pos rfl) (by simp) hpos
    · refine (piece_first hslots [] ho).ends ⟨by simp, by simp, fun _ => trivial⟩ rfl
        (by simp [Flow.Terminator.evaluated, hne, Instr.mentions, Instr.references])
        (fun c hc => ?_) fun target htarget => ?_
      · rcases Flow.Terminator.mem_successors_branch.mp hc with rfl | rfl
        · exact ⟨place, by simp [Instr.targets], hpos⟩
        · exact ⟨place', by simp [Instr.targets], hneg⟩
      · rcases List.mem_pair.mp htarget with rfl | rfl
        · exact ⟨positive, by simp, hpos⟩
        · exact ⟨negative, by simp, hneg⟩
  | ret value =>
    cases value with
    | none =>
      obtain ⟨rfl, rfl⟩ := Select.pure_eq_ok.mp h
      exact (Piece.nil n).ends ⟨by simp, by simp, fun _ => trivial⟩ rfl
        (by simp [Flow.Terminator.evaluated, Flow.Terminator.operands, Instr.mentions,
          Instr.references]) (by simp [Flow.Terminator.successors]) (by simp [Instr.targets])
    | some value =>
      simp only [Selector.selectTerminator] at h
      obtain ⟨⟨r, code1⟩, n1, ho, h⟩ := Select.bind_eq_ok.mp h
      rw [List.append_cons] at h
      obtain ⟨rfl, rfl⟩ := Select.pure_eq_ok.mp h
      have Q := ((piece_first hslots [] ho).step (i := .mv (.physical Physical.result) r) rfl
        ⟨by simp, by simp, fun _ => rfl⟩).cons (r := .physical Physical.result)
          (.of_mem_writes (by simp) fun p hp => Register.physical.inj hp ▸ by decide)
      exact Q.ends ⟨by simp, by simp, fun _ => trivial⟩ rfl
        (by simp [Flow.Terminator.evaluated, Flow.Terminator.operands, Instr.mentions,
          Instr.references]) (by simp [Flow.Terminator.successors]) (by simp [Instr.targets])

/-- **The code of instructions** mentions what they name and what they look like in a listing. -/
theorem written_selectInstrs (hsuits : ∀ i ∈ instrs, sel.Suits u.suits i)
    (h : sel.selectInstrs instrs n = .ok (code, n')) :
    Written u 0 n n' (mentions code) code ∧ (∀ i ∈ code, i.isTerminator = false) ∧
      ∀ x ∈ mentions code, ∃ i ∈ instrs, (∃ r ∈ i.references, x = .label r) ∨
        ∃ text, sel.source.instrListing sel.options.style i = .ok text ∧
          x = .comment (Text.withoutControls text) := by
  induction instrs generalizing n code with
  | nil =>
    obtain ⟨rfl, rfl⟩ := Select.pure_eq_ok.mp h
    exact ⟨.nil n, by simp, by simp⟩
  | cons i rest ih =>
    obtain ⟨comment, code1, code2, n1, hlisting, hi, hrest, rfl⟩ := selectInstrs_cons_eq_ok h
    obtain ⟨C, hshown⟩ := piece_comment u n (sel.Reads i.operands) hlisting
    have D := defines_selectInstr hslots (hsuits i (.head _)) hi
    obtain ⟨W, hplain, hnamed⟩ := ih (fun j hj => hsuits j (.tail _ hj)) hrest
    have V := (C.append D.toPiece).toWritten.append W
    refine ⟨V.mentions ▸ V, List.forall_mem_append.mpr ⟨(C.append D.toPiece).plain, hplain⟩,
      V.mentions ▸ fun x hx => ?_⟩
    rw [List.mem_append, List.mem_append] at hx
    rcases hx with (hx | hx) | hx
    · exact ⟨i, .head _, .inr (hshown x hx)⟩
    · obtain ⟨r, hr, rfl⟩ := List.mem_map.mp hx
      exact ⟨i, .head _, .inl ⟨r, hr, rfl⟩⟩
    · obtain ⟨j, hj, hx⟩ := hnamed x hx
      exact ⟨j, .tail _ hj, hx⟩

omit hslots in
theorem selectBlock_eq_ok (h : sel.selectBlock id b n = .ok ((place, code), n')) :
    ∃ t body comment last n1, b.terminator = some t ∧ sel.position id = .ok place ∧
      sel.selectInstrs b.instrs.toList n = .ok (body, n1) ∧
      sel.comment (sel.source.terminatorListing sel.options.style t) = .ok comment ∧
      sel.selectTerminator t n1 = .ok (last, n') ∧ code = body ++ comment ++ last := by
  simp only [Selector.selectBlock] at h
  obtain ⟨place', hat, h⟩ := Select.lift_bind_eq_ok.mp h
  obtain ⟨body, n1, hinstrs, h⟩ := Select.bind_eq_ok.mp h
  cases hterm : b.terminator with
  | none =>
    simp only [hterm] at h
    cases h
  | some t =>
    simp only [hterm] at h
    obtain ⟨comment, hlisting, h⟩ := Select.lift_bind_eq_ok.mp h
    obtain ⟨last, ht, ⟨⟩⟩ := Select.bind_pure_eq_ok.mp h
    exact ⟨t, body, comment, last, n1, rfl, hat, hinstrs, hlisting, ht, rfl⟩

omit hslots in
/-- What the code of a block may mention: the labels that the block names, and listings of
what the block consists of. -/
def Selector.MentionedIn (sel : Selector) (b : Flow.Block) : Mention → Prop
  | .label r => r ∈ b.references
  | .comment text =>
    (∃ i ∈ b.instrs.toList, ∃ listing, sel.source.instrListing sel.options.style i = .ok listing ∧
          text = Text.withoutControls listing) ∨
      ∃ t ∈ b.terminator, ∃ listing,
        sel.source.terminatorListing sel.options.style t = .ok listing ∧
          text = Text.withoutControls listing

theorem written_selectBlock (hsuits : ∀ i ∈ b.instrs.toList, sel.Suits u.suits i)
    (h : sel.selectBlock id b n = .ok ((place, code), n')) :
    Written u sel.source.layout.length n n' (mentions code) code ∧
      ∀ x ∈ mentions code, sel.MentionedIn b x := by
  obtain ⟨t, body, comment, last, n1, ht, -, hinstrs, hlisting, hlast, rfl⟩ := selectBlock_eq_ok h
  obtain ⟨W, -, hnamed⟩ := written_selectInstrs hslots hsuits hinstrs
  obtain ⟨C, hshown⟩ := piece_comment u n1 (sel.Reads t.operands) hlisting
  have T := ends_selectTerminator hslots hlast
  have V := (W.append C.toWritten).mono.append T.toWritten
  refine ⟨V.mentions ▸ V, V.mentions ▸ fun x hx => ?_⟩
  rw [List.mem_append, List.mem_append] at hx
  rcases hx with (hx | hx) | hx
  · obtain ⟨i, hi, ⟨r, hr, rfl⟩ | ⟨text, htext, rfl⟩⟩ := hnamed x hx
    · exact List.mem_append_left _ (List.mem_flatMap.mpr ⟨i, hi, hr⟩)
    · exact .inl ⟨i, hi, text, htext, rfl⟩
  · obtain ⟨text, htext, rfl⟩ := hshown x hx
    exact .inr ⟨t, ht, text, htext, rfl⟩
  · obtain ⟨r, hr, rfl⟩ := List.mem_map.mp (T.named ▸ hx)
    obtain ⟨o, ho, hr⟩ := List.mem_flatMap.mp hr
    exact List.mem_append_right _ (List.mem_flatMap.mpr ⟨t, by simp [ht],
      List.mem_flatMap.mpr ⟨o, Flow.Terminator.mem_operands_of_mem_evaluated ho, hr⟩⟩)

omit hslots in
theorem references_comment (h : sel.comment listing = .ok code) : references code = [] := by
  simp only [Selector.comment] at h
  split at h
  · obtain ⟨text, -, rfl⟩ := Except.bind_pure_eq_ok.mp h
    rfl
  · cases h
    rfl

omit hslots in
theorem references_selectInstrs (h : sel.selectInstrs instrs n = .ok (code, n')) :
    references code = instrs.flatMap Flow.Instr.references := by
  induction instrs generalizing n code with
  | nil =>
    obtain ⟨rfl, -⟩ := Select.pure_eq_ok.mp h
    rfl
  | cons i rest ih =>
    obtain ⟨comment, code1, code2, n1, hlisting, hi, hrest, rfl⟩ := selectInstrs_cons_eq_ok h
    have D := defines_selectInstr (u := sel.anyUse) le_rfl (sel.suits_anyUse i) hi
    rw [references_append, references_append, references_comment hlisting, ih hrest,
      references_eq_of_mentions D.mentions, List.flatMap_cons, List.nil_append]

omit hslots in
/-- **The code of a block refers to what the block refers to**, in the same order. -/
theorem references_selectBlock (h : sel.selectBlock id b n = .ok ((place, code), n')) :
    references code = b.refersTo := by
  obtain ⟨t, body, comment, last, n1, ht, -, hinstrs, hlisting, hlast, rfl⟩ := selectBlock_eq_ok h
  have T := ends_selectTerminator (u := sel.anyUse) le_rfl hlast
  rw [references_append, references_append, references_selectInstrs hinstrs,
    references_comment hlisting, references_eq_of_mentions T.named]
  simp [Flow.Block.refersTo, ht]

omit hslots in
theorem grows_selectInstrs (h : sel.selectInstrs instrs n = .ok (code, n')) : n.Grows n' :=
  (written_selectInstrs (u := sel.anyUse) le_rfl (fun i _ => sel.suits_anyUse i) h).1.grows

omit hslots in
theorem grows_selectBlock (h : sel.selectBlock id b n = .ok (piece, n')) :
    (n.Sound → n'.Sound) ∧ n.Grows n' :=
  have W := (written_selectBlock (u := sel.anyUse) le_rfl (fun i _ => sel.suits_anyUse i) h).1
  ⟨W.sound, W.grows⟩

end

end MxStar.Machine
