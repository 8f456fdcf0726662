import MxStar.Proofs.Flow.Listed
import MxStar.Proofs.Machine.Comments
import MxStar.Proofs.Machine.SelectedFunctions

/-!
# Selecting code with and without comments

With comments on, the listing of each instruction and terminator stands above the code
selected for it.  Where listings exist, that is the only difference they make: the same
registers are handed out in the same order, and no block ends in a comment.
-/

namespace MxStar.Flow

open Text (Style IsLine)

/-! ## References in range -/

/-- Every pointer in the type has at least one level. -/
def Ty.IsDeep : Ty → Prop
  | .pointer base depth => 0 < depth ∧ base.IsDeep
  | _ => True

theorem Ty.IsDeep.isWritable {ty : Ty} (h : ty.IsDeep) : ty.isWritable = true := by
  fun_induction Ty.isWritable ty with
  | case1 depth => exact decide_eq_true h.1
  | case2 base depth hvoid ih => exact ih h.2
  | case3 => rfl

def Operand.InRange (f : Function) : Operand → Prop
  | .register r => r.val < f.registers.size
  | _ => True

/-- The registers of an instruction exist and the types it names are deep. -/
structure Instr.InRange (f : Function) (i : Instr) : Prop where
  operands : ∀ o ∈ i.operands, o.InRange f
  destination : ∀ r ∈ i.destination?, r.val < f.registers.size
  types : ∀ ty ∈ i.types, ty.IsDeep

structure Terminator.InRange (f : Function) (t : Terminator) : Prop where
  operands : ∀ o ∈ t.operands, o.InRange f
  targets : ∀ id ∈ t.successors, id.val < f.blocks.size

structure Function.InRange (f : Function) : Prop where
  types : ∀ r info, f.registers.get? r = some info → info.ty.IsDeep
  instrs : ∀ id ∈ f.layout, ∀ b ∈ f.blocks.get? id, ∀ i ∈ b.instrs.toList, i.InRange f
  terminators : ∀ id ∈ f.layout, ∀ b ∈ f.blocks.get? id, ∀ t ∈ b.terminator, t.InRange f

structure Function.SingleLine (f : Function) : Prop extends f.OneLine where
  name : IsLine f.name
  instrs : ∀ id ∈ f.layout, ∀ b ∈ f.blocks.get? id, ∀ i ∈ b.instrs.toList, i.OneLine
  terminators : ∀ id ∈ f.layout, ∀ b ∈ f.blocks.get? id, ∀ t ∈ b.terminator,
    ∀ o ∈ t.operands, o.OneLine

instance Ty.decidableIsDeep : DecidablePred Ty.IsDeep
  | .pointer base depth =>
    have := Ty.decidableIsDeep base
    inferInstanceAs (Decidable (0 < depth ∧ base.IsDeep))
  | .int | .bool | .cond | .string | .void | .object _ => isTrue trivial

instance (f : Function) : DecidablePred (Operand.InRange f)
  | .register r => inferInstanceAs (Decidable (r.val < f.registers.size))
  | .constant _ | .global _ | .string _ => isTrue trivial

instance (f : Function) (i : Instr) : Decidable (i.InRange f) :=
  decidable_of_iff ((∀ o ∈ i.operands, o.InRange f) ∧
      (∀ r ∈ i.destination?, r.val < f.registers.size) ∧ ∀ ty ∈ i.types, ty.IsDeep)
    ⟨fun h => ⟨h.1, h.2.1, h.2.2⟩, fun h => ⟨h.operands, h.destination, h.types⟩⟩

instance (f : Function) (t : Terminator) : Decidable (t.InRange f) :=
  decidable_of_iff ((∀ o ∈ t.operands, o.InRange f) ∧ ∀ id ∈ t.successors, id.val < f.blocks.size)
    ⟨fun h => ⟨h.1, h.2⟩, fun h => ⟨h.operands, h.targets⟩⟩

instance (f : Function) : Decidable f.InRange :=
  decidable_of_iff ((∀ r info, f.registers.get? r = some info → info.ty.IsDeep) ∧
      (∀ id ∈ f.layout, ∀ b ∈ f.blocks.get? id, ∀ i ∈ b.instrs.toList, i.InRange f) ∧
      ∀ id ∈ f.layout, ∀ b ∈ f.blocks.get? id, ∀ t ∈ b.terminator, t.InRange f)
    ⟨fun h => ⟨h.1, h.2.1, h.2.2⟩, fun h => ⟨h.types, h.instrs, h.terminators⟩⟩

instance (f : Function) : Decidable f.SingleLine :=
  decidable_of_iff (f.OneLine ∧ IsLine f.name ∧
      (∀ id ∈ f.layout, ∀ b ∈ f.blocks.get? id, ∀ i ∈ b.instrs.toList, i.OneLine) ∧
      ∀ id ∈ f.layout, ∀ b ∈ f.blocks.get? id, ∀ t ∈ b.terminator, ∀ o ∈ t.operands, o.OneLine)
    ⟨fun h => ⟨h.1, h.2.1, h.2.2.1, h.2.2.2⟩,
      fun h => ⟨h.toOneLine, h.name, h.instrs, h.terminators⟩⟩

variable {p : Prop} {f : Function} {id : BlockId} {b : Block}

theorem Operand.InRange.exists_operandType (h : o.InRange f) : ∃ ty, f.operandType o = .ok ty := by
  cases o with
  | register r =>
    obtain ⟨info, hinfo⟩ := Table.exists_get? (show r.val < f.registers.size from h)
    exact ⟨info.ty, Function.registerType_eq_ok.mpr ⟨info, hinfo, rfl⟩⟩
  | _ => exact ⟨_, rfl⟩

theorem Function.InRange.isWritable (h : f.InRange) (r : RegisterId) (ty : Ty)
    (hty : f.registerType r = .ok ty) : ty.isWritable = true := by
  obtain ⟨info, hinfo, rfl⟩ := Function.registerType_eq_ok.mp hty
  exact (h.types r info hinfo).isWritable

variable (h : f.InRange) (hp : p → f.SingleLine) (style : Style)
include h hp style

theorem Function.InRange.lists_instr (hid : id ∈ f.layout) (hb : f.blocks.get? id = some b)
    (hi : i ∈ b.instrs.toList) : Lists p (f.instrListing style i) := by
  have hrange := h.instrs id hid b hb i hi
  refine Flow.lists_instr h.isWritable (fun hp' => (hp hp').toOneLine)
    (fun o ho => (hrange.operands o ho).exists_operandType) (fun d hd => ?_)
    (fun ty hty => (hrange.types ty hty).isWritable) fun hp' => (hp hp').instrs id hid b hb i hi
  exact Operand.InRange.exists_operandType (o := .register d) (hrange.destination d hd)

theorem Function.InRange.lists_terminator (hid : id ∈ f.layout) (hb : f.blocks.get? id = some b)
    (ht : t ∈ b.terminator) : Lists p (f.terminatorListing style t) := by
  have hrange := h.terminators id hid b hb t ht
  exact Flow.lists_terminator h.isWritable (fun hp' => (hp hp').toOneLine)
    (fun o ho => (hrange.operands o ho).exists_operandType)
    (fun c hc => Table.exists_get? (hrange.targets c hc))
    fun hp' => (hp hp').terminators id hid b hb t ht

end MxStar.Flow

namespace MxStar.Machine

open MxStar.Flow (Operand RegisterId)

/-! ## Code of instructions -/

def Selector.quiet (sel : Selector) : Selector :=
  { sel with options := { sel.options with comments := false } }

theorem Except.ok_bind {ε α β : Type} (a : α) (k : α → Except ε β) : (.ok a >>= k) = k a :=
  rfl

theorem Select.lift_ok {α : Type} (a : α) :
    (liftM (Except.ok a : Except Error α) : Select α) = pure a :=
  rfl

variable {code : List Instr} {id : Flow.BlockId} {b : Flow.Block} {source : Flow.Function}
  {program : Flow.Program} {f : Function} {options : Options}

theorem dropComments_of_mentions {refs : List Reference}
    (h : ∀ x ∈ mentions code, x ∈ refs.map Mention.label) : dropComments code = code := by
  refine dropComments_eq_self fun i hi => ?_
  cases i with
  | comment text =>
    have hmem := h (.comment text) (List.mem_flatMap.mpr ⟨_, hi, .head _⟩)
    simp at hmem
  | _ => rfl

namespace Selector

variable {sel : Selector}

theorem operands_quiet (os : List Operand) : sel.quiet.operands os = sel.operands os := by
  induction os with
  | nil => rfl
  | cons o rest ih =>
    rw [Selector.operands, Selector.operands, ih]
    cases o <;> rfl

theorem selectInstr_quiet (i : Flow.Instr) : sel.quiet.selectInstr i = sel.selectInstr i := by
  cases i with
  | call d symbol arguments => simp only [Selector.selectInstr, Selector.selectCall, operands_quiet]
  | _ => rfl

theorem selectTerminator_quiet (t : Flow.Terminator) :
    sel.quiet.selectTerminator t = sel.selectTerminator t := by
  cases t with
  | ret value => cases value <;> rfl
  | _ => rfl

/-! ## Comments between the pieces -/

theorem comment_quiet (listing : Except Error String) : sel.quiet.comment listing = .ok [] := rfl

theorem exists_comment (sel : Selector) {listing : Except Error String}
    (h : ∃ text, listing = .ok text) :
    ∃ comment, sel.comment listing = .ok comment ∧ dropComments comment = [] := by
  obtain ⟨text, rfl⟩ := h
  cases hcomments : sel.options.comments with
  | true => exact ⟨[.comment (Text.withoutControls text)], if_pos hcomments, rfl⟩
  | false => exact ⟨[], if_neg (by simp [hcomments]), rfl⟩

theorem selectInstrs_quiet {is : List Flow.Instr}
    (h : ∀ i ∈ is, ∃ text, sel.source.instrListing sel.options.style i = .ok text) :
    sel.quiet.selectInstrs is = dropComments <$> sel.selectInstrs is := by
  induction is with
  | nil => rfl
  | cons i rest ih =>
    obtain ⟨comment, hcomment, hnone⟩ := exists_comment sel (h i (.head _))
    funext n
    simp only [Selector.selectInstrs, comment_quiet, hcomment, selectInstr_quiet, Select.lift_ok,
      pure_bind, ih fun i hi => h i (.tail _ hi), map_bind, bind_map_left]
    refine Select.bind_congr_ok fun code n' hcode => ?_
    have D := defines_selectInstr (u := sel.anyUse) le_rfl (sel.suits_anyUse i) hcode
    have hkept := dropComments_of_mentions fun x hx => D.mentions ▸ hx
    refine congrFun (bind_congr fun more => ?_) n'
    rw [map_pure, dropComments_append, dropComments_append, hnone, hkept]

theorem selectBlock_quiet
    (h : ∀ i ∈ b.instrs.toList, ∃ text, sel.source.instrListing sel.options.style i = .ok text)
    (ht : ∀ t ∈ b.terminator, ∃ text, sel.source.terminatorListing sel.options.style t = .ok text) :
    sel.quiet.selectBlock id b = (fun piece => (piece.1, dropComments piece.2)) <$>
      sel.selectBlock id b := by
  simp only [Selector.selectBlock, selectInstrs_quiet h, map_bind, bind_map_left]
  refine bind_congr fun place => bind_congr fun code => ?_
  cases hterm : b.terminator with
  | none => rfl
  | some t =>
    obtain ⟨comment, hcomment, hnone⟩ := exists_comment sel (ht t hterm)
    funext n
    simp only [comment_quiet, hcomment, selectTerminator_quiet, Select.lift_ok, pure_bind, map_bind]
    refine Select.bind_congr_ok fun last n' hlast => ?_
    have T := ends_selectTerminator (u := sel.anyUse) le_rfl hlast
    have hkept := dropComments_of_mentions fun x hx => T.named ▸ hx
    rw [map_pure, dropComments_append, dropComments_append, hnone, hkept, List.append_nil]

variable {blocks : List (Flow.BlockId × Flow.Block)}

theorem mapM_selectBlock_quiet
    (h : ∀ q ∈ blocks, sel.quiet.selectBlock q.1 q.2 =
      (fun piece => (piece.1, dropComments piece.2)) <$> sel.selectBlock q.1 q.2) :
    blocks.mapM (fun q => sel.quiet.selectBlock q.1 q.2) =
      List.map (fun piece => (piece.1, dropComments piece.2)) <$>
        blocks.mapM fun q => sel.selectBlock q.1 q.2 := by
  induction blocks with
  | nil => rfl
  | cons q rest ih =>
    rw [List.mapM_cons, List.mapM_cons, h q List.mem_cons_self, ih fun q hq => h q (.tail _ hq)]
    simp only [map_bind, bind_map_left, map_pure, List.map_cons]

theorem dropComments_parameters {ps : List (RegisterId × Nat)} {parameters : List Instr}
    (h : ps.mapM (fun p => Selector.selectParameter p.1 p.2) n = .ok (parameters, n')) :
    dropComments parameters = parameters := by
  refine dropComments_eq_self fun i hi => ?_
  obtain ⟨p, -, hreceives⟩ := (forall₂_parameters h).2.exists_of_mem_right hi
  cases i with
  | comment text => cases hreceives.mentions
  | _ => rfl

theorem selectBlocks_quiet {entry : BlockId}
    (h : ∀ q ∈ blocks, sel.quiet.selectBlock q.1 q.2 =
      (fun piece => (piece.1, dropComments piece.2)) <$> sel.selectBlock q.1 q.2) :
    sel.quiet.selectBlocks entry blocks =
      List.map (fun piece => (piece.1, dropComments piece.2)) <$> sel.selectBlocks
        entry blocks := by
  funext n
  simp only [Selector.selectBlocks, mapM_selectBlock_quiet h, map_bind, bind_map_left, map_pure]
  refine Select.bind_congr_ok fun parameters n' hparams => ?_
  simp only [List.map_cons, dropComments_parameters hparams]

end Selector

theorem piecesAt_map_dropComments (pieces : List (BlockId × List Instr)) (place : BlockId) :
    piecesAt (pieces.map fun piece => (piece.1, dropComments piece.2)) place =
      dropComments (piecesAt pieces place) := by
  simp only [piecesAt, dropComments, List.filter_map, List.flatMap_map, List.filter_flatMap]
  rfl

/-- **Selection without comments gives the same code without comments**, and fails in the
same way. -/
theorem Function.ofFlow_quiet (h : source.InRange) (options : Options) :
    Function.ofFlow program source { options with comments := false } =
      Function.bare <$> Function.ofFlow program source options := by
  let sel : Selector := { program, source, options }
  change Function.ofFlow program source sel.quiet.options = _
  unfold Function.ofFlow
  cases hblocks : source.orderedBlocks with
  | error e => rfl
  | ok blocks =>
    have hquiet : ∀ q ∈ blocks, sel.quiet.selectBlock q.1 q.2 =
        (fun piece => (piece.1, dropComments piece.2)) <$> sel.selectBlock q.1 q.2 := by
      intro q hq
      obtain ⟨hid, hb⟩ := (Flow.Function.mem_orderedBlocks hblocks).mp hq
      refine Selector.selectBlock_quiet (fun i hi => ?_) fun t ht => ?_
      · exact (h.lists_instr False.elim options.style hid hb hi).imp fun _ => And.left
      · exact (h.lists_terminator False.elim options.style hid hb ht).imp fun _ => And.left
    simp only [map_bind, Except.ok_bind]
    refine bind_congr fun entry => bind_congr fun exit => ?_
    have hall : (sel.quiet.selectBlocks entry blocks).run {} =
        (fun r => (r.1.map fun piece => (piece.1, dropComments piece.2), r.2)) <$>
          (sel.selectBlocks entry blocks).run {} := by
      rw [Selector.selectBlocks_quiet hquiet, StateT.run_map]
    refine Eq.trans (congrArg (· >>= _) hall) ?_
    rw [bind_map_left]
    refine bind_congr fun r => ?_
    simp only [piecesAt_map_dropComments, map_pure, Function.bare, Table.map, List.map_toArray,
      List.map_map]
    rfl

/-! ## Ends of blocks -/

theorem endsInCode_of_dropComments (h : dropComments code = code) : EndsInCode code := by
  intro i hi
  have hmem := List.mem_of_getLast? hi
  rw [← h] at hmem
  simpa using (List.mem_filter.mp hmem).2

theorem EndsInCode.append (h : EndsInCode code) (hmore : EndsInCode more) :
    EndsInCode (code ++ more) := by
  by_cases hne : more = []
  · rw [hne, List.append_nil]
    exact h
  · exact hmore.append_of_ne_nil hne

theorem endsInCode_flatMap {pieces : List (BlockId × List Instr)}
    (h : ∀ piece ∈ pieces, EndsInCode piece.2) : EndsInCode (pieces.flatMap Prod.snd) := by
  induction pieces with
  | nil => exact endsInCode_nil
  | cons piece rest ih => exact (h piece (.head _)).append (ih fun q hq => h q (.tail _ hq))

theorem endsInCode_selectBlock {sel : Selector} {piece : BlockId × List Instr}
    (h : sel.selectBlock id b n = .ok (piece, n')) : EndsInCode piece.2 := by
  obtain ⟨t, body, comment, last, n1, -, -, -, -, hlast, hcode⟩ := selectBlock_eq_ok h
  have T := ends_selectTerminator (u := sel.anyUse) le_rfl hlast
  rw [hcode]
  refine EndsInCode.append_of_ne_nil ?_ ?_
  · exact endsInCode_of_dropComments (dropComments_of_mentions fun x hx => T.named ▸ hx)
  · obtain ⟨front, i, rfl, -⟩ := T.last
    simp

theorem Function.endsInCode_ofFlow (h : Function.ofFlow program source options = .ok f) :
    f.EndsInCode := by
  obtain ⟨blocks, parameters, pieces, n, N, -, -, hparams, hpieces, hcode, -⟩ := ofFlow_eq_ok h
  intro b hb
  rw [hcode] at hb
  obtain ⟨q, -, rfl⟩ := List.mem_map.mp hb
  refine endsInCode_flatMap fun piece hpiece => ?_
  rcases List.mem_cons.mp (List.mem_of_mem_filter hpiece) with rfl | hpiece
  · exact endsInCode_of_dropComments (Selector.dropComments_parameters hparams)
  · obtain ⟨-, -, hsteps⟩ := Select.forall₂_mapM (fun _ _ _ _ hi => grows_selectBlock hi) hpieces
    obtain ⟨q, -, m, m', -, hselect, -⟩ := hsteps.exists_of_mem_right hpiece
    exact endsInCode_selectBlock hselect

/-! ## What allocation keeps -/

theorem Instr.mentions_mapRegisters (g : Register → Register) (i : Instr) :
    (i.mapRegisters g).mentions = i.mentions := by
  cases i <;> rfl

theorem mentions_spill (i : Instr) (slots : SpillSlots) (next : Nat) :
    mentions (i.spill slots next) = i.mentions := by
  have hmoves : ∀ (l : List (Register × SlotId)) (make : Register × SlotId → Instr),
      (∀ p, (make p).mentions = []) → mentions (l.map make) = [] := fun l make hmake =>
    mentions_eq_nil (List.forall_mem_map.mpr fun p _ => hmake p)
  rw [Instr.spill, mentions_append, mentions_append,
    hmoves _ (fun p => .load .word p.1 .sp (.slot p.2)) fun _ => rfl,
    hmoves _ (fun p => .store .word p.1 .sp (.slot p.2)) fun _ => rfl, List.nil_append,
    List.append_nil, mentions_cons, Instr.mentions_mapRegisters, mentions_nil, List.append_nil]

theorem mentions_spillCode (slots : SpillSlots) (next : Nat) (code : List Instr) :
    mentions (spillCode slots next code).1 = mentions code := by
  induction code generalizing next with
  | nil => rfl
  | cons i rest ih => rw [spillCode, mentions_append, mentions_spill, ih, mentions_cons]

theorem mentions_spillBlocks (slots : SpillSlots) (next : Nat) (blocks : List Block) :
    mentions ((spillBlocks slots next blocks).1.flatMap Block.code) =
      mentions (blocks.flatMap Block.code) := by
  induction blocks generalizing next with
  | nil => rfl
  | cons b rest ih =>
    rw [spillBlocks, List.flatMap_cons, List.flatMap_cons, mentions_append, mentions_append, ih,
      mentions_spillCode]

theorem mentions_assign (colors : Colors) (b : Block) :
    mentions (b.assign colors).code = mentions b.code := by
  rw [Block.assign]
  induction b.code with
  | nil => rfl
  | cons i rest ih =>
    rw [List.map_cons, mentions_cons, ← ih, ← i.mentions_mapRegisters (replaceBy colors)]
    cases hempty : (i.mapRegisters (replaceBy colors)).isEmptyMove with
    | true =>
      have hnone : (i.mapRegisters (replaceBy colors)).mentions = [] := by
        generalize i.mapRegisters (replaceBy colors) = j at hempty
        cases j <;> first | rfl | cases hempty
      rw [List.filter_cons_of_neg (by simp [hempty]), hnone, List.nil_append]
    | false => rw [List.filter_cons_of_pos (by simp [hempty]), mentions_cons]

theorem Function.mentions_of_allocateRegisters
    (h : f.allocateRegisters l options log = .ok (f', l', none) log') :
    Machine.mentions f'.code = Machine.mentions f.code := by
  obtain ⟨-, g, live, a, hspills, -, -, rfl⟩ := Function.allocateRegisters_eq_ok h
  have hassign : Machine.mentions (g.assign a).code = Machine.mentions g.code := by
    have hcode : (g.assign a).code = g.blocks.entries.toList.flatMap fun b =>
        (b.assign a.colors).code := by
      simp [Function.code, Function.assign, Table.map, List.flatMap_map]
    rw [hcode, Machine.mentions, List.flatMap_assoc, Machine.mentions, Function.code,
      List.flatMap_assoc]
    exact List.flatMap_congr fun b _ => mentions_assign a.colors b
  rw [hassign]
  clear hassign h
  induction hspills with
  | refl => rfl
  | step registers _ ih => rw [ih]; exact mentions_spillBlocks _ _ _

end MxStar.Machine
