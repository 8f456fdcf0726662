import MxStar.Proofs.Flow.WellFormed
import MxStar.Proofs.Machine.SelectedCode

/-!
# What a selected function is like

A selected function reads argument registers and virtual registers below its counter, goes
to blocks that exist, uses its frame as it is meant to be used and mentions nothing but what
its graph names and looks like in a listing (`selected_ofFlow`).  Selection returns such a
function whenever all that it looks up exists (`exists_ofFlow`).
-/

namespace MxStar.Machine

open MxStar.Flow (Operand RegisterId)

variable {n n' : Naming} {i : Instr}

theorem Select.forall₂_mapM {α β : Type} {f : α → Select β} {list : List α} {results : List β}
    (hstep : ∀ a m b m', f a m = .ok (b, m') → (m.Sound → m'.Sound) ∧ m.Grows m')
    (h : list.mapM f n = .ok (results, N)) :
    (n.Sound → N.Sound) ∧ n.Grows N ∧ List.Forall₂ (fun a b =>
      ∃ m m', (n.Sound → m.Sound) ∧ f a m = .ok (b, m') ∧ m'.Grows N) list results := by
  induction list generalizing n results with
  | nil =>
    obtain ⟨rfl, rfl⟩ := Select.pure_eq_ok.mp h
    exact ⟨id, .refl n, .nil⟩
  | cons a list ih =>
    rw [List.mapM_cons] at h
    obtain ⟨b, n1, hb, results', n2, hresults, h⟩ := Select.bind2_eq_ok.mp h
    obtain ⟨rfl, rfl⟩ := Select.pure_eq_ok.mp h
    obtain ⟨hsound1, hgrows1⟩ := hstep a n b n1 hb
    obtain ⟨hsound2, hgrows2, hrest⟩ := ih hresults
    refine ⟨hsound2 ∘ hsound1, hgrows1.trans hgrows2, .cons ⟨n, n1, id, hb, hgrows2⟩ ?_⟩
    exact hrest.imp fun _ _ ⟨m, m', hm, hselect, hgrows⟩ => ⟨m, m', hm ∘ hsound1, hselect, hgrows⟩

/-! ## Parameters -/

/-- An instruction that receives the parameter `q` at the place `k`: it reads the argument
register, if there is one, and writes the virtual register of the parameter. -/
structure Instr.Receives (n : Naming) (q : RegisterId) (k : Nat) (i : Instr) : Prop where
  uses : ∀ r ∈ i.uses, ∃ a, Physical.arguments[k]? = some a ∧ r = .physical a
  writes : ∃ v, n.values[q]? = some v ∧ i.writes = [.virtual v]
  targets : i.targets = []
  mentions : i.mentions = []
  framed : ∀ u : FrameUse, k + 1 - Physical.arguments.length ≤ u.incoming → i.Framed u

variable {blocks : Nat}

theorem selectParameter_eq_ok (h : Selector.selectParameter q k n = .ok (i, n')) :
    ((n.Sound → n'.Sound) ∧ n.Grows n') ∧ i.Receives n' q k := by
  simp only [Selector.selectParameter] at h
  obtain ⟨rd, n1, hrd, h⟩ := Select.bind_eq_ok.mp h
  obtain ⟨hsound, hgrows, v, rfl, hv⟩ := exists_of_valueRegister hrd
  cases ha : Physical.arguments[k]? with
  | some a =>
    simp only [ha] at h
    obtain ⟨rfl, rfl⟩ := Select.pure_eq_ok.mp h
    refine ⟨⟨hsound, hgrows⟩, fun r hr => ⟨a, ha, ?_⟩, ⟨v, hv, rfl⟩, rfl, rfl, fun _ _ => rfl⟩
    simpa [Instr.reads, Instr.operands] using (Instr.mem_uses.mp hr).1
  | none =>
    simp only [ha] at h
    obtain ⟨rfl, rfl⟩ := Select.pure_eq_ok.mp h
    have hle : Physical.arguments.length ≤ k := List.getElem?_eq_none_iff.mp ha
    refine ⟨⟨hsound, hgrows⟩, fun r hr => ?_, ⟨v, hv, rfl⟩, rfl, rfl,
      fun u hu => ⟨rfl, rfl, rfl, by omega⟩⟩
    -- the frame pointer is not followed
    rw [Instr.mem_uses] at hr
    obtain rfl : r = .sp := by simpa [Instr.reads, Instr.operands] using hr.1
    cases hr.2

theorem forall₂_parameters {ps : List (RegisterId × Nat)}
    (h : ps.mapM (fun p => Selector.selectParameter p.1 p.2) n = .ok (code, n')) :
    (n.Sound → n'.Sound) ∧ List.Forall₂ (fun p i => i.Receives n' p.1 p.2) ps code := by
  obtain ⟨hsound, -, hsteps⟩ :=
    Select.forall₂_mapM (fun _ _ _ _ hi => (selectParameter_eq_ok hi).1) h
  refine ⟨hsound, hsteps.imp fun p i ⟨m, m', _, hi, hgrows⟩ => ?_⟩
  have hreceives := (selectParameter_eq_ok hi).2
  obtain ⟨v, hv, hwrites⟩ := hreceives.writes
  exact { hreceives with writes := ⟨v, hgrows.values _ v hv, hwrites⟩ }

theorem Instr.Receives.modest (h : i.Receives n q k) (hn : n.Sound) (blocks : Nat) :
    i.Modest n.virtuals blocks where
  arguments := by
    intro p hp
    obtain ⟨a, ha, heq⟩ := h.uses _ hp
    exact Register.physical.inj heq ▸ List.mem_of_getElem? ha
  below := by
    obtain ⟨w, hw, hwrites⟩ := h.writes
    rintro v (hv | hv)
    · obtain ⟨a, -, heq⟩ := h.uses _ (Instr.mem_uses.mpr ⟨hv, rfl⟩)
      cases heq
    · rw [hwrites, List.mem_singleton] at hv
      exact Register.virtual.inj hv ▸ hn.lt q w hw
  targets := by simp [h.targets]

/-! ## Functions -/

theorem mem_piecesAt (h : i ∈ piecesAt pieces place) : ∃ p ∈ pieces, p.1 = place ∧ i ∈ p.2 := by
  obtain ⟨p, hp, hi⟩ := List.mem_flatMap.mp h
  obtain ⟨hmem, heq⟩ := List.mem_filter.mp hp
  exact ⟨p, hmem, by simpa using heq, hi⟩

/-- An instruction that was selected before the names became `n`. -/
structure Instr.Selected (u : FrameUse) (blocks : Nat) (names : Mention → Prop) (n : Naming)
    (i : Instr) : Prop where
  modest : i.Modest n.virtuals blocks
  framed : n.Within u → i.Framed u
  mentions : ∀ x ∈ i.mentions, names x

theorem Instr.Selected.grows {names : Mention → Prop} (h : i.Selected u blocks names n)
    (hgrows : n.Grows n') : i.Selected u blocks names n' where
  modest := h.modest.mono hgrows.virtuals le_rfl
  framed := fun hn => h.framed (hn.of_grows hgrows)
  mentions := h.mentions

theorem Written.selected {names : Mention → Prop} (W : Written u blocks n n' said code)
    (hn : n.Sound) (hsaid : ∀ x ∈ said, names x) :
    ∀ i ∈ code, i.Selected u blocks names n' := fun i hi =>
  { modest := W.modest hn i hi
    framed := fun hn' => W.framed hn' i hi
    mentions := fun x hx => hsaid x (W.mentions ▸ List.mem_flatMap.mpr ⟨i, hi, hx⟩) }

section

variable {program : Flow.Program} {source : Flow.Function} {options : Options} {f : Function}

theorem suits_unsized : ∀ id b, source.blocks.get? id = some b → ∀ i ∈ b.instrs.toList,
    Selector.Suits ⟨program, source, options⟩ (f.Suits False) i :=
  fun _ _ _ _ _ _ _ _ _ => ⟨fun _ _ _ => False.elim, fun _ _ _ => False.elim⟩

variable (h : Function.ofFlow program source options = .ok f)
include h

/-- **All code of a selected function** is selected for the blocks of its graph. -/
theorem exists_selected_ofFlow {sized : Prop}
    (hsuits : ∀ id b, source.blocks.get? id = some b → ∀ i ∈ b.instrs.toList,
      Selector.Suits ⟨program, source, options⟩ (f.Suits sized) i) :
    let u := f.use (source.parameters.length - Physical.arguments.length) sized
    let names x := ∃ id b, id ∈ source.layout ∧ source.blocks.get? id = some b ∧
      Selector.MentionedIn ⟨program, source, options⟩ b x
    ∃ N, N.Within u ∧ f.virtuals = N.virtuals ∧ f.blocks.size = source.layout.length ∧
      ∀ i ∈ f.code, i.Selected u source.layout.length names N := by
  intro u names
  obtain ⟨blocks, parameters, pieces, n, N, hblocks, -, hparams, hpieces, hcode, hobjects, -,
    hvirts, -, houtgoing, hcalls⟩ := ofFlow_eq_ok h
  obtain ⟨hsound, hfirst⟩ := forall₂_parameters hparams
  obtain ⟨-, hgrows, hrest⟩ := Select.forall₂_mapM (fun _ _ _ _ hi => grows_selectBlock hi) hpieces
  have hn : n.Sound := hsound Naming.sound_empty
  refine ⟨N, ⟨houtgoing.ge, hcalls.trans⟩, hvirts, ?_, fun i hi => ?_⟩
  · rw [Table.size, ← Array.length_toList, hcode]
    simp [(Flow.Function.forall₂_orderedBlocks hblocks).length_eq]
  · rw [Function.code, hcode] at hi
    obtain ⟨block, hblock, hi⟩ := List.mem_flatMap.mp hi
    obtain ⟨p, -, rfl⟩ := List.mem_map.mp hblock
    obtain ⟨piece, hpiece, -, hi⟩ := mem_piecesAt hi
    rcases List.mem_cons.mp hpiece with rfl | hpiece
    · obtain ⟨⟨q, k⟩, hq, hreceives⟩ := hfirst.exists_of_mem_right hi
      have hk : k < source.parameters.length := List.snd_lt_of_mem_zipIdx hq
      refine Instr.Selected.grows ⟨hreceives.modest hn _, fun _ => ?_, ?_⟩ hgrows
      · exact hreceives.framed u (Nat.sub_le_sub_right hk _)
      · simp [hreceives.mentions]
    · obtain ⟨q, hq, m, m', hm, hblock, hgrows'⟩ := hrest.exists_of_mem_right hpiece
      obtain ⟨hlaid, hb⟩ := (Flow.Function.mem_orderedBlocks hblocks).mp hq
      obtain ⟨W, hnamed⟩ := written_selectBlock (u := u) hobjects.ge (hsuits q.1 q.2 hb) hblock
      exact (W.selected (hm hn) (fun x hx => ⟨q.1, q.2, hlaid, hb, hnamed x hx⟩) i hi).grows hgrows'

/-- **A selected function is modest**: it reads argument registers and virtual
registers below its counter, and goes to blocks that exist. -/
theorem modest_ofFlow :
    (∀ i ∈ f.code, i.Modest f.virtuals f.blocks.size) ∧ f.exit.val < f.blocks.size ∧
      f.unspillable = ∅ := by
  obtain ⟨N, -, hvirts, hsize, hsel⟩ := exists_selected_ofFlow h suits_unsized
  obtain ⟨blocks, parameters, pieces, n, N', -, -, -, -, -, -, hexit, -, hunspillable, -⟩ :=
    ofFlow_eq_ok h
  rw [hvirts, hsize]
  exact ⟨fun i hi => (hsel i hi).modest,
    (List.getElem?_eq_some_iff.mp (getElem?_of_position hexit)).1, hunspillable⟩

/-- **Selected code uses its frame as it is meant to be used.** -/
theorem codeFramed_ofFlow {sized : Prop}
    (hsuits : ∀ id b, source.blocks.get? id = some b → ∀ i ∈ b.instrs.toList,
      Selector.Suits ⟨program, source, options⟩ (f.Suits sized) i) :
    CodeFramed (f.use (source.parameters.length - Physical.arguments.length) sized) f.code := by
  obtain ⟨N, hwithin, -, -, hsel⟩ := exists_selected_ofFlow h hsuits
  exact fun i hi => (hsel i hi).framed hwithin

/-- **A selected function mentions nothing but what its graph names**, and what its graph
looks like in a listing. -/
theorem exists_mem_mentions_of_ofFlow (hx : x ∈ mentions f.code) :
    ∃ id b, id ∈ source.layout ∧ source.blocks.get? id = some b ∧
      Selector.MentionedIn ⟨program, source, options⟩ b x := by
  obtain ⟨N, -, -, -, hsel⟩ := exists_selected_ofFlow h suits_unsized
  obtain ⟨i, hi, hx⟩ := List.mem_flatMap.mp hx
  exact (hsel i hi).mentions x hx

theorem exists_mem_references_of_ofFlow (hr : r ∈ references f.code) :
    ∃ id b, source.blocks.get? id = some b ∧ r ∈ b.references := by
  obtain ⟨id, b, -, hb, hnames⟩ := exists_mem_mentions_of_ofFlow h (label_mem_mentions.mpr hr)
  exact ⟨id, b, hb, hnames⟩

end

/-- Every block of a selected function is the code of the block that is laid out at its place. -/
theorem exists_selectBlock_of_ofFlow {program : Flow.Program} {source : Flow.Function}
    {options : Options} (hlayout : source.layout.Nodup)
    (h : Function.ofFlow program source options = .ok f) :
    let sel : Selector := { program, source, options }
    ∃ n N parameters, source.layout[f.entry.val]? = some source.entry ∧ n.Grows N ∧
      source.parameters.zipIdx.mapM (fun p => Selector.selectParameter p.1 p.2) {} =
        .ok (parameters, n) ∧
      ∀ place block, f.blocks.get? place = some block → ∃ id b home code m m',
        source.layout[place.val]? = some id ∧ source.blocks.get? id = some b ∧ m.Sound ∧
          sel.selectBlock id b m = .ok ((home, code), m') ∧ m'.Grows N ∧
          block.code = (if f.entry = place then parameters else []) ++ code := by
  intro sel
  obtain ⟨blocks, parameters, pieces, n, N, hblocks, hentry, hparams, hpieces, hcode, -⟩ :=
    ofFlow_eq_ok h
  have hordered := Flow.Function.forall₂_orderedBlocks hblocks
  obtain ⟨-, hgrows, hsteps⟩ := Select.forall₂_mapM (fun _ _ _ _ hi => grows_selectBlock hi) hpieces
  have hpositions : List.Forall₂ (fun p piece => sel.position p.1 = .ok piece.1) blocks pieces :=
    hsteps.imp fun p piece ⟨m, m', _, hselect, _⟩ => by
      obtain ⟨t, body, comment, last, n1, -, hat, -⟩ := selectBlock_eq_ok hselect
      exact hat
  refine ⟨n, N, parameters, getElem?_of_position hentry, hgrows, hparams, ?_⟩
  intro place block hblock
  have hplace : place.val < source.layout.length := by
    have hlt := Table.lt_size_of_get? hblock
    rw [Table.size, ← Array.length_toList, hcode] at hlt
    simpa [hordered.length_eq] using hlt
  obtain ⟨q, hq, hid, hb⟩ := hordered.exists_of_getElem? (List.getElem?_eq_getElem hplace)
  obtain ⟨⟨home, code⟩, hpiece, m, m', hm, hselect, hgrows'⟩ := hsteps.exists_of_getElem? hq
  have hblock' := get?_of_pieces hlayout hordered hpositions hcode hq hpiece
  obtain rfl := Option.mem_unique hblock hblock'
  rw [← hid] at hb
  exact ⟨q.1, q.2, home, code, m, m', by rw [hid, List.getElem?_eq_getElem hplace], hb,
    hm ((forall₂_parameters hparams).1 Naming.sound_empty), hselect, hgrows', rfl⟩

/-- **A selected function refers to what its graph refers to**, block by block and in the same
order. -/
theorem references_ofFlow {program : Flow.Program} {source : Flow.Function} {options : Options}
    (hlayout : source.layout.Nodup) (h : Function.ofFlow program source options = .ok f) :
    List.Forall₂ (fun id block => ∃ b, source.blocks.get? id = some b ∧
      references block.code = b.refersTo) source.layout f.blocks.entries.toList := by
  obtain ⟨n, N, parameters, -, -, hparams, hblocks⟩ := exists_selectBlock_of_ofFlow hlayout h
  obtain ⟨-, -, -, hsize, -⟩ := exists_selected_ofFlow h suits_unsized
  have hlen : f.blocks.entries.toList.length = source.layout.length := by
    rw [Array.length_toList, ← hsize, Table.size]
  have hreceive : references parameters = [] := by
    refine references_eq_of_mentions (mentions_eq_nil fun i hi => ?_)
    obtain ⟨_, -, hreceives⟩ := (forall₂_parameters hparams).2.exists_of_mem_right hi
    exact hreceives.mentions
  refine List.forall₂_iff_get.mpr ⟨hlen.symm, fun k hk hk' => ?_⟩
  have hget : f.blocks.get? ⟨k⟩ = some (f.blocks.entries.toList.get ⟨k, hk'⟩) := by
    rw [Table.get?, ← Array.getElem?_toList]
    exact List.getElem?_eq_getElem hk'
  obtain ⟨id, b, home, code, m, m', hid, hb, -, hselect, -, hcode⟩ := hblocks ⟨k⟩ _ hget
  obtain rfl := Option.some.inj (hid.symm.trans (List.getElem?_eq_getElem hk))
  refine ⟨b, hb, ?_⟩
  rw [hcode, references_append, references_selectBlock hselect]
  split
  · rw [hreceive, List.nil_append]
  · rfl

theorem Module.forall₂_ofFlow {program : Flow.Program} {options : Options}
    (h : Module.ofFlow program options log = .ok m log') :
    List.Forall₂ (fun source f => Function.ofFlow program source options = .ok f)
      program.allFunctions m.functions := by
  obtain ⟨globals, log1, -, functions, log2, hfuns, h⟩ := EStateM.bind2_eq_ok.mp h
  obtain ⟨rfl, -⟩ := EStateM.pure_eq_ok.mp h
  refine (EStateM.forall₂_of_mapM_eq_ok hfuns).imp fun source f hselect => ?_
  obtain ⟨s, s', hselect⟩ := hselect
  obtain ⟨f', log3, hflow, hselect⟩ := EStateM.bind_eq_ok.mp hselect
  rw [Logged.note_bind] at hselect
  obtain ⟨rfl, -⟩ := EStateM.pure_eq_ok.mp hselect
  exact (EStateM.ofExcept_eq_ok.mp hflow).1

/-! ## Results of selection -/

/-- What a step of selection returns satisfies `Q`. -/
def Gives {α : Type} (step : Select α) (Q : α → Prop) : Prop :=
  ∀ ⦃n a n'⦄, step n = .ok (a, n') → Q a

namespace Gives

variable {α β : Type} {Q : α → Prop} {R : β → Prop}

theorem pure (h : Q a) : Gives (pure a) Q := by
  intro n b n' hstep
  obtain ⟨rfl, -⟩ := Select.pure_eq_ok.mp hstep
  exact h

theorem bind {k : α → Select β} (hx : Gives x Q) (hk : ∀ a, Q a → Gives (k a) R) :
    Gives (x >>= k) R := by
  intro n b n' hstep
  obtain ⟨a, n1, h1, h2⟩ := Select.bind_eq_ok.mp hstep
  exact hk a (hx h1) h2

theorem any : Gives x fun _ => True := fun _ _ _ _ => trivial

theorem lift {x : Except Error α} : Gives (liftM x : Select α) fun a => x = .ok a :=
  fun _ _ _ h => (Select.lift_eq_ok.mp h).1

end Gives

/-! ## Selection returns -/

/-- The step succeeds, whatever names have been handed out. -/
def Returns {α : Type} (step : Select α) : Prop :=
  ∀ n, ∃ a n', step n = .ok (a, n')

namespace Returns

variable {α β : Type}

theorem pure (a : α) : Returns (pure a) := fun n => ⟨a, n, rfl⟩

theorem bind {k : α → Select β} (hx : Returns x) (hk : ∀ a, Returns (k a)) : Returns (x >>= k) := by
  intro n
  obtain ⟨a, n1, h1⟩ := hx n
  obtain ⟨b, n2, h2⟩ := hk a n1
  exact ⟨b, n2, Select.bind_eq_ok.mpr ⟨a, n1, h1, h2⟩⟩

theorem lift {x : Except Error α} (h : ∃ a, x = .ok a) : Returns (liftM x : Select α) := by
  obtain ⟨a, rfl⟩ := h
  exact .pure a

theorem mapM {f : α → Select β} {list : List α} (hf : ∀ a ∈ list, Returns (f a)) :
    Returns (list.mapM f) := by
  induction list with
  | nil => exact .pure []
  | cons a rest ih =>
    rw [List.mapM_cons]
    exact .bind (hf a (.head _)) fun _ =>
      .bind (ih fun c hc => hf c (.tail _ hc)) fun _ => .pure _

end Returns

theorem returns_fresh : Returns fresh := fun _ => ⟨_, _, rfl⟩

theorem returns_valueRegister (r : RegisterId) : Returns (valueRegister r) := by
  refine .bind (fun n => ⟨n, n, rfl⟩ : Returns get) fun n => ?_
  split
  · exact .pure _
  · exact fun _ => ⟨_, _, rfl⟩

theorem returns_addOffset (rd base : Register) (offset : Word) :
    Returns (addOffset rd base offset) := by
  unfold addOffset
  split
  · exact .pure _
  · exact .bind returns_fresh fun _ => .pure _

theorem returns_selectCondition (condition : Flow.Condition) (rd a b : Register) :
    Returns (selectCondition condition rd a b) := by
  have hequality : ∀ isEqual, Returns (selectEquality isEqual rd a b) := by
    intro isEqual
    simp only [selectEquality]
    split
    · exact .pure _
    · exact .bind returns_fresh fun _ => .pure _
  cases condition with
  | slt | sgt => exact .pure _
  | sle | sge => exact .bind returns_fresh fun _ => .pure _
  | eq | ne => exact hequality _

theorem returns_scale (index : Register) (size : Nat) : Returns (scale index size) := by
  unfold scale
  split
  · exact .pure _
  · split
    · exact .bind returns_fresh fun _ => .pure _
    · exact .bind returns_fresh fun _ => .bind returns_fresh fun _ => .pure _

section

variable {sel : Selector}

theorem returns_operand (o : Operand) : Returns (sel.operand o) := by
  cases o with
  | register r =>
    simp only [Selector.operand]
    split
    · exact .bind returns_fresh fun _ => .pure _
    · exact .bind (returns_valueRegister r) fun _ => .pure _
  | constant c =>
    simp only [Selector.operand]
    split
    · exact .pure _
    · exact .bind returns_fresh fun _ => .pure _
  | global name | string id => exact .bind returns_fresh fun _ => .pure _

theorem returns_address (o : Operand) : Returns (sel.address o) := by
  cases o with
  | register r =>
    simp only [Selector.address]
    split
    · exact .pure _
    · exact .bind (returns_valueRegister r) fun _ => .pure _
  | _ => exact .bind (returns_operand _) fun _ => .pure _

theorem returns_operands (os : List Operand) : Returns (sel.operands os) := by
  induction os with
  | nil => exact .pure _
  | cons o rest ih => exact .bind (returns_operand o) fun _ => .bind ih fun _ => .pure _

/-- What selection looks up for an instruction exists. -/
def Selector.Admits (sel : Selector) : Flow.Instr → Prop
  | .load d _ => ∃ ty, sel.source.registerType d = .ok ty
  | .store value address => ∃ ty, sel.storedType value address = .ok ty
  | .memberAddress _ _ struct field =>
    ∃ layout ∈ sel.program.struct? struct, field < layout.members.length
  | _ => True

theorem returns_selectMember (h : sel.Admits (.memberAddress d base struct field)) :
    Returns (sel.selectMember d base struct field) := by
  obtain ⟨layout, hlayout, hlt⟩ := h
  simp only [Selector.selectMember, Option.mem_def.mp hlayout, List.getElem?_eq_getElem hlt]
  exact .bind (returns_operand base) fun _ => .bind (returns_valueRegister d) fun _ =>
    .bind (returns_addOffset _ _ _) fun _ => .pure _

theorem returns_selectInstr {i : Flow.Instr} (h : sel.Admits i) : Returns (sel.selectInstr i) := by
  have hfinish : ∀ (d : RegisterId) (k : Register → List Instr),
      Returns (do let rd ← valueRegister d; return k rd) := fun d k =>
    .bind (returns_valueRegister d) fun _ => .pure _
  have hcompute : ∀ (d : RegisterId) (code : List Instr) {k : Register → Select (List Instr)},
      (∀ rd, Returns (k rd)) →
        Returns (do let rd ← valueRegister d; return code ++ (← k rd)) := fun d _ _ hk =>
    .bind (returns_valueRegister d) fun rd => .bind (hk rd) fun _ => .pure _
  cases i with
  | alloca d ty => exact .pure _
  | load d address => exact .bind (.lift h) fun _ => .bind (returns_address _) fun _ => hfinish d _
  | store value address =>
    exact .bind (.lift h) fun _ => .bind (returns_operand _) fun _ =>
      .bind (returns_address _) fun _ => .pure _
  | arith op d lhs rhs =>
    refine .bind (returns_operand lhs) fun _ => ?_
    cases immediate? op rhs with
    | some p => exact hfinish d _
    | none => exact .bind (returns_operand rhs) fun _ => hfinish d _
  | compare condition d lhs rhs =>
    exact .bind (returns_operand lhs) fun _ => .bind (returns_operand rhs) fun _ =>
      hcompute d _ fun rd => returns_selectCondition condition rd _ _
  | zeroExtend d value | bitCast d value | truncate d value =>
    exact .bind (returns_operand value) fun _ => hfinish d _
  | elementAddress d base element index =>
    refine .bind (returns_operand base) fun _ => ?_
    cases index with
    | constant c => exact hcompute d _ fun rd => returns_addOffset rd _ _
    | _ => exact .bind (returns_operand _) fun _ => .bind (returns_scale _ _) fun _ => hfinish d _
  | memberAddress d base struct field => exact returns_selectMember h
  | call d function arguments =>
    refine .bind (returns_operands arguments) fun _ => .bind (fun _ => ⟨_, _, rfl⟩) fun _ => ?_
    split
    · exact hfinish _ _
    · exact .pure _

theorem returns_comment {listing : Except Error String} (h : ∃ text, listing = .ok text) :
    Returns (liftM (sel.comment listing) : Select (List Instr)) := by
  obtain ⟨text, rfl⟩ := h
  refine .lift ?_
  unfold Selector.comment
  split <;> exact ⟨_, rfl⟩

theorem returns_selectInstrs
    (h : ∀ i ∈ instrs, sel.Admits i ∧ ∃ text,
      sel.source.instrListing sel.options.style i = .ok text) :
    Returns (sel.selectInstrs instrs) := by
  induction instrs with
  | nil => exact .pure _
  | cons i rest ih =>
    obtain ⟨⟨hadmits, hlisting⟩, hrest⟩ := List.forall_mem_cons.mp h
    exact .bind (returns_comment hlisting) fun _ => .bind (returns_selectInstr hadmits) fun _ =>
      .bind (ih hrest) fun _ => .pure _

theorem returns_selectTerminator {t : Flow.Terminator}
    (h : ∀ c ∈ t.successors, ∃ place, sel.position c = .ok place) :
    Returns (sel.selectTerminator t) := by
  cases t with
  | jump destination =>
    exact .bind (.lift (h destination (by simp [Flow.Terminator.successors]))) fun _ => .pure _
  | branch condition positive negative =>
    refine .bind (.lift (h positive (by simp))) fun _ =>
      .bind (.lift (h negative (by simp))) fun _ => ?_
    split
    · exact .pure _
    · exact .bind (returns_operand condition) fun _ => .pure _
  | ret value =>
    cases value with
    | none => exact .pure _
    | some value => exact .bind (returns_operand value) fun _ => .pure _

/-- What selection looks up for a function exists. -/
structure Selector.Accepts (sel : Selector) : Prop where
  entry : sel.source.entry ∈ sel.source.layout
  exit : sel.source.exit ∈ sel.source.layout
  blocks : ∀ id ∈ sel.source.layout, ∃ b t, sel.source.blocks.get? id = some b ∧
    b.terminator = some t ∧ (∀ c ∈ t.successors, c ∈ sel.source.layout) ∧
    (∃ text, sel.source.terminatorListing sel.options.style t = .ok text) ∧
    ∀ i ∈ b.instrs.toList, sel.Admits i ∧
      ∃ text, sel.source.instrListing sel.options.style i = .ok text

theorem Selector.exists_position {sel : Selector} {id : Flow.BlockId}
    (h : id ∈ sel.source.layout) : ∃ place, sel.position id = .ok place := by
  obtain ⟨k, hk⟩ := List.mem_iff_getElem?.mp h
  have hmem : (id, k) ∈ sel.source.layout.zipIdx.reverse := by
    rw [List.mem_reverse, List.mem_zipIdx_iff_getElem?]
    exact hk
  rw [Selector.position]
  split
  · exact ⟨_, rfl⟩
  · rename_i hfind
    exact absurd (List.find?_eq_none.mp hfind (id, k) hmem) (by simp)

theorem Selector.Accepts.returns_selectBlock (h : sel.Accepts) {id : Flow.BlockId}
    {b : Flow.Block} (hid : id ∈ sel.source.layout) (hb : sel.source.blocks.get? id = some b) :
    Returns (sel.selectBlock id b) := by
  obtain ⟨b', t, hb', ht, hsuccs, hlisting, hinstrs⟩ := h.blocks id hid
  obtain rfl := Option.mem_unique hb hb'
  simp only [Selector.selectBlock, ht]
  exact .bind (.lift (Selector.exists_position hid)) fun _ =>
    .bind (returns_selectInstrs hinstrs) fun _ => .bind (returns_comment hlisting) fun _ =>
      .bind (returns_selectTerminator fun c hc => Selector.exists_position (hsuccs c hc))
        fun _ => .pure _

end

theorem exists_ofFlow {program : Flow.Program} {source : Flow.Function} {options : Options}
    (h : Selector.Accepts { program, source, options }) :
    ∃ f, Function.ofFlow program source options = .ok f := by
  obtain ⟨blocks, hblocks⟩ := Flow.Function.exists_orderedBlocks (f := source) fun id hid => by
    obtain ⟨b, -, hb, -⟩ := h.blocks id hid
    exact Table.lt_size_of_get? hb
  obtain ⟨entry, hentry⟩ := Selector.exists_position h.entry
  obtain ⟨exit, hexit⟩ := Selector.exists_position h.exit
  have hreturns : Returns (Selector.selectBlocks ⟨program, source, options⟩ entry blocks) := by
    refine .bind (.mapM fun p _ => .bind (returns_valueRegister _) fun _ => ?_) fun _ =>
      .bind (.mapM fun p hp => ?_) fun _ => .pure _
    · split <;> exact .pure _
    · obtain ⟨hid, hb⟩ := (Flow.Function.mem_orderedBlocks hblocks).mp hp
      exact h.returns_selectBlock hid hb
  obtain ⟨pieces, N, hpieces⟩ := hreturns {}
  simp only [Function.ofFlow, bind, Except.bind, hblocks, hentry, hexit, StateT.run, hpieces]
  exact ⟨_, rfl⟩

end MxStar.Machine
