import MxStar.Flow.Body.Builder
import MxStar.Proofs.Flow.Run
import MxStar.Proofs.Table
import MxStar.Proofs.Texts

/-!
# What building a body can do

Every step of building a body comes down to a few edits: a new block, register or
cell, an instruction or a terminator for the current block as long as that is not
finished, and a new current block.  `Edit` lists them, so whatever no edit breaks
holds of every body.

The key facts are that a body only grows (`Grows`): a finished block never changes
and any other one is only added to, and that a block waits untouched until it
becomes the current one.  `Builds` says of a step that it is made of edits and what
it does to the scopes, and one lemma for each step of the library shows it.
-/

namespace MxStar.Flow

/-! ## Edits -/

/-- One change to a function under construction and to the current block.  Control
only moves to blocks from `bound` on. -/
inductive Edit (bound : Nat) : Function × BlockId → Function × BlockId → Prop
  | block (f : Function) (c : BlockId) (label : String) (terminator : Option Terminator) :
    Edit bound (f, c) ({ f with blocks := f.blocks.push { label, terminator } }, c)
  | register (f : Function) (c : BlockId) (info : RegisterInfo) :
    Edit bound (f, c) ({ f with registers := f.registers.push info }, c)
  | cell (f : Function) (c : BlockId) (ty : Ty) (name : Option String) :
    Edit bound (f, c) ({ f with
      registers := f.registers.push { ty := ty.pointerTo, name }
      cells := f.cells.push { register := f.registers.next, ty } }, c)
  | instr (f : Function) (c : BlockId) (b : Block) (i : Instr) (hb : f.blocks.get? c = some b)
    (hopen : b.finished = false) :
    Edit bound (f, c)
      ({ f with blocks := f.blocks.modify c fun _ => { b with instrs := b.instrs.push i } }, c)
  | finish (f : Function) (c : BlockId) (b : Block) (t : Terminator)
    (hb : f.blocks.get? c = some b) (hopen : b.finished = false) :
    Edit bound (f, c)
      ({ f with blocks :=
        f.blocks.modify c fun _ => { b with terminator := some t, finished := true } }, c)
  | enter (f : Function) (c b : BlockId) (hb : bound ≤ b.val) :
    Edit bound (f, c) ({ f with layout := f.layout ++ [b] }, b)

abbrev Edits (bound : Nat) := Relation.ReflTransGen (Edit bound)

/-- Nothing is ever taken out of a block, and a finished one stays as it is. -/
structure Block.Grows (b b' : Block) : Prop where
  instrs : b.instrs.toList <+: b'.instrs.toList
  finished : b.finished = true →
    b'.instrs = b.instrs ∧ b'.terminator = b.terminator ∧ b'.finished = true

theorem Block.Grows.refl (b : Block) : b.Grows b := ⟨List.prefix_rfl, fun h => ⟨rfl, rfl, h⟩⟩

theorem Block.Grows.trans {b b' b'' : Block} (h : b.Grows b') (h' : b'.Grows b'') :
    b.Grows b'' := by
  refine ⟨h.instrs.trans h'.instrs, fun hf => ?_⟩
  obtain ⟨hi, ht, hf⟩ := h.finished hf
  obtain ⟨hi', ht', hf'⟩ := h'.finished hf
  exact ⟨hi'.trans hi, ht'.trans ht, hf'⟩

/-- What is there stays there, and registers of new cells are new. -/
structure Grows (f f' : Function) : Prop where
  size : f.registers.size ≤ f'.registers.size
  registers : ∀ r info, f.registers.get? r = some info → f'.registers.get? r = some info
  cells : ∀ (n : Nat) c, f.cells[n]? = some c → f'.cells[n]? = some c
  newCells : ∀ (n : Nat) c, f'.cells[n]? = some c →
    f.cells[n]? = some c ∨ f.registers.size ≤ c.register.val
  blocks : ∀ id b, f.blocks.get? id = some b → ∃ b', f'.blocks.get? id = some b' ∧ b.Grows b'
  blockCount : f.blocks.size ≤ f'.blocks.size
  exit : f'.exit = f.exit

namespace Grows

theorem refl (f : Function) : Grows f f where
  size := Nat.le_refl _
  registers := fun _ _ h => h
  cells := fun _ _ h => h
  newCells := fun _ _ h => .inl h
  blocks := fun _ b h => ⟨b, h, .refl b⟩
  blockCount := Nat.le_refl _
  exit := rfl

theorem trans {f g k : Function} (h : Grows f g) (h' : Grows g k) : Grows f k where
  size := h.size.trans h'.size
  registers := fun r info hr => h'.registers r info (h.registers r info hr)
  cells := fun n c hc => h'.cells n c (h.cells n c hc)
  newCells := by
    intro n c hc
    rcases h'.newCells n c hc with hold | hnew
    · exact h.newCells n c hold
    · exact .inr (h.size.trans hnew)
  blocks := by
    intro id b hb
    obtain ⟨b', hb', hgrow⟩ := h.blocks id b hb
    obtain ⟨b'', hb'', hgrow'⟩ := h'.blocks id b' hb'
    exact ⟨b'', hb'', hgrow.trans hgrow'⟩
  blockCount := h.blockCount.trans h'.blockCount
  exit := h'.exit.trans h.exit

theorem registerType? (h : Grows f f') (hr : f.registerType? r = some ty) :
    f'.registerType? r = some ty := by
  obtain ⟨info, hinfo, rfl⟩ := Option.map_eq_some_iff.mp hr
  simp [Function.registerType?, h.registers r info hinfo]

end Grows

variable {f : Function} {bound : Nat} {x y : Function × BlockId}

private theorem grows_modify (hb : f.blocks.get? c = some b) (hgrow : b.Grows b') :
    Grows f { f with blocks := f.blocks.modify c fun _ => b' } where
  size := Nat.le_refl _
  registers := fun _ _ h => h
  cells := fun _ _ h => h
  newCells := fun _ _ h => .inl h
  blocks := by
    intro id d hd
    simp only [Table.get?_modify]
    by_cases hid : c = id
    · obtain rfl := hid
      obtain rfl := Option.mem_unique hb hd
      exact ⟨b', by simp [hb], hgrow⟩
    · exact ⟨d, by simp [hid, hd], .refl d⟩
  blockCount := by simp
  exit := rfl

theorem Edit.grows (h : Edit bound x y) : Grows x.1 y.1 := by
  cases h with
  | block f c label terminator =>
    refine { Grows.refl f with blocks := ?_, blockCount := ?_, exit := rfl }
    · intro id b hb
      exact ⟨b, Table.get?_push_of_get? hb _, .refl b⟩
    · simp
  | register f c info =>
    refine { Grows.refl f with size := ?_, registers := ?_, exit := rfl }
    · simp
    · intro r info' hr
      exact Table.get?_push_of_get? hr _
  | cell f c ty name =>
    refine { Grows.refl f with
      size := ?_, registers := ?_, cells := ?_, newCells := ?_, exit := rfl }
    · simp
    · intro r info' hr
      exact Table.get?_push_of_get? hr _
    · intro n d hd
      obtain ⟨hlt, -⟩ := Array.getElem?_eq_some_iff.mp hd
      rw [Array.getElem?_push_lt hlt]
      simpa [Array.getElem?_eq_getElem hlt] using hd
    · intro n d hd
      simp only [Array.getElem?_push] at hd
      split at hd
      · obtain rfl := Option.some.inj hd
        exact .inr (Nat.le_refl _)
      · exact .inl hd
  | instr f c b i hb hopen => exact grows_modify hb ⟨by simp, by simp [hopen]⟩
  | finish f c b t hb hopen => exact grows_modify hb ⟨List.prefix_rfl, by simp [hopen]⟩
  | enter f c b hb => exact { Grows.refl f with exit := rfl }

theorem Edits.grows (h : Edits bound x y) : Grows x.1 y.1 := by
  induction h with
  | refl => exact .refl _
  | tail _ hstep ih => exact ih.trans hstep.grows

theorem Edits.waiting (h : Edits bound x y) {id : BlockId} (hid : id.val < bound)
    (hcount : bound ≤ x.1.blocks.size) (hne : x.2 ≠ id) :
    y.1.blocks.get? id = x.1.blocks.get? id ∧ y.2 ≠ id := by
  induction h with
  | refl => exact ⟨rfl, hne⟩
  | tail hsteps hstep ih =>
    obtain ⟨heq, hne'⟩ := ih
    have hle := hcount.trans (Edits.grows hsteps).blockCount
    cases hstep with
    | block f c label terminator =>
      refine ⟨?_, hne'⟩
      rw [← heq, Table.get?_push, if_neg]
      intro h
      have hval : id.val = f.blocks.size := by rw [h]; rfl
      exact absurd hle (by simp only; omega)
    | register => exact ⟨heq, hne'⟩
    | cell => exact ⟨heq, hne'⟩
    | instr => exact ⟨by rw [← heq, Table.get?_modify, if_neg hne'], hne'⟩
    | finish => exact ⟨by rw [← heq, Table.get?_modify, if_neg hne'], hne'⟩
    | enter f c b hb =>
      refine ⟨heq, fun h => ?_⟩
      rw [show b = id from h] at hb
      omega

/-- Each cell has a register of its own, which points to its type. -/
structure Function.CellsPlaced (f : Function) : Prop where
  type : ∀ (n : Nat) c, f.cells[n]? = some c → f.registerType? c.register = some c.ty.pointerTo
  distinct : ∀ (n m : Nat) c d, f.cells[n]? = some c → f.cells[m]? = some d →
    c.register = d.register → n = m

theorem Function.lt_size_of_registerType? (h : f.registerType? r = some ty) :
    r.val < f.registers.size := by
  obtain ⟨info, hinfo, -⟩ := Option.map_eq_some_iff.mp h
  exact Table.lt_size_of_get? hinfo

theorem Function.CellsPlaced.lt_size (h : f.CellsPlaced) {n : Nat} {c : Cell}
    (hc : f.cells[n]? = some c) : c.register.val < f.registers.size :=
  Function.lt_size_of_registerType? (h.type n c hc)

theorem Edit.cellsPlaced (h : Edit bound x y) (hx : x.1.CellsPlaced) : y.1.CellsPlaced := by
  have hgrows := h.grows
  cases h with
  | cell f c ty name =>
    have hold : ∀ (n : Nat) d, f.cells[n]? = some d → d.register ≠ f.registers.next := by
      intro n d hd
      obtain ⟨info, hinfo, -⟩ := Option.map_eq_some_iff.mp (hx.type n d hd)
      exact Table.ne_next_of_get? hinfo
    refine ⟨?_, ?_⟩
    · intro n d hd
      simp only [Array.getElem?_push] at hd
      split at hd
      · obtain rfl := Option.some.inj hd
        simp [Function.registerType?, Table.get?_push]
      · exact hgrows.registerType? (hx.type n d hd)
    · intro n m d e hd he heq
      simp only [Array.getElem?_push] at hd he
      split at hd <;> split at he
      · omega
      · obtain rfl := Option.some.inj hd
        exact absurd heq.symm (hold m e he)
      · obtain rfl := Option.some.inj he
        exact absurd heq (hold n d hd)
      · exact hx.distinct n m d e hd he heq
  | _ => exact ⟨fun n d hd => hgrows.registerType? (hx.type n d hd), hx.distinct⟩

theorem Edits.cellsPlaced (h : Edits bound x y) (hx : x.1.CellsPlaced) : y.1.CellsPlaced := by
  induction h with
  | refl => exact hx
  | tail _ hstep ih => exact hstep.cellsPlaced ih

/-! ## Steps that are made of edits -/

def Builder.draft (s : Builder) : Function × BlockId :=
  (s.function, s.current)

def Builder.shared (s : Builder) : ScopeStack × StringPool :=
  (s.scopes, s.strings)

/-- What a region keeps: the regions around it and its loop. -/
def ScopeStack.outer (s : ScopeStack) : List Scope × Option LoopTargets :=
  (s.scopes.tail, s.innermostLoop?)

abbrev outerView : ScopeStack → List Scope × Option LoopTargets := ScopeStack.outer

/-- A step is made of edits, keeps what `view` shows of the scopes, and its result satisfies
`Q`.  The strings of the unit are followed if `P` holds: then it is just these texts that the
step interns. -/
def Builds {α τ : Type} (P : Prop) (view : ScopeStack → τ) (bound : Nat) (step : Build α)
    (texts : List String := []) (Q : α → Prop := fun _ => True) : Prop :=
  ∀ ⦃s a s'⦄, step s = .ok a s' → bound ≤ s.function.blocks.size →
    Edits bound s.draft s'.draft ∧ view s'.scopes = view s.scopes ∧
      (P → s'.strings = s.strings.internAll texts) ∧ Q a

namespace Builds

variable {α β τ : Type} {P : Prop} {view : ScopeStack → τ} {bound : Nat} {texts more : List String}
  {Q : α → Prop} {R : β → Prop}

theorem of_shared
    (h : ∀ ⦃s a s'⦄, step s = .ok a s' → bound ≤ s.function.blocks.size →
      Edits bound s.draft s'.draft ∧ s'.shared = s.shared ∧ Q a) :
    Builds P view bound step [] Q := by
  intro s a s' hstep hle
  obtain ⟨hedits, hshared, ha⟩ := h hstep hle
  obtain ⟨hscopes, hstrings⟩ := Prod.mk.inj hshared
  exact ⟨hedits, congrArg view hscopes, fun _ => hstrings, ha⟩

theorem pure (h : Q a) : Builds P view bound (pure a) [] Q := by
  refine .of_shared fun s b s' hstep _ => ?_
  obtain ⟨rfl, rfl⟩ := EStateM.pure_eq_ok.mp hstep
  exact ⟨.refl, rfl, h⟩

section

variable {x : Build α} {k : α → Build β}

theorem both (hx : Builds P view bound x texts Q)
    (hk : ∀ a, Q a → Builds P view bound (k a) more R) :
    Builds P view bound (x >>= k) (texts ++ more) R := by
  intro s b s' hstep hle
  obtain ⟨a, s1, h1, h2⟩ := EStateM.bind_eq_ok.mp hstep
  obtain ⟨hedits, hview, hpool, ha⟩ := hx h1 hle
  obtain ⟨hedits', hview', hpool', hb⟩ := hk a ha h2 (hle.trans hedits.grows.blockCount)
  refine ⟨hedits.trans hedits', hview'.trans hview, fun h => ?_, hb⟩
  rw [hpool' h, hpool h, StringPool.internAll_append]

theorem bind (hx : Builds P view bound x [] Q)
    (hk : ∀ a, Q a → Builds P view bound (k a) texts R) : Builds P view bound (x >>= k) texts R :=
  hx.both hk

theorem last (hx : Builds P view bound x texts Q) (hk : ∀ a, Q a → Builds P view bound (k a) [] R) :
    Builds P view bound (x >>= k) texts R := by
  simpa using hx.both hk

end

theorem map {x : Build α} {f : α → β} (hx : Builds P view bound x texts fun a => R (f a)) :
    Builds P view bound (f <$> x) texts R := by
  intro s b s' hstep hle
  obtain ⟨a, h, rfl⟩ := EStateM.map_eq_ok.mp hstep
  exact hx h hle

theorem throw : Builds P view bound (throw e : Build α) texts Q := by
  intro s a s' hstep _
  exact absurd hstep EStateM.throw_ne_ok

theorem ofExcept {x : Except Error α} : Builds P view bound (ofExcept x) [] fun a => x = .ok a := by
  refine .of_shared fun s a s' hstep _ => ?_
  obtain ⟨hx, rfl⟩ := EStateM.ofExcept_eq_ok.mp hstep
  exact ⟨.refl, rfl, hx⟩

theorem trivial (h : Builds P view bound step texts Q) : Builds P view bound step texts := by
  intro s a s' hstep hle
  obtain ⟨hedits, hview, hpool, -⟩ := h hstep hle
  exact ⟨hedits, hview, hpool, True.intro⟩

theorem outer (h : Builds P id bound step texts Q) : Builds P outerView bound step texts Q := by
  intro s a s' hstep hle
  obtain ⟨hedits, hscopes, ha⟩ := h hstep hle
  exact ⟨hedits, congrArg ScopeStack.outer hscopes, ha⟩

theorem unnamed (h : Builds False view bound step texts Q) :
    Builds False view bound step more Q := by
  intro s a s' hstep hle
  obtain ⟨hedits, hscopes, -, ha⟩ := h hstep hle
  exact ⟨hedits, hscopes, False.elim, ha⟩

theorem get : Builds P view bound get := by
  refine .of_shared fun s a s' hstep _ => ?_
  obtain rfl : s = s' := by injection hstep
  exact ⟨.refl, rfl, True.intro⟩

end Builds

/-! ## The steps of the library -/

namespace Build

variable {s s' : Builder}

theorem get_eq_ok (h : (get : Build Builder) s = .ok a s') : a = s ∧ s' = s := by
  injection h with h1 h2
  exact ⟨h1.symm, h2.symm⟩

variable {a : Unit}

theorem changeCurrent_eq_ok {change : Block → Option Block} {dropped : String → Event}
    (h : editCurrent (fun f b => f.changeBlock b change dropped) s = .ok a s') :
    ∃ b log, s.function.blocks.get? s.current = some b ∧ s' = { s with
      function := match change b with
        | some changed => { s.function with
            blocks := s.function.blocks.modify s.current fun _ => changed }
        | none => s.function
      log } := by
  obtain ⟨_, _, hget, hedit⟩ := EStateM.bind_eq_ok.mp h
  obtain ⟨rfl, rfl⟩ := get_eq_ok hget
  obtain ⟨⟨f, done⟩, s1, hlogged, hmodify⟩ := EStateM.bind_eq_ok.mp hedit
  injection hmodify with _ hs'
  simp only [logged] at hlogged
  split at hlogged
  · rename_i result log hchange
    injection hlogged with hresult hs1
    subst hresult hs1 hs'
    obtain ⟨b, hb, hmatch⟩ := EStateM.ofExcept_bind_eq_ok.mp hchange
    refine ⟨b, log, Table.find_eq_ok.mp hb, ?_⟩
    cases hc : change b with
    | some changed =>
      rw [hc] at hmatch
      obtain ⟨hf, -⟩ := EStateM.pure_eq_ok.mp hmatch
      rw [← (Prod.mk.inj hf).1]
    | none =>
      rw [hc] at hmatch
      obtain ⟨_, _, -, hdrop⟩ := EStateM.bind_eq_ok.mp hmatch
      obtain ⟨hf, -⟩ := EStateM.pure_eq_ok.mp hdrop
      rw [← (Prod.mk.inj hf).1]
  · simp at hlogged

theorem emit_eq_ok (h : emit i s = .ok a s') :
    ∃ b, s.function.blocks.get? s.current = some b ∧ s'.current = s.current ∧ s'.shared = s.shared ∧
      (b.finished = true ∧ s'.function = s.function ∨
        b.finished = false ∧ s'.function = { s.function with
          blocks := s.function.blocks.modify s.current fun _ =>
            { b with instrs := b.instrs.push i } }) := by
  obtain ⟨b, log, hb, rfl⟩ := changeCurrent_eq_ok h
  refine ⟨b, hb, rfl, rfl, ?_⟩
  cases hfin : b.finished <;> simp [Block.push?, hfin]

theorem terminate_eq_ok (h : terminate t s = .ok a s') :
    ∃ b, s.function.blocks.get? s.current = some b ∧ s'.current = s.current ∧ s'.shared = s.shared ∧
      (b.finished = true ∧ s'.function = s.function ∨
        b.finished = false ∧ s'.function = { s.function with
          blocks := s.function.blocks.modify s.current fun _ =>
            { b with terminator := some t, finished := true } }) := by
  obtain ⟨b, log, hb, rfl⟩ := changeCurrent_eq_ok h
  refine ⟨b, hb, rfl, rfl, ?_⟩
  cases hfin : b.finished <;> simp [Block.terminate?, hfin]

theorem createBlock_eq_ok {id : BlockId} (h : createBlock tag t s = .ok id s') :
    id = s.function.blocks.next ∧ s'.current = s.current ∧ s'.shared = s.shared ∧
      ∃ label, s'.function =
        { s.function with blocks := s.function.blocks.push { label, terminator := t } } := by
  injection h with hid hs'
  subst hid hs'
  exact ⟨rfl, rfl, rfl, _, rfl⟩

theorem inheritedTerminator_eq_ok (h : inheritedTerminator s = .ok t s') :
    s' = s ∧ t = (s.function.blocks.get? s.current).bind Block.terminator := by
  injection h with ht hs'
  exact ⟨hs'.symm, ht.symm⟩

theorem switchTo_eq_ok (h : switchTo b s = .ok a s') :
    s'.current = b ∧ s'.shared = s.shared ∧
      s'.function = { s.function with layout := s.function.layout ++ [b] } := by
  injection h with _ hs'
  subst hs'
  exact ⟨rfl, rfl, rfl⟩

theorem modifyScopes_eq_ok {change : ScopeStack → ScopeStack}
    (h : modifyScopes change s = .ok a s') :
    s' = { s with scopes := change s.scopes } := by
  injection h with _ hs'
  exact hs'.symm

theorem createRegister_eq_ok {name : Option String} (h : createRegister ty name s = .ok r s') :
    r = s.function.registers.next ∧ s' = { s with function := { s.function with
        registers := s.function.registers.push { ty, name } } } := by
  injection h with hr hs'
  exact ⟨hr.symm, hs'.symm⟩

theorem createCell_eq_ok {name : Option String} (h : createCell ty name s = .ok r s') :
    r = s.function.registers.next ∧ s' = { s with function := { s.function with
        registers := s.function.registers.push { ty := ty.pointerTo, name }
        cells := s.function.cells.push { register := s.function.registers.next, ty } } } := by
  injection h with hr hs'
  exact ⟨hr.symm, hs'.symm⟩

theorem operandType_eq_ok (h : operandType o s = .ok ty s') :
    s' = s ∧ s.function.operandType o = .ok ty := by
  obtain ⟨_, _, hget, htype⟩ := EStateM.bind_eq_ok.mp h
  obtain ⟨rfl, rfl⟩ := get_eq_ok hget
  obtain ⟨hty, rfl⟩ := EStateM.ofExcept_eq_ok.mp htype
  exact ⟨rfl, hty⟩

end Build

section

variable {τ : Type} {P : Prop} {view : ScopeStack → τ} {bound : Nat} {texts : List String}

open Build

theorem builds_createBlock (tag : String) (t : Option Terminator) :
    Builds P view bound (createBlock tag t) [] fun id => bound ≤ id.val := by
  refine .of_shared fun s id s' h hle => ?_
  obtain ⟨rfl, hcurrent, hshared, label, hf⟩ := createBlock_eq_ok h
  rw [Builder.draft, Builder.draft, hf, hcurrent, hshared]
  exact ⟨.single (.block _ _ _ _), rfl, hle⟩

theorem builds_inheritedTerminator : Builds P view bound inheritedTerminator :=
  .bind .get fun _ _ => .pure True.intro

theorem builds_switchTo (hb : bound ≤ b.val) : Builds P view bound (switchTo b) := by
  refine .of_shared fun s a s' h _ => ?_
  obtain ⟨hcurrent, hshared, hf⟩ := switchTo_eq_ok h
  rw [Builder.draft, Builder.draft, hf, hcurrent, hshared]
  exact ⟨.single (.enter _ _ _ hb), rfl, True.intro⟩

theorem builds_emit (i : Instr) : Builds P view bound (emit i) := by
  refine .of_shared fun s a s' h _ => ?_
  obtain ⟨b, hb, hcurrent, hshared, ⟨-, hf⟩ | ⟨hopen, hf⟩⟩ := emit_eq_ok h <;>
    rw [Builder.draft, Builder.draft, hf, hcurrent, hshared]
  · exact ⟨.refl, rfl, True.intro⟩
  · exact ⟨.single (.instr _ _ b i hb hopen), rfl, True.intro⟩

theorem builds_terminate (t : Terminator) : Builds P view bound (terminate t) := by
  refine .of_shared fun s a s' h _ => ?_
  obtain ⟨b, hb, hcurrent, hshared, ⟨-, hf⟩ | ⟨hopen, hf⟩⟩ := terminate_eq_ok h <;>
    rw [Builder.draft, Builder.draft, hf, hcurrent, hshared]
  · exact ⟨.refl, rfl, True.intro⟩
  · exact ⟨.single (.finish _ _ b t hb hopen), rfl, True.intro⟩

theorem builds_jump (b : BlockId) : Builds P view bound (jump b) := builds_terminate _

theorem builds_createRegister (ty : Ty) (name : Option String) :
    Builds P view bound (createRegister ty name) := by
  refine .of_shared fun s r s' h _ => ?_
  obtain ⟨-, rfl⟩ := createRegister_eq_ok h
  exact ⟨.single (.register _ _ _), rfl, True.intro⟩

theorem builds_createCell (ty : Ty) (name : Option String) :
    Builds P view bound (createCell ty name) := by
  refine .of_shared fun s r s' h _ => ?_
  obtain ⟨-, rfl⟩ := createCell_eq_ok h
  exact ⟨.single (.cell _ _ _ _), rfl, True.intro⟩

theorem builds_operandType (o : Operand) : Builds P view bound (operandType o) :=
  .bind .get fun _ _ => Builds.ofExcept.trivial

theorem builds_define (ty : Ty) (instr : RegisterId → Instr) :
    Builds P view bound (define ty instr) :=
  .bind (builds_createRegister ty none) fun _ _ =>
    .bind (builds_emit _) fun _ _ => .pure True.intro

theorem builds_arith (op : ArithOp) (lhs rhs : Operand) : Builds P view bound (arith op lhs rhs) :=
  .bind (builds_operandType lhs) fun _ _ => builds_define _ _

theorem builds_asCondition (value : Operand) : Builds P view bound (asCondition value) := by
  unfold asCondition
  split
  · exact .pure True.intro
  · refine .bind (builds_operandType value) fun ty _ => ?_
    split
    · exact builds_define _ _
    · exact .pure True.intro

theorem builds_asStorage (value : Operand) : Builds P view bound (asStorage value) := by
  unfold asStorage
  split
  · exact .pure True.intro
  · refine .bind (builds_operandType value) fun ty _ => ?_
    split
    · exact builds_define _ _
    · exact .pure True.intro

theorem builds_region (scope : Scope) (h : Builds P outerView bound step texts) :
    Builds P id bound (do
      modifyScopes fun s => ⟨scope :: s.scopes⟩
      step
      modifyScopes ScopeStack.pop) texts := by
  intro s a s' hstep hle
  obtain ⟨_, s1, hpush, _, s2, hbody, hpop⟩ := EStateM.bind2_eq_ok.mp hstep
  obtain rfl := modifyScopes_eq_ok hpush
  obtain rfl := modifyScopes_eq_ok hpop
  obtain ⟨hedits, hview, hpool, -⟩ := h hbody hle
  exact ⟨hedits, congrArg ScopeStack.mk (Prod.mk.inj hview).1, hpool, True.intro⟩

theorem builds_inScope (h : Builds P outerView bound step texts) :
    Builds P id bound (inScope step) texts :=
  builds_region {} h

end

end MxStar.Flow
