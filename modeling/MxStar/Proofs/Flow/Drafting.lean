import MxStar.Proofs.Flow.Explicit
import MxStar.Proofs.Flow.Moves

/-!
# Bodies under construction

What holds of a body at every moment of its construction, also in code that no
run reaches.  Each block counts on some registers to have a value when control
enters it.  `Function.Draft` says that a block reads only those, the parameters,
the cells and what it has written itself, and that it only goes to blocks whose
registers it can vouch for.

`Stage` adds what the steps of building need to know: which blocks wait to be laid
out, what the current one ends with so far, which registers have a value in it, and
which types and strings are known.  A finished block drops what is added to it, so
every register may be taken to have a value there.  No type of a register ever
changes, so whether code is typed right is asked of all functions that have at least
the registers of the body.

`Drafts` is a triple over building steps: the condition after holds if the step
succeeds, and if it fails then not over the shape of the graph.
-/

namespace MxStar

/-- Whether an error says that a graph is ill-formed. -/
def Error.isStructural : Error → Bool
  | .missingTerminator _ _ | .inconsistentEdges _ _ => true
  | _ => false

namespace Flow

open Build (int)

/-! ## Registers of blocks -/

def written (instrs : List Instr) : List RegisterId :=
  instrs.filterMap Instr.destination?

@[simp]
theorem written_append (xs ys : List Instr) : written (xs ++ ys) = written xs ++ written ys :=
  List.filterMap_append

variable {instrs : List Instr}

variable {known K : Set RegisterId}

@[simp]
theorem mem_written_cons :
    r ∈ written (i :: instrs) ↔ i.destination? = some r ∨ r ∈ written instrs := by
  simp [written]

/-- Instructions read only registers among `known` or ones written before. -/
def Ordered (known : Set RegisterId) : List Instr → Prop
  | [] => True
  | i :: rest =>
    (∀ r, .register r ∈ i.operands → r ∈ known) ∧
      Ordered (known ∪ {r | i.destination? = some r}) rest

theorem Ordered.mono {known' : Set RegisterId} (h : Ordered known instrs) (hsub : known ⊆ known') :
    Ordered known' instrs := by
  induction instrs generalizing known known' with
  | nil => exact trivial
  | cons i rest ih =>
    exact ⟨fun r hr => hsub (h.1 r hr), ih h.2 (Set.union_subset_union_left _ hsub)⟩

theorem ordered_concat : Ordered known (instrs ++ [i]) ↔
      Ordered known instrs ∧ ∀ r, .register r ∈ i.operands →
        r ∈ known ∪ {r | r ∈ written instrs} := by
  induction instrs generalizing known with
  | nil => simp [Ordered, written]
  | cons j rest ih =>
    have hset : known ∪ {r | j.destination? = some r} ∪ {r | r ∈ written rest} =
        known ∪ {r | r ∈ written (j :: rest)} := by
      ext r
      simp [or_assoc]
    rw [List.cons_append, Ordered, Ordered, ih, hset, and_assoc]

namespace Function

/-- The registers that have a value from the entry on. -/
def given (f : Function) : List RegisterId :=
  f.parameters ++ f.cells.toList.map Cell.register

/-- The registers with a value at the start of a block that counts on `A id`. -/
def atStart (f : Function) (A : BlockId → Set RegisterId) (id : BlockId) : Set RegisterId :=
  {r | r ∈ f.given} ∪ A id

/-- The registers with a value after instructions of a block. -/
def after (f : Function) (A : BlockId → Set RegisterId) (id : BlockId) (instrs : List Instr) :
    Set RegisterId :=
  f.atStart A id ∪ {r | r ∈ written instrs}

/-- A terminator reads and vouches for registers with a value only, goes to blocks
that exist but not back to the entry, and leaves the function in the exit block only. -/
structure Ends (f : Function) (A : BlockId → Set RegisterId) (id : BlockId) (instrs : List Instr)
    (t : Terminator) : Prop where
  reads : ∀ r, .register r ∈ t.operands → r ∈ f.after A id instrs
  exists_target : ∀ c ∈ t.successors, c.val < f.blocks.size
  not_entry : ∀ c ∈ t.successors, c ≠ f.entry
  vouches : ∀ c ∈ t.successors, A c ⊆ f.after A id instrs
  leaves : ∀ v, t = .ret v → id = f.exit

/-- What holds of the blocks of a function under construction, where `A` tells the
registers each block counts on. -/
structure Draft (f : Function) (A : BlockId → Set RegisterId) : Prop where
  given_nodup : f.given.Nodup
  given_lt : ∀ r ∈ f.given, r.val < f.registers.size
  written_nodup : ∀ id b, f.blocks.get? id = some b → (written b.instrs.toList).Nodup
  written_apart : ∀ id id' b b' r, f.blocks.get? id = some b → f.blocks.get? id' = some b' →
    r ∈ written b.instrs.toList → r ∈ written b'.instrs.toList → id = id'
  written_new : ∀ id b r, f.blocks.get? id = some b → r ∈ written b.instrs.toList →
    r.val < f.registers.size ∧ r ∉ f.given
  plain : ∀ id b, f.blocks.get? id = some b → ∀ i ∈ b.instrs.toList, i.assigned? = i.destination?
  ordered : ∀ id b, f.blocks.get? id = some b → Ordered (f.atStart A id) b.instrs.toList
  ends : ∀ id b t, f.blocks.get? id = some b → b.terminator = some t →
    f.Ends A id b.instrs.toList t
  finished : ∀ id b, f.blocks.get? id = some b → b.finished = true → b.terminator.isSome

end Function

/-! ## What is known while building -/

structure UnitPlan where
  symbols : Source.Symbols
  /-- What the code may mention -/
  vocabulary : Vocabulary
  /-- The types of the globals -/
  globals : Source.Typing
  /-- That the source is well-typed -/
  typed : Prop
  /-- That no variable of the source is void -/
  sized : Prop

/-- What one body is built for. -/
structure Plan extends UnitPlan where
  /-- The class around it -/
  owner : Option String
  returnType : Source.Ty
  /-- The body as it was opened -/
  origin : Builder

/-- What is known at a point: registers with a value there, some blocks with the
registers they count on, some blocks that nothing leads to, some parameters and cells, the
exit of the function, some types of registers and a number of strings. -/
structure Facts where
  registers : Set RegisterId
  blocks : Set (BlockId × Set RegisterId)
  dead : Set BlockId
  given : Set RegisterId
  exit : BlockId
  types : Set (RegisterId × Ty)
  strings : Nat

namespace Facts

/-- Knowing more of the same function.  Blocks that are known later count on all that has
a value here. -/
structure Le (κ κ' : Facts) : Prop where
  registers : κ.registers ⊆ κ'.registers
  blocks : κ.blocks ⊆ κ'.blocks
  fresh : ∀ p ∈ κ'.blocks, p ∈ κ.blocks ∨ κ.registers ⊆ p.2
  dead : κ.dead ⊆ κ'.dead
  given : κ.given ⊆ κ'.given
  exit : κ.exit = κ'.exit
  types : κ.types ⊆ κ'.types
  strings : κ.strings ≤ κ'.strings

instance : Preorder Facts where
  le := Le
  le_refl _ := ⟨Set.Subset.rfl, Set.Subset.rfl, fun _ => .inl, Set.Subset.rfl, Set.Subset.rfl, rfl,
    Set.Subset.rfl, Nat.le_refl _⟩
  le_trans _ _ _ h h' := ⟨h.registers.trans h'.registers, h.blocks.trans h'.blocks,
    fun p hp => (h'.fresh p hp).elim (h.fresh p) fun hsub => .inr (h.registers.trans hsub),
    h.dead.trans h'.dead, h.given.trans h'.given, h.exit.trans h'.exit, h.types.trans h'.types,
    h.strings.trans h'.strings⟩

variable {κ κ' : Facts}

theorem le_iff : κ ≤ κ' ↔ κ.Le κ' := Iff.rfl

/-- One more parameter or cell. -/
def learn (κ : Facts) (r : RegisterId) : Facts :=
  { κ with given := insert r κ.given }

/-- One more type. -/
def assume (κ : Facts) (r : RegisterId) (ty : Ty) : Facts :=
  { κ with types := insert (r, ty) κ.types }

/-- A new block that counts on what has a value here. -/
def openBlock (κ : Facts) (b : BlockId) : Facts :=
  { κ with blocks := insert (b, κ.registers) κ.blocks }

/-- More blocks that nothing leads to. -/
def bury (κ : Facts) (dead : Set BlockId) : Facts :=
  { κ with dead := κ.dead ∪ dead }

/-- The same blocks at another point. -/
def within (κ : Facts) (registers : Set RegisterId) : Facts :=
  { κ with registers }

theorem le_learn (κ : Facts) (r : RegisterId) : κ ≤ κ.learn r :=
  { le_iff.mp (le_refl κ) with given := Set.subset_insert _ _ }

theorem le_assume (κ : Facts) (r : RegisterId) (ty : Ty) : κ ≤ κ.assume r ty :=
  { le_iff.mp (le_refl κ) with types := Set.subset_insert _ _ }

theorem le_openBlock (κ : Facts) (b : BlockId) : κ ≤ κ.openBlock b :=
  { le_iff.mp (le_refl κ) with
    blocks := Set.subset_insert _ _
    fresh := by
      rintro p (rfl | hp)
      · exact .inr Set.Subset.rfl
      · exact .inl hp }

theorem le_bury (κ : Facts) (dead : Set BlockId) : κ ≤ κ.bury dead :=
  { le_iff.mp (le_refl κ) with dead := Set.subset_union_left }

theorem bury_le (h : κ ≤ κ') {dead : Set BlockId} (hdead : dead ⊆ κ'.dead) : κ.bury dead ≤ κ' :=
  { le_iff.mp h with dead := Set.union_subset (le_iff.mp h).dead hdead }

theorem subset_of_bury_le {dead : Set BlockId} (h : κ.bury dead ≤ κ') : dead ⊆ κ'.dead :=
  Set.subset_union_right.trans (le_iff.mp h).dead

theorem bury_mono (h : κ ≤ κ') (dead : Set BlockId) : κ.bury dead ≤ κ'.bury dead :=
  bury_le (h.trans (κ'.le_bury dead)) Set.subset_union_right

@[simp]
theorem bury_empty (κ : Facts) : κ.bury ∅ = κ := by
  simp [bury]

theorem le_within (κ : Facts) (h : κ.registers ⊆ K) : κ ≤ κ.within K :=
  { le_iff.mp (le_refl κ) with registers := h }

theorem le_within_of_le (h : κ ≤ κ') : κ ≤ κ'.within κ.registers :=
  { le_iff.mp h with registers := Set.Subset.rfl }

def Allows (κ : Facts) (b : BlockId) : Prop :=
  ∃ k, (b, k) ∈ κ.blocks ∧ k ⊆ κ.registers

theorem Allows.mono (h : κ.Allows b) (hle : κ ≤ κ') : κ'.Allows b := by
  obtain ⟨k, hk, hsub⟩ := h
  exact ⟨k, (le_iff.mp hle).blocks hk, hsub.trans (le_iff.mp hle).registers⟩

theorem allows_openBlock (κ : Facts) (b : BlockId) : (κ.openBlock b).Allows b :=
  ⟨κ.registers, Set.mem_insert _ _, Set.Subset.rfl⟩

def Describes (κ : Facts) (f : Function) : Prop :=
  ∀ r ty, (r, ty) ∈ κ.types → f.registerType r = .ok ty

theorem Describes.of_le (h : κ'.Describes f) (hle : κ ≤ κ') : κ.Describes f :=
  fun r ty hr => h r ty ((le_iff.mp hle).types hr)

theorem Describes.extend (h : κ.Describes f) (hg : g.Extends f) : κ.Describes g :=
  fun r ty hr => hg.registerType (h r ty hr)

/-- A parameter or a cell whose register has the given type. -/
structure Gives (κ : Facts) (r : RegisterId) (ty : Ty) : Prop where
  given : r ∈ κ.given
  type : (r, ty) ∈ κ.types

theorem Gives.mono (h : κ.Gives r ty) (hle : κ ≤ κ') : κ'.Gives r ty :=
  ⟨(le_iff.mp hle).given h.given, (le_iff.mp hle).types h.type⟩

/-- New blocks, all of which count on what has a value here. -/
structure Splits (κ κ' : Facts) (blocks : List BlockId) : Prop where
  le : κ ≤ κ'
  registers : κ'.registers = κ.registers
  allows : ∀ b ∈ blocks, κ'.Allows b

theorem splits_openBlock (κ : Facts) (b : BlockId) : κ.Splits (κ.openBlock b) [b] :=
  ⟨κ.le_openBlock b, rfl, by simpa using κ.allows_openBlock b⟩

theorem Splits.openBlock {blocks : List BlockId} (h : κ.Splits κ' blocks) (b : BlockId) :
    κ.Splits (κ'.openBlock b) (b :: blocks) := by
  refine ⟨h.le.trans (κ'.le_openBlock b), h.registers, fun c hc => ?_⟩
  rcases List.mem_cons.mp hc with rfl | hc
  · exact κ'.allows_openBlock c
  · exact (h.allows c hc).mono (κ'.le_openBlock b)

end Facts

def UnitPlan.checking (U : UnitPlan) (f : Function) : Checking :=
  ⟨U.symbols, U.vocabulary.globals, f, U.typed, U.sized⟩

namespace Plan

variable {P : Plan} {κ : Facts} {o : Operand} {ty : Ty}

structure Has (P : Plan) (κ : Facts) (o : Operand) (ty : Ty) : Prop where
  value : ∀ r, o = .register r → r ∈ κ.registers ∨ r ∈ κ.given
  known : o.Known P.vocabulary κ.strings
  type : ∀ f, κ.Describes f → f.operandType o = .ok ty

theorem Has.mono (h : P.Has κ o ty) (hle : κ ≤ κ') : P.Has κ' o ty where
  value := fun r hr =>
    (h.value r hr).imp (fun hr => (Facts.le_iff.mp hle).registers hr)
      fun hr => (Facts.le_iff.mp hle).given hr
  known := h.known.mono (Facts.le_iff.mp hle).strings
  type := fun f hf => h.type f (hf.of_le hle)

theorem has_constant (P : Plan) (κ : Facts) (c : Constant) : P.Has κ (.constant c) c.ty :=
  ⟨by simp, trivial, fun _ _ => rfl⟩

theorem has_int (P : Plan) (κ : Facts) (n : Int) : P.Has κ (int n) .int := P.has_constant κ _

theorem has_of_gives (h : κ.Gives r ty) : P.Has κ (.register r) ty where
  value := by
    rintro _ ⟨⟩
    exact .inr h.given
  known := trivial
  type := fun _ hf => hf r ty h.type

/-- A register has a value of the given type here. -/
def Computed (P : Plan) (κ : Facts) (o : Operand) (ty : Ty) : Prop :=
  ∃ r, o = .register r ∧ P.Has κ (.register r) ty

theorem Computed.has (h : P.Computed κ o ty) : P.Has κ o ty := by
  obtain ⟨r, rfl, hr⟩ := h
  exact hr

/-- An instruction reads what has a value and mentions what exists, and if the source
is well-typed it is explicit. -/
structure Accepts (P : Plan) (κ : Facts) (i : Instr) : Prop where
  reads : ∀ o ∈ i.operands, ∃ ty, P.Has κ o ty
  writes : ∀ d, i.destination? = some d → ∃ ty, (d, ty) ∈ κ.types
  plain : i.assigned? = i.destination?
  refers : i.Refers (structsOf P.symbols)
  reaches : ∀ f, κ.Describes f → i.Reaches P.vocabulary.globals f := by exact fun _ _ => trivial
  explicit : P.typed → ∀ f, κ.Describes f → i.IsExplicit P.vocabulary.globals f

theorem Accepts.checking (h : P.Accepts κ i) (hf : κ.Describes f) : (P.checking f).Accepts i where
  operands := by
    intro o ho
    obtain ⟨ty, hty⟩ := h.reads o ho
    exact ⟨ty, hty.type f hf⟩
  destination := by
    intro d hd
    obtain ⟨ty, hty⟩ := h.writes d hd
    exact ⟨ty, hf d ty hty⟩
  refers := h.refers
  reaches := h.reaches f hf
  explicit := fun htyped => h.explicit htyped f hf

/-- A terminator that may end the current block. -/
structure Fits (P : Plan) (κ : Facts) (t : Terminator) : Prop where
  reads : ∀ o ∈ t.operands, ∃ ty, P.Has κ o ty
  allows : ∀ c ∈ t.successors, κ.Allows c
  stays : ∀ v, t ≠ .ret v
  explicit : P.typed → ∀ f, κ.Describes f → t.IsExplicit f

theorem Fits.mono (h : P.Fits κ t) (hle : κ ≤ κ') : P.Fits κ' t where
  reads := by
    intro o ho
    obtain ⟨ty, hty⟩ := h.reads o ho
    exact ⟨ty, hty.mono hle⟩
  allows := fun c hc => (h.allows c hc).mono hle
  stays := h.stays
  explicit := fun htyped f hf => h.explicit htyped f (hf.of_le hle)

theorem Fits.within_mono (h : P.Fits (κ.within K) t) (hle : κ ≤ κ') : P.Fits (κ'.within K) t := by
  have hle := Facts.le_iff.mp hle
  have hdescribes : ∀ {f}, (κ'.within K).Describes f → (κ.within K).Describes f :=
    fun hf r ty hr => hf r ty (hle.types hr)
  refine ⟨fun o ho => ?_, fun c hc => ?_, h.stays, fun htyped f hf => h.explicit htyped f
    (hdescribes hf)⟩
  · obtain ⟨ty, hty⟩ := h.reads o ho
    exact ⟨ty, fun r hr => (hty.value r hr).imp_right fun hr => hle.given hr,
      hty.known.mono hle.strings, fun f hf => hty.type f (hdescribes hf)⟩
  · obtain ⟨k, hk, hsub⟩ := h.allows c hc
    exact ⟨k, hle.blocks hk, hsub⟩

theorem Fits.checking (h : P.Fits κ t) (hf : κ.Describes f) : (P.checking f).Ends t where
  operands := by
    intro o ho
    obtain ⟨ty, hty⟩ := h.reads o ho
    exact ⟨ty, hty.type f hf⟩
  explicit := fun htyped => h.explicit htyped f hf

theorem fits_jump (h : κ.Allows b) : P.Fits κ (.jump b) where
  reads := by simp [Terminator.operands]
  allows := by simpa [Terminator.successors] using h
  stays := by simp
  explicit := fun _ _ _ => trivial

/-- The names that are visible at a point are cells of the types they are known by. -/
def Names (P : Plan) (κ : Facts) (known : Source.Typing) (scopes : ScopeStack) : Prop :=
  ∀ name,
    match scopes.resolve? name with
    | some (storage, ty) => ty.IsKept ∧ (∃ r, storage = .cell r ∧ κ.Gives r ty.pointerTo) ∧
        (P.typed → ∃ source, known name = some source ∧ ty = .ofSource source)
    | none => P.typed → known name = P.symbols.outerTyping P.owner P.globals name

end Plan

/-- A block that is not laid out yet: what it ends with so far and what it counts on. -/
structure Waiting where
  block : BlockId
  terminator : Option Terminator
  known : Set RegisterId

/-- A block that counts on these registers counts on some that do not exist. -/
def Overreaches (K : Set RegisterId) : Prop :=
  ∃ n, ∀ r : RegisterId, n ≤ r.val → r ∈ K

/-- The regions around the innermost one, and the innermost loop. -/
abbrev Surroundings := List Scope × Option LoopTargets

/-- A moment of building: `κ` is known, the current block ends with `T` so far, the
blocks `W` wait, `O` surrounds the innermost region, and `N` are the types of the names
in scope. -/
structure Stage (P : Plan) (A : BlockId → Set RegisterId) (κ : Facts) (T : Option Terminator)
    (W : List Waiting) (O : Surroundings) (N : Source.Typing) (s : Builder) : Prop where
  draft : s.function.Draft A
  laidOut : (s.function.layout ++ W.map Waiting.block).Perm s.function.blocks.indices
  first : s.function.layout.head? = some s.function.entry
  current : s.current ∈ s.function.layout
  here : ∃ b, s.function.blocks.get? s.current = some b ∧ b.terminator = T ∧
    (b.finished = false → κ.registers ⊆ s.function.after A s.current b.instrs.toList)
  ended : ∀ id ∈ s.function.layout, id ≠ s.current → ∀ b, s.function.blocks.get? id = some b →
    b.terminator.isSome
  waiting : ∀ w ∈ W, (w.block, w.known) ∈ κ.blocks ∧
    (∀ t, w.terminator = some t → P.Fits (κ.within w.known) t) ∧
    ∃ b, s.function.blocks.get? w.block = some b ∧ b.terminator = w.terminator ∧ b.finished = false
  fits : ∀ t, T = some t → P.Fits κ t
  facts : ∀ p ∈ κ.blocks, p.1.val < s.function.blocks.size ∧ p.1 ≠ s.function.entry ∧ A p.1 = p.2
  known : ∀ id : BlockId, id.val < s.function.blocks.size → id = s.function.entry ∨
    (id, A id) ∈ κ.blocks
  dead : ∀ id ∈ κ.dead, id.val < s.function.blocks.size ∧ Overreaches (A id)
  entry : A s.function.entry = ∅
  exit : s.function.exit = κ.exit ∧ (κ.exit, ∅) ∈ κ.blocks
  given : ∀ r ∈ κ.given, r ∈ s.function.given
  outer : s.scopes.outer = O
  holds : ∀ f : Function, f.Extends s.function → (P.checking f).Holds s.function
  types : κ.Describes s.function
  strings : κ.strings ≤ s.strings.size
  names : P.Names κ N s.scopes

/-- `Stage` for some choice of the registers that blocks count on. -/
def Staged (P : Plan) (κ : Facts) (T : Option Terminator) (W : List Waiting) (O : Surroundings)
    (N : Source.Typing) (s : Builder) : Prop :=
  ∃ A, Stage P A κ T W O N s

/-- A moment that is reached by moves from where the body was opened. -/
def At (P : Plan) (κ : Facts) (T : Option Terminator) (W : List Waiting) (O : Surroundings)
    (N : Source.Typing) (s : Builder) : Prop :=
  Staged P κ T W O N s ∧ Moves P.vocabulary P.origin s

/-! ## Triples -/

/-- If `pre` holds then `post` holds after the step, unless that fails for a reason
other than the shape of the graph. -/
def Drafts {α : Type} (pre : Builder → Prop) (step : Build α) (post : α → Builder → Prop) : Prop :=
  ∀ s, pre s →
    match step s with
    | .ok a s' => post a s'
    | .error e _ => e.isStructural = false

namespace Drafts

variable {α β : Type} {pre : Builder → Prop} {post : α → Builder → Prop}
  {post' : β → Builder → Prop}

theorem of_eq (hok : ∀ s a s', pre s → step s = .ok a s' → post a s')
    (herror : ∀ s e s', pre s → step s = .error e s' → e.isStructural = false) :
    Drafts pre step post := by
  intro s hs
  cases h : step s with
  | ok a s' => exact hok s a s' hs h
  | error e s' => exact herror s e s' hs h

theorem pure (h : ∀ s, pre s → post a s) : Drafts pre (pure a) post := fun s hs => h s hs

theorem bind {k : α → Build β} (hx : Drafts pre x post) (hk : ∀ a, Drafts (post a) (k a) post') :
    Drafts pre (x >>= k) post' := by
  intro s hs
  have hxs := hx s hs
  simp only [Bind.bind, EStateM.bind]
  cases h : x s with
  | ok a s' =>
    rw [h] at hxs
    exact hk a s' hxs
  | error e s' =>
    rw [h] at hxs
    exact hxs

theorem get {k : Builder → Build α} (h : ∀ s, pre s → Drafts (fun s' => s' = s) (k s) post) :
    Drafts pre (get >>= k) post :=
  fun s hs => h s hs s rfl

theorem map {f : α → β} (hx : Drafts pre x fun a => post' (f a)) : Drafts pre (f <$> x) post' := by
  intro s hs
  have hxs := hx s hs
  simp only [Functor.map, EStateM.map]
  cases h : x s with
  | ok a s' =>
    rw [h] at hxs
    exact hxs
  | error e s' =>
    rw [h] at hxs
    exact hxs

theorem throw (he : e.isStructural = false) : Drafts pre (throw e : Build α) post :=
  fun _ _ => he

theorem ofExcept {x : Except Error α} (he : ∀ e, x = .error e → e.isStructural = false)
    (h : ∀ a s, x = .ok a → pre s → post a s) : Drafts pre (ofExcept x) post := by
  intro s hs
  cases x with
  | ok a => exact h a s rfl hs
  | error e => exact he e rfl

theorem mono {pre' : Builder → Prop} {post'' : α → Builder → Prop} (h : Drafts pre step post)
    (hpre : ∀ s, pre' s → pre s) (hpost : ∀ a s, post a s → post'' a s) :
    Drafts pre' step post'' := by
  intro s hs
  have hstep := h s (hpre s hs)
  cases hx : step s with
  | ok a s' =>
    rw [hx] at hstep
    exact hpost a s' hstep
  | error e s' =>
    rw [hx] at hstep
    exact hstep

end Drafts

/-- At least `κ` is known, the blocks `W` wait, and `Q` holds of what is known, of the end of
the current block, of the names and of the result. -/
def Reaches {α : Type} (P : Plan) (κ : Facts) (W : List Waiting) (O : Surroundings)
    (Q : Facts → Option Terminator → Source.Typing → α → Prop) (a : α) (s : Builder) : Prop :=
  ∃ κ' T' N', κ ≤ κ' ∧ Q κ' T' N' a ∧ At P κ' T' W O N' s

/-- A step that lays out the blocks it creates, adds to what is known, and has a
result for which `Q` holds. -/
abbrev Extends {α : Type} (P : Plan) (κ : Facts) (T : Option Terminator) (W : List Waiting)
    (O : Surroundings) (N : Source.Typing) (step : Build α)
    (Q : Facts → Option Terminator → Source.Typing → α → Prop) : Prop :=
  Drafts (At P κ T W O N) step (Reaches P κ W O Q)

/-- The current block has an end, and the names are `N`. -/
abbrev Closed (P : Plan) (κ : Facts) (W : List Waiting) (O : Surroundings) (N : Source.Typing) :
    Unit → Builder → Prop :=
  Reaches P κ W O fun _ T' N' _ => T'.isSome ∧ N' = N

/-- A step that computes something: the block it ends in ends as the one it began in, and
the names stay. -/
abbrev Yields {α : Type} (P : Plan) (κ : Facts) (T : Option Terminator) (W : List Waiting)
    (O : Surroundings) (N : Source.Typing) (step : Build α) (Q : Facts → α → Prop) : Prop :=
  Extends P κ T W O N step fun κ' T' N' a => T' = T ∧ N' = N ∧ Q κ' a

section

variable {α β : Type} {P : Plan} {κ : Facts} {W : List Waiting} {O : Surroundings}
  {N : Source.Typing} {Q : Facts → Option Terminator → Source.Typing → α → Prop}
  {R : Facts → Option Terminator → Source.Typing → β → Prop}

theorem Drafts.andThen {pre : Builder → Prop} {k : α → Build β} {post : β → Builder → Prop}
    (hx : Drafts pre x (Reaches P κ W O Q))
    (hk : ∀ a κ' T' N', κ ≤ κ' → Q κ' T' N' a → Drafts (At P κ' T' W O N') (k a) post) :
    Drafts pre (x >>= k) post := by
  refine Drafts.bind hx fun a s hs => ?_
  obtain ⟨κ', T', N', hle, hQ, hat⟩ := hs
  exact hk a κ' T' N' hle hQ s hat

theorem Drafts.thenClosed {pre : Builder → Prop} {k : Unit → Build β} {post : β → Builder → Prop}
    (hx : Drafts pre x (Closed P κ W O N))
    (hk : ∀ κ' T', κ ≤ κ' → T'.isSome → Drafts (At P κ' T' W O N) (k ()) post) :
    Drafts pre (x >>= k) post := by
  refine Drafts.andThen hx fun _ κ' T' N' hle hQ => ?_
  obtain ⟨hT', rfl⟩ := hQ
  exact hk κ' T' hle hT'

theorem Drafts.closed {pre : Builder → Prop} {Q : Facts → Unit → Prop}
    (h : Drafts pre step (Reaches P κ W O fun κ' T' N' a => T' = T ∧ N' = N ∧ Q κ' a))
    (hT : T.isSome) : Drafts pre step (Closed P κ W O N) := by
  refine Drafts.mono h (fun _ hs => hs) ?_
  rintro _ s ⟨κ', T', N', hle, ⟨rfl, rfl, -⟩, hs⟩
  exact ⟨κ', _, _, hle, ⟨hT, rfl⟩, hs⟩

theorem Drafts.lower {pre : Builder → Prop} (h : Drafts pre step (Reaches P κ W O Q))
    (hle : κ0 ≤ κ) : Drafts pre step (Reaches P κ0 W O Q) := by
  refine h.mono (fun _ hs => hs) ?_
  rintro a s ⟨κ', T', N', hle', hQ⟩
  exact ⟨κ', T', N', hle.trans hle', hQ⟩

theorem Extends.mono {Q' : Facts → Option Terminator → Source.Typing → α → Prop}
    (h : Extends P κ T W O N step Q) (hle : κ0 ≤ κ)
    (himp : ∀ κ' T' N' a, κ ≤ κ' → Q κ' T' N' a → Q' κ' T' N' a) :
    Drafts (At P κ T W O N) step (Reaches P κ0 W O Q') := by
  refine Drafts.mono h (fun _ hs => hs) ?_
  rintro a s ⟨κ', T', N', hle', hQ, hat⟩
  exact ⟨κ', T', N', hle.trans hle', himp κ' T' N' a hle' hQ, hat⟩

theorem Extends.bind {k : α → Build β} (hx : Extends P κ T W O N x Q)
    (hk : ∀ a κ' T' N', κ ≤ κ' → Q κ' T' N' a → Extends P κ' T' W O N' (k a) R) :
    Extends P κ T W O N (x >>= k) R :=
  Drafts.andThen hx fun a κ' T' N' hle hQ => (hk a κ' T' N' hle hQ).mono hle fun _ _ _ _ _ h => h

end

namespace Yields

variable {α β : Type} {P : Plan} {κ : Facts} {T : Option Terminator} {W : List Waiting}
  {O : Surroundings} {N : Source.Typing} {Q : Facts → α → Prop} {R : Facts → β → Prop}

theorem pure (h : Q κ a) : Yields P κ T W O N (pure a) Q :=
  Drafts.pure fun _ hs => ⟨κ, T, N, le_refl κ, ⟨rfl, rfl, h⟩, hs⟩

theorem throw (he : e.isStructural = false) : Yields P κ T W O N (throw e : Build α) Q :=
  Drafts.throw he

theorem ofExcept {x : Except Error α} (he : ∀ e, x = .error e → e.isStructural = false) :
    Yields P κ T W O N (ofExcept x) fun _ a => x = .ok a :=
  Drafts.ofExcept he fun _ _ ha hs => ⟨κ, T, N, le_refl κ, ⟨rfl, rfl, ha⟩, hs⟩

theorem andThen {k : α → Build β} {post : β → Builder → Prop} (hx : Yields P κ T W O N x Q)
    (hk : ∀ a κ', κ ≤ κ' → Q κ' a → Drafts (At P κ' T W O N) (k a) post) :
    Drafts (At P κ T W O N) (x >>= k) post := by
  refine Drafts.andThen hx fun a κ' T' N' hle hQ => ?_
  obtain ⟨rfl, rfl, hQ⟩ := hQ
  exact hk a κ' hle hQ

theorem bind {k : α → Build β} (hx : Yields P κ T W O N x Q)
    (hk : ∀ a κ', κ ≤ κ' → Q κ' a → Yields P κ' T W O N (k a) R) : Yields P κ T W O N (x >>= k) R :=
  hx.andThen fun a κ' hle hQ => Extends.mono (hk a κ' hle hQ) hle fun _ _ _ _ _ h => h

theorem map {f : α → β} (hx : Yields P κ T W O N x fun κ' a => R κ' (f a)) :
    Yields P κ T W O N (f <$> x) R :=
  Drafts.map hx

theorem mono {Q' : Facts → α → Prop} (h : Yields P κ T W O N step Q)
    (himp : ∀ κ' a, κ ≤ κ' → Q κ' a → Q' κ' a) : Yields P κ T W O N step Q' :=
  Extends.mono h (le_refl κ) fun κ' _ _ a hle hQ => ⟨hQ.1, hQ.2.1, himp κ' a hle hQ.2.2⟩

end Yields

end Flow

end MxStar
